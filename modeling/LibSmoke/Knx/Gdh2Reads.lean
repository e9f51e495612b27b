import LibSmoke.Lib.Traced
import LibSmoke.Knx.Gdh2KeyExchange

/-!
# What the exchange along a chain reads

The body of a packet is read here where it lies, in a memory that goes on behind
it, and every read is logged. `ecp_tls_read_point` holds the length of a record
against that of the whole body, wherever in the body the record begins, and
`gdh2_compute_key` begins at its own place without a look at the length. So both
stay inside unless the bytes end within the record at hand (`Cut`): after fewer
good records than `gdh2_make_val` takes, or at the place of `gdh2_compute_key`.
Then what follows the body is taken for its continuation.

As long as nothing is read past the end the calls are those on the bytes alone
(`gdh2MakeValAt_eq`, `gdh2ComputeKeyAt_eq`).
-/

namespace LibSmoke

/-- Some bytes in a row, by the address of the first. -/
structure Span where
  start : Nat
  count : Nat
  deriving DecidableEq

namespace Span

def Within (len : Nat) (s : Span) : Prop := s.start + s.count ≤ len

instance (len : Nat) : DecidablePred (Within len) :=
  fun _ => inferInstanceAs (Decidable (_ ≤ _))

end Span

/-- The memory from the address of a body on. -/
abbrev Mem := Nat → UInt8

/-- The body is what the memory begins with. -/
def Mem.Holds (mem : Mem) (body : List UInt8) : Prop :=
  ∀ i (h : i < body.length), mem i = body[i]

abbrev Reads := Traced Span SbanError

namespace Mem

def byteAt (mem : Mem) (at' : Nat) : Reads UInt8 := .tell ⟨at', 1⟩ (mem at')

def bytesAt (mem : Mem) (at' count : Nat) : Reads (List UInt8) :=
  .tell ⟨at', count⟩ ((List.range count).map fun i => mem (at' + i))

end Mem

section Calls

variable (mem : Mem)

def EcpGroup.ecpPointReadBinaryAt (g : EcpGroup) (buf ilen : Nat) : Reads EcpPoint := do
  let b ← mem.byteAt buf
  if b = 0x00 then
    if ilen = 1 then pure ecpZero else .lift (.error .ecpBadInputData)
  else if b ≠ 0x04 then .lift (.error .ecpFeatureUnavailable)
  else if ilen ≠ 2 * g.plen + 1 then .lift (.error .ecpBadInputData)
  else
    let x ← mem.bytesAt (buf + 1) g.plen
    let y ← mem.bytesAt (buf + 1 + g.plen) g.plen
    pure ⟨mpiReadBinary x, mpiReadBinary y, 1⟩

/-- It returns the point and where to read on. -/
def EcpGroup.ecpTlsReadPointAt (g : EcpGroup) (buf bufLen : Nat) :
    Reads (EcpPoint × Nat) :=
  if bufLen < 2 then .lift (.error .ecpBadInputData)
  else do
    let dataLen ← mem.byteAt buf
    if dataLen.toNat < 1 ∨ dataLen.toNat > bufLen - 1 then .lift (.error .ecpBadInputData)
    else
      let pt ← g.ecpPointReadBinaryAt mem (buf + 1) dataLen.toNat
      pure (pt, buf + 1 + dataLen.toNat)

/-- What the loop of `gdh2_make_val` does with a point it has read. -/
def gdh2Round (ctx : Gdh2Context) (obuflen i : Nat) (read : EcpPoint) (obuf : List UInt8) :
    Except SbanError (List UInt8) := do
  let write ← ctx.grp.ecpMul ctx.priv read
  let bytes ← ctx.grp.ecpTlsWritePoint write (obuflen - obuf.length)
  let obuf := obuf ++ bytes
  if i = 0 then
    let old ← ctx.grp.ecpTlsWritePoint read (obuflen - obuf.length)
    .ok (obuf ++ old)
  else .ok obuf

def gdh2LoopAt (ctx : Gdh2Context) (buflen obuflen : Nat) :
    Nat → Nat → Nat → List UInt8 → Reads (List UInt8)
  | 0, _, _, obuf => pure obuf
  | left + 1, i, p, obuf => do
      let (read, p) ← ctx.grp.ecpTlsReadPointAt mem p buflen
      let obuf ← .lift (gdh2Round ctx obuflen i read obuf)
      gdh2LoopAt ctx buflen obuflen left (i + 1) p obuf

def gdh2BeginAt (ctx : Gdh2Context) (index buflen : Nat) :
    Reads (Gdh2Context × Nat × Nat) :=
  if index = ctx.N then do
    let (read, p) ← ctx.grp.ecpTlsReadPointAt mem 0 buflen
    let write ← .lift (ctx.grp.ecpMul ctx.priv read)
    pure ({ ctx with key := write.X }, p, 1)
  else if index ≥ 2 ∧ index < ctx.N then pure (ctx, 0, 0)
  else .lift (.error .badInputData)

def gdh2MakeValAt (ctx : Gdh2Context) (index buflen obuflen : Nat) :
    Reads (Gdh2Context × List UInt8) := do
  let (ctx, p, i) ← gdh2BeginAt mem ctx index buflen
  let term := if index = 2 then 1 else index
  let obuf ← gdh2LoopAt mem ctx buflen obuflen (term - i) i p []
  let obuf ← .lift (gdh2Extra ctx index obuflen obuf)
  pure (ctx, obuf)

def gdh2ComputeKeyAt (ctx : Gdh2Context) (index buflen obuflen : Nat) :
    Reads (Gdh2Context × List UInt8) :=
  if index < 1 ∨ index ≥ ctx.N then .lift (.error .badInputData)
  else do
    let plen := 2 * mpiSize ctx.grp.P + 2
    let (read, _) ← ctx.grp.ecpTlsReadPointAt mem (plen * (ctx.N - index - 1)) buflen
    let tmp ← .lift (ctx.grp.ecpMul ctx.priv read)
    let ctx := { ctx with key := tmp.X }
    if mpiSize ctx.key > obuflen then .lift (.error .bufferTooShort)
    else
      let obuf ← .lift (mpiWriteBinary ctx.key ctx.grp.keyLen)
      pure (ctx, obuf)

end Calls

/-! ## One point -/

namespace EcpGroup

variable (g : EcpGroup)

/-- What is left of a body of `len` bytes ends within the record it begins with,
where this is looked at: at its length, at its first byte, or at the coordinates
when both announce a point. -/
def Cut (len : Nat) : List UInt8 → Prop
  | [] => True
  | [d] => 1 ≤ d.toNat ∧ d.toNat ≤ len - 1
  | d :: b :: bs => b = 0x04 ∧ d.toNat = 2 * g.plen + 1 ∧ d.toNat ≤ len - 1 ∧
      bs.length < 2 * g.plen

instance Cut.decidable (len : Nat) : ∀ bs, Decidable (g.Cut len bs)
  | [] => .isTrue trivial
  | [_] => inferInstanceAs (Decidable (_ ∧ _))
  | _ :: _ :: _ => inferInstanceAs (Decidable (_ ∧ _))

end EcpGroup

section Point

variable {g : EcpGroup} {mem : Mem} {body : List UInt8} (hmem : mem.Holds body)

include hmem

theorem Mem.Holds.head {i : Nat} {b : UInt8} {bs : List UInt8}
    (h : body.drop i = b :: bs) : i < body.length ∧ mem i = b ∧ body.drop (i + 1) = bs := by
  have hi : i < body.length := by
    have hlen := congrArg List.length h
    rw [List.length_drop, List.length_cons] at hlen
    omega
  have hcons := (List.drop_eq_getElem_cons hi).symm.trans h
  exact ⟨hi, (hmem i hi).trans (List.cons.inj hcons).1, (List.cons.inj hcons).2⟩

theorem Mem.Holds.bytes {i count : Nat} (h : i + count ≤ body.length) :
    ((List.range count).map fun k => mem (i + k)) = (body.drop i).take count := by
  refine List.ext_getElem ?_ fun k hk hk' => ?_
  · rw [List.length_map, List.length_range, List.length_take, List.length_drop]
    omega
  · rw [List.length_map, List.length_range] at hk
    rw [List.getElem_map, List.getElem_range, List.getElem_take, List.getElem_drop]
    exact hmem _ _

/-- Where the bytes of the point are there, they are what is read. -/
theorem ecpPointReadBinaryAt_eq {i ilen : Nat} (h1 : 1 ≤ ilen)
    (hlen : i + ilen ≤ body.length) :
    (g.ecpPointReadBinaryAt mem i ilen).result =
      g.ecpPointReadBinary ((body.drop i).take ilen) := by
  obtain ⟨b, bs, hdrop⟩ := List.exists_cons_of_length_pos
    (show 0 < (body.drop i).length by rw [List.length_drop]; omega)
  obtain ⟨-, hb, hbs⟩ := hmem.head hdrop
  obtain ⟨n, rfl⟩ : ∃ n, ilen = n + 1 := ⟨ilen - 1, by omega⟩
  have hcount : ((body.drop i).take (n + 1)).length = n + 1 := by
    rw [List.length_take, List.length_drop]
    omega
  have hfirst : ((body.drop i).take (n + 1)).getD 0 0 = b := by
    rw [hdrop]
    rfl
  unfold EcpGroup.ecpPointReadBinaryAt EcpGroup.ecpPointReadBinary Mem.byteAt Mem.bytesAt
  simp only [Traced.result_tell_bind, Traced.result_ite, Traced.result_lift,
    Traced.result_pure, hb, hfirst, hcount]
  split
  · rfl
  · split
    · rfl
    · split
      · rfl
      · next hn =>
          have hn : n = 2 * g.plen := by omega
          have hsecond : body.drop (i + 1 + g.plen) = bs.drop g.plen := by
            rw [← List.drop_drop, hbs]
          rw [hmem.bytes (by omega), hmem.bytes (by omega), hdrop, hbs, hsecond,
            List.take_succ_cons, Nat.add_comm 1 g.plen, List.drop_succ_cons, List.drop_zero,
            List.drop_succ_cons, List.take_take, List.drop_take, List.take_take,
            Nat.min_eq_left (by omega), Nat.min_eq_left (by omega)]

omit hmem in
theorem ecpPointReadBinaryAt_ok {i ilen : Nat} {p : EcpPoint}
    (hall : (g.ecpPointReadBinaryAt mem i ilen).All (Span.Within body.length))
    (h : (g.ecpPointReadBinaryAt mem i ilen).result = .ok p) :
    i + ilen ≤ body.length := by
  unfold EcpGroup.ecpPointReadBinaryAt Mem.byteAt Mem.bytesAt at h hall
  rw [Traced.result_tell_bind] at h
  rw [Traced.all_tell_bind] at hall
  obtain ⟨hbyte, hrest⟩ := hall
  have hbyte : i + 1 ≤ body.length := hbyte
  split at h
  · split at h
    · omega
    · cases h
  · next hzero =>
      rw [if_neg hzero] at hrest
      split at h
      · cases h
      · next hfour =>
          rw [if_neg hfour] at hrest
          split at h
          · cases h
          · next hn =>
              rw [if_neg hn, Traced.all_tell_bind, Traced.all_tell_bind] at hrest
              have hy : i + 1 + g.plen + g.plen ≤ body.length := hrest.2.1
              omega

/-- Which bytes of a point are looked at. -/
theorem ecpPointReadBinaryAt_within {i ilen : Nat} {bs : List UInt8}
    (hdrop : body.drop i = bs) :
    (g.ecpPointReadBinaryAt mem i ilen).All (Span.Within body.length) ↔
      ∃ b rest, bs = b :: rest ∧
        (b = 0x04 → ilen = 2 * g.plen + 1 → 2 * g.plen ≤ rest.length) := by
  unfold EcpGroup.ecpPointReadBinaryAt Mem.byteAt Mem.bytesAt
  rw [Traced.all_tell_bind]
  cases bs with
  | nil =>
      have hi := List.drop_eq_nil_iff.mp hdrop
      refine iff_of_false (fun h => ?_) fun ⟨b, rest, h, _⟩ => (by cases h)
      have hfirst : i + 1 ≤ body.length := h.1
      omega
  | cons b rest =>
      obtain ⟨hi, hb, hrest⟩ := hmem.head hdrop
      have hlen := congrArg List.length hrest
      rw [List.length_drop] at hlen
      have hiff : (∃ b' rest', b :: rest = b' :: rest' ∧
            (b' = 0x04 → ilen = 2 * g.plen + 1 → 2 * g.plen ≤ rest'.length)) ↔
          (b = 0x04 → ilen = 2 * g.plen + 1 → 2 * g.plen ≤ rest.length) := by
        constructor
        · rintro ⟨b', rest', heq, h⟩
          cases heq
          exact h
        · exact fun h => ⟨b, rest, rfl, h⟩
      have hfirst : Span.Within body.length ⟨i, 1⟩ := hi
      rw [hiff, hb, and_iff_right hfirst]
      split
      · next hzero =>
          refine iff_of_true ?_ fun hfour => absurd (hzero.symm.trans hfour) (by decide)
          split
          · exact Traced.all_pure _
          · exact Traced.all_lift _
      · split
        · next hfour => exact iff_of_true (Traced.all_lift _) fun h => absurd h hfour
        · next hfour =>
            split
            · next hn => exact iff_of_true (Traced.all_lift _) fun _ h => absurd h hn
            · next hn =>
                rw [Traced.all_tell_bind, Traced.all_tell_bind]
                show (i + 1 + g.plen ≤ body.length ∧ i + 1 + g.plen + g.plen ≤ body.length ∧
                  _) ↔ _
                constructor
                · intro h _ _
                  omega
                · intro h
                  have := h (not_not.mp hfour) (not_not.mp hn)
                  exact ⟨by omega, by omega, Traced.all_pure _⟩

/-- A record is read within the body unless the body ends in it. -/
theorem ecpTlsReadPointAt_within (i : Nat) :
    (g.ecpTlsReadPointAt mem i body.length).All (Span.Within body.length) ↔
      ¬ (2 ≤ body.length ∧ g.Cut body.length (body.drop i)) := by
  unfold EcpGroup.ecpTlsReadPointAt Mem.byteAt
  split
  · next hlen => exact iff_of_true (Traced.all_lift _) fun h => by omega
  · next hlen =>
      have hlen : 2 ≤ body.length := Nat.le_of_not_lt hlen
      rw [and_iff_right hlen, Traced.all_tell_bind]
      cases hdrop : body.drop i with
      | nil =>
          have hi := List.drop_eq_nil_iff.mp hdrop
          refine iff_of_false (fun h => ?_) (not_not.mpr trivial)
          have hfirst : i + 1 ≤ body.length := h.1
          omega
      | cons d bs =>
          obtain ⟨hi, hd, hbs⟩ := hmem.head hdrop
          have hfirst : Span.Within body.length ⟨i, 1⟩ := hi
          rw [hd, and_iff_right hfirst]
          split
          · next hrange =>
              refine iff_of_true (Traced.all_lift _) ?_
              cases bs with
              | nil => exact fun h => by have := h.1; have := h.2; omega
              | cons b bs => exact fun h => by have := h.2.1; have := h.2.2.1; omega
          · next hrange =>
              rw [Traced.all_bind, ecpPointReadBinaryAt_within hmem hbs]
              have hpure : ∀ a, (g.ecpPointReadBinaryAt mem (i + 1) d.toNat).result = .ok a →
                  (pure (a, i + 1 + d.toNat) : Reads (EcpPoint × Nat)).All
                    (Span.Within body.length) := fun a _ => Traced.all_pure _
              rw [and_iff_left hpure]
              cases bs with
              | nil =>
                  refine iff_of_false (fun ⟨b, rest, h, _⟩ => (by cases h)) (not_not.mpr ?_)
                  exact ⟨by omega, by omega⟩
              | cons b bs =>
                  constructor
                  · rintro ⟨b', rest, heq, h⟩ ⟨hfour, hd, -, hshort⟩
                    cases heq
                    have := h hfour hd
                    omega
                  · intro h
                    refine ⟨b, bs, rfl, fun hfour hd => ?_⟩
                    by_contra hshort
                    exact h ⟨hfour, hd, by omega, by omega⟩

/-- A point that was read within the body is the one that the bytes begin with. -/
theorem ecpTlsReadPointAt_ok {i next : Nat} {p : EcpPoint}
    (hall : (g.ecpTlsReadPointAt mem i body.length).All (Span.Within body.length))
    (h : (g.ecpTlsReadPointAt mem i body.length).result = .ok (p, next)) :
    g.ecpTlsReadPoint (body.drop i) body.length = .ok (p, body.drop next) := by
  unfold EcpGroup.ecpTlsReadPointAt Mem.byteAt at h hall
  unfold EcpGroup.ecpTlsReadPoint
  split at h
  · cases h
  · next hlen =>
      rw [if_neg hlen] at hall ⊢
      rw [Traced.result_tell_bind] at h
      rw [Traced.all_tell_bind] at hall
      obtain ⟨hfirst, hall⟩ := hall
      have hfirst : i + 1 ≤ body.length := hfirst
      obtain ⟨d, bs, hdrop⟩ := List.exists_cons_of_length_pos
        (show 0 < (body.drop i).length by rw [List.length_drop]; omega)
      obtain ⟨hi, hd, hbs⟩ := hmem.head hdrop
      rw [hd] at h hall
      rw [hdrop]
      simp only []
      split at h
      · cases h
      · next hrange =>
          rw [if_neg hrange, Traced.all_bind] at hall
          obtain ⟨q, hq, hpure⟩ := Traced.ok_of_bind h
          cases hpure
          have hroom := ecpPointReadBinaryAt_ok hall.1 hq
          have hbytes := ecpPointReadBinaryAt_eq (g := g) hmem (by omega) hroom
          have hcount := congrArg List.length hbs
          rw [List.length_drop] at hcount
          rw [hq, hbs] at hbytes
          rw [if_neg hrange, if_neg (by omega), ← hbytes, ← hbs, List.drop_drop]
          rfl

/-- Where the bytes alone say what is read, that is read. -/
theorem ecpTlsReadPointAt_eq {i : Nat} :
    (∀ e, e ≠ .pastBuffer → g.ecpTlsReadPoint (body.drop i) body.length = .error e →
      (g.ecpTlsReadPointAt mem i body.length).result = .error e) ∧
    ∀ p rest, g.ecpTlsReadPoint (body.drop i) body.length = .ok (p, rest) →
      ∃ next, (g.ecpTlsReadPointAt mem i body.length).result = .ok (p, next) ∧
        body.drop next = rest := by
  unfold EcpGroup.ecpTlsReadPointAt EcpGroup.ecpTlsReadPoint Mem.byteAt
  split
  · exact ⟨fun e _ h => (by cases h; rfl), fun p rest h => (by cases h)⟩
  · next hlen =>
      rw [Traced.result_tell_bind]
      cases hdrop : body.drop i with
      | nil =>
          exact ⟨fun e he h => absurd (Except.error.inj h).symm he,
            fun p rest h => (by cases h)⟩
      | cons d bs =>
          obtain ⟨hi, hd, hbs⟩ := hmem.head hdrop
          simp only []
          rw [hd]
          split
          · exact ⟨fun e _ h => (by cases h; rfl), fun p rest h => (by cases h)⟩
          · next hrange =>
              split
              · exact ⟨fun e he h => absurd (Except.error.inj h).symm he,
                  fun p rest h => (by cases h)⟩
              · next hshort =>
                  have hcount := congrArg List.length hbs
                  rw [List.length_drop] at hcount
                  have hbytes : (g.ecpPointReadBinaryAt mem (i + 1) d.toNat).result = _ :=
                    ecpPointReadBinaryAt_eq hmem (by omega) (by omega)
                  rw [hbs] at hbytes
                  rw [Traced.result_bind, hbytes]
                  cases g.ecpPointReadBinary (bs.take d.toNat) with
                  | error e => exact ⟨fun e' _ h => (by cases h; rfl), fun p rest h => (by cases h)⟩
                  | ok q =>
                      refine ⟨fun e _ h => (by cases h), fun p rest h => ?_⟩
                      cases h
                      exact ⟨_, rfl, by rw [← List.drop_drop, hbs]⟩

end Point

/-! ## The points of a body -/

namespace EcpGroup

variable (g : EcpGroup)

/-- The multiple of a point of the curve by a scalar in range is one too. So it is
where the points of the curve, with the zero point, are as many as `N`. -/
def Closed : Prop :=
  ∀ m p, g.ecpCheckPrivkey m = .ok () → g.ecpCheckPubkey p = .ok () →
    g.ecpCheckPubkey (g.mulComb m p) = .ok ()

/-- The bytes begin with the records of `k` points of the curve. -/
def Begins (k : Nat) (bs : List UInt8) : Prop :=
  ∃ ps : List EcpPoint, ps.length = k ∧ (∀ p ∈ ps, g.ecpCheckPubkey p = .ok ()) ∧
    ps.flatMap g.record <+: bs

/-- The bytes end within a record that comes after fewer than `k` of points of the
curve. -/
def CutAfter (len k : Nat) (bs : List UInt8) : Prop :=
  ∃ ps : List EcpPoint, ps.length < k ∧ (∀ p ∈ ps, g.ecpCheckPubkey p = .ok ()) ∧
    ∃ left, bs = ps.flatMap g.record ++ left ∧ g.Cut len left

variable {g} {len k : Nat} {bs : List UInt8}

theorem not_cutAfter_zero : ¬ g.CutAfter len 0 bs := fun ⟨_, h, _⟩ => by omega

theorem cutAfter_succ : g.CutAfter len (k + 1) bs ↔ g.Cut len bs ∨
    ∃ p rest, g.ecpCheckPubkey p = .ok () ∧ bs = g.record p ++ rest ∧
      g.CutAfter len k rest := by
  constructor
  · rintro ⟨ps, hps, hcurve, left, rfl, hcut⟩
    cases ps with
    | nil => exact .inl hcut
    | cons p ps =>
        refine .inr ⟨p, ps.flatMap g.record ++ left, hcurve p List.mem_cons_self, ?_, ps,
          Nat.lt_of_succ_lt_succ hps, fun q hq => hcurve q (List.mem_cons_of_mem p hq),
          left, rfl, hcut⟩
        rw [List.flatMap_cons, List.append_assoc]
  · rintro (h | ⟨p, rest, hp, rfl, ps, hps, hcurve, left, rfl, hcut⟩)
    · exact ⟨[], Nat.succ_pos k, fun p hp => (by cases hp), bs, rfl, h⟩
    · refine ⟨p :: ps, Nat.succ_lt_succ hps, List.forall_mem_cons.mpr ⟨hp, hcurve⟩, left,
        ?_, hcut⟩
      rw [List.flatMap_cons, List.append_assoc]

theorem Begins.zero : g.Begins 0 bs :=
  ⟨[], rfl, fun p hp => (by cases hp), List.nil_prefix⟩

theorem Begins.cons {p : EcpPoint} (hp : g.ecpCheckPubkey p = .ok ()) {rest : List UInt8}
    (h : g.Begins k rest) : g.Begins (k + 1) (g.record p ++ rest) := by
  obtain ⟨ps, hps, hcurve, hpre⟩ := h
  refine ⟨p :: ps, congrArg (· + 1) hps, List.forall_mem_cons.mpr ⟨hp, hcurve⟩, ?_⟩
  rw [List.flatMap_cons]
  exact (List.prefix_append_right_inj _).mpr hpre

theorem ecpMul_onCurve {m : Int} {p w : EcpPoint} (h : g.ecpMul m p = .ok w) :
    g.ecpCheckPubkey p = .ok () := by
  unfold ecpMul at h
  split at h
  · cases h
  · cases hm : g.ecpCheckPrivkey m with
    | error e => rw [hm] at h; cases h
    | ok u =>
        rw [hm] at h
        cases hp : g.ecpCheckPubkey p with
        | error e => rw [hp] at h; cases h
        | ok u => rfl

theorem Closed.ecpMul (h : g.Closed) {m : Int} {p : EcpPoint}
    (hm : g.ecpCheckPrivkey m = .ok ()) (hp : g.ecpCheckPubkey p = .ok ()) :
    ∃ w, g.ecpMul m p = .ok w ∧ g.ecpCheckPubkey w = .ok () := by
  refine ⟨g.mulComb m p, ?_, h m p hm hp⟩
  have hZ := (onCurve_range hp).1
  rw [EcpGroup.ecpMul, if_neg (not_not.mpr hZ), hm, hp]
  rfl

end EcpGroup

/-! ## The calls -/

section Calls

variable {ctx : Gdh2Context} {mem : Mem} {body : List UInt8}

theorem gdh2Round_onCurve {obuflen i : Nat} {read : EcpPoint} {obuf obuf' : List UInt8}
    (h : gdh2Round ctx obuflen i read obuf = .ok obuf') :
    ctx.grp.ecpCheckPubkey read = .ok () := by
  unfold gdh2Round at h
  cases hmul : ctx.grp.ecpMul ctx.priv read with
  | error e => rw [hmul] at h; cases h
  | ok w => exact EcpGroup.ecpMul_onCurve hmul

/-- How many records a round of the loop writes. -/
def written (i : Nat) : Nat := if i = 0 then 2 else 1

theorem gdh2Round_ok (hclosed : ctx.grp.Closed)
    (hpriv : ctx.grp.ecpCheckPrivkey ctx.priv = .ok ()) {obuflen i : Nat} {read : EcpPoint}
    {obuf : List UInt8} (hread : ctx.grp.ecpCheckPubkey read = .ok ())
    (hroom : obuf.length + written i * (2 * ctx.grp.plen + 2) ≤ obuflen) :
    ∃ obuf', gdh2Round ctx obuflen i read obuf = .ok obuf' ∧
      obuf'.length = obuf.length + written i * (2 * ctx.grp.plen + 2) := by
  obtain ⟨w, hmul, hw⟩ := hclosed.ecpMul hpriv hread
  unfold written at hroom ⊢
  unfold gdh2Round
  rw [hmul]
  simp only [bind, Except.bind]
  split at hroom
  · next hi =>
      rw [EcpGroup.ecpTlsWritePoint_onCurve hw (by omega), if_pos hi]
      simp only [if_pos hi]
      rw [EcpGroup.ecpTlsWritePoint_onCurve hread (by
        rw [List.length_append, EcpGroup.record_length]; omega)]
      refine ⟨_, rfl, ?_⟩
      rw [List.length_append, List.length_append, EcpGroup.record_length,
        EcpGroup.record_length]
      omega
  · next hi =>
      rw [EcpGroup.ecpTlsWritePoint_onCurve hw (by omega), if_neg hi]
      simp only [if_neg hi]
      refine ⟨_, rfl, ?_⟩
      rw [List.length_append, EcpGroup.record_length]
      omega

variable (hmem : mem.Holds body)

include hmem

/-- A record at the front is read as it is. -/
theorem ecpTlsReadPointAt_record {g : EcpGroup} (hplen : g.plen = 32) {i : Nat}
    {p : EcpPoint} (hp : g.ecpCheckPubkey p = .ok ()) {rest : List UInt8}
    (h : body.drop i = g.record p ++ rest) :
    ∃ next, (g.ecpTlsReadPointAt mem i body.length).result = .ok (p, next) ∧
      body.drop next = rest := by
  have hlen := congrArg List.length h
  rw [List.length_drop, List.length_append, EcpGroup.record_length] at hlen
  refine (ecpTlsReadPointAt_eq hmem).2 p rest ?_
  rw [h]
  exact EcpGroup.ecpTlsReadPoint_record hp ⟨by omega, by omega⟩ rest

/-- A point of the curve that was read within the body is the record at the front. -/
theorem ecpTlsReadPointAt_front {g : EcpGroup} {i next : Nat} {p : EcpPoint}
    (hall : (g.ecpTlsReadPointAt mem i body.length).All (Span.Within body.length))
    (h : (g.ecpTlsReadPointAt mem i body.length).result = .ok (p, next))
    (hp : g.ecpCheckPubkey p = .ok ()) : body.drop i = g.record p ++ body.drop next := by
  rcases EcpGroup.ecpTlsReadPoint_ok (ecpTlsReadPointAt_ok hmem hall h) with
    ⟨rfl, -⟩ | ⟨-, hrec⟩
  · cases hp
  · exact hrec

/-- One point more. What is done with it fails for what is no point of the curve and
for nothing else, and the rest stays within the body unless it is cut after fewer
than `n` points. -/
theorem read_within {α β : Type} {g : EcpGroup} (hplen : g.plen = 32)
    {f : EcpPoint → Except SbanError α} {k : Nat → α → Reads β} {i n : Nat}
    (hf : ∀ q a, f q = .ok a → g.ecpCheckPubkey q = .ok ())
    (hok : ∀ q, g.ecpCheckPubkey q = .ok () → ∃ a, f q = .ok a)
    (hrest : ∀ q next a, f q = .ok a → ((k next a).All (Span.Within body.length) ↔
      ¬ (2 ≤ body.length ∧ g.CutAfter body.length n (body.drop next)))) :
    (g.ecpTlsReadPointAt mem i body.length >>= fun r =>
        Traced.lift (f r.1) >>= k r.2).All (Span.Within body.length) ↔
      ¬ (2 ≤ body.length ∧ g.CutAfter body.length (n + 1) (body.drop i)) := by
  rw [Traced.all_bind, ecpTlsReadPointAt_within hmem]
  constructor
  · rintro ⟨hread, hall⟩ ⟨hlen, hcut⟩
    rcases EcpGroup.cutAfter_succ.mp hcut with hcut | ⟨q, bs, hq, hbs, hcut⟩
    · exact hread ⟨hlen, hcut⟩
    · obtain ⟨next, hres, rfl⟩ := ecpTlsReadPointAt_record hmem hplen hq hbs
      obtain ⟨a, ha⟩ := hok q hq
      have hall := (Traced.all_bind.mp (hall _ hres)).2 a ha
      exact (hrest q next a ha).mp hall ⟨hlen, hcut⟩
  · intro h
    have hread : ¬ (2 ≤ body.length ∧ g.Cut body.length (body.drop i)) :=
      fun ⟨hlen, hcut⟩ => h ⟨hlen, EcpGroup.cutAfter_succ.mpr (.inl hcut)⟩
    refine ⟨hread, fun (q, next) hres => ?_⟩
    refine Traced.all_bind.mpr ⟨Traced.all_lift _, fun a ha => ?_⟩
    have hq := hf q a ha
    have hbs := ecpTlsReadPointAt_front hmem
      ((ecpTlsReadPointAt_within hmem i).mpr hread) hres hq
    exact (hrest q next a ha).mpr fun ⟨hlen, hcut⟩ =>
      h ⟨hlen, EcpGroup.cutAfter_succ.mpr (.inr ⟨q, _, hq, hbs, hcut⟩)⟩

/-- What is returned after one point more has come from one point more. -/
theorem read_begins {α β : Type} {g : EcpGroup} {f : EcpPoint → Except SbanError α}
    {k : Nat → α → Reads β} {i n : Nat} {b : β}
    (hf : ∀ q a, f q = .ok a → g.ecpCheckPubkey q = .ok ())
    (hrest : ∀ q next a, f q = .ok a → (k next a).All (Span.Within body.length) →
      (k next a).result = .ok b → g.Begins n (body.drop next))
    (hall : (g.ecpTlsReadPointAt mem i body.length >>= fun r =>
      Traced.lift (f r.1) >>= k r.2).All (Span.Within body.length))
    (h : (g.ecpTlsReadPointAt mem i body.length >>= fun r =>
      Traced.lift (f r.1) >>= k r.2).result = .ok b) :
    g.Begins (n + 1) (body.drop i) := by
  obtain ⟨⟨q, next⟩, hres, h⟩ := Traced.ok_of_bind h
  obtain ⟨hread, hall⟩ := Traced.all_bind.mp hall
  obtain ⟨a, ha, h⟩ := Traced.ok_of_bind h
  have hq := hf q a ha
  have hall := (Traced.all_bind.mp (hall _ hres)).2 a ha
  rw [ecpTlsReadPointAt_front hmem hread hres hq]
  exact (hrest q next a ha hall h).cons hq

theorem gdh2LoopAt_within (hplen : ctx.grp.plen = 32) (hclosed : ctx.grp.Closed)
    (hpriv : ctx.grp.ecpCheckPrivkey ctx.priv = .ok ()) {obuflen : Nat} (left i p : Nat)
    (obuf : List UInt8)
    (hroom : obuf.length + (left + if i = 0 then 1 else 0) * (2 * ctx.grp.plen + 2) ≤
      obuflen) :
    (gdh2LoopAt mem ctx body.length obuflen left i p obuf).All
        (Span.Within body.length) ↔
      ¬ (2 ≤ body.length ∧ ctx.grp.CutAfter body.length left (body.drop p)) := by
  induction left generalizing i p obuf with
  | zero =>
      exact iff_of_true (Traced.all_pure _) fun h => EcpGroup.not_cutAfter_zero h.2
  | succ left ih =>
      have hround : ∀ q, ctx.grp.ecpCheckPubkey q = .ok () →
          ∃ obuf', gdh2Round ctx obuflen i q obuf = .ok obuf' ∧
            obuf'.length + (left + if i + 1 = 0 then 1 else 0) * (2 * ctx.grp.plen + 2) ≤
              obuflen := by
        intro q hq
        have hwritten : written i = 1 + if i = 0 then 1 else 0 := by
          unfold written
          split <;> rfl
        rw [hplen] at hroom
        have hfits : obuf.length + written i * (2 * ctx.grp.plen + 2) ≤ obuflen := by
          rw [hplen, hwritten]
          omega
        obtain ⟨obuf', hok, hlen⟩ := gdh2Round_ok hclosed hpriv hq hfits
        refine ⟨obuf', hok, ?_⟩
        rw [hlen, hplen, hwritten, if_neg (Nat.succ_ne_zero i)]
        omega
      refine read_within hmem hplen (f := fun q => gdh2Round ctx obuflen i q obuf)
        (fun q _ h => gdh2Round_onCurve h)
        (fun q hq => (hround q hq).imp fun _ h => h.1) fun q next obuf' hok => ?_
      obtain ⟨obuf'', hok', hroom⟩ := hround q (gdh2Round_onCurve hok)
      cases hok.symm.trans hok'
      exact ih (i + 1) next obuf' hroom

/-- What the loop returns from reads within the body it has from as many points. -/
theorem gdh2LoopAt_begins {obuflen left i p : Nat} {obuf obuf' : List UInt8}
    (hall : (gdh2LoopAt mem ctx body.length obuflen left i p obuf).All
      (Span.Within body.length))
    (h : (gdh2LoopAt mem ctx body.length obuflen left i p obuf).result = .ok obuf') :
    ctx.grp.Begins left (body.drop p) := by
  induction left generalizing i p obuf with
  | zero => exact EcpGroup.Begins.zero
  | succ left ih =>
      exact read_begins hmem (f := fun q => gdh2Round ctx obuflen i q obuf)
        (k := gdh2LoopAt mem ctx body.length obuflen left (i + 1))
        (fun q _ h => gdh2Round_onCurve h) (fun q next a _ hall h => ih hall h) hall h

omit hmem

/-- What `gdh2_make_val` does after its beginning. -/
def gdh2RestAt (mem : Mem) (index buflen obuflen : Nat) (r : Gdh2Context × Nat × Nat) :
    Reads (Gdh2Context × List UInt8) := do
  let term := if index = 2 then 1 else index
  let obuf ← gdh2LoopAt mem r.1 buflen obuflen (term - r.2.2) r.2.2 r.2.1 []
  let obuf ← .lift (gdh2Extra r.1 index obuflen obuf)
  pure (r.1, obuf)

/-- The last node takes one point before the loop. -/
theorem gdh2MakeValAt_last (buflen obuflen : Nat) :
    gdh2MakeValAt mem ctx ctx.N buflen obuflen =
      (ctx.grp.ecpTlsReadPointAt mem 0 buflen >>= fun r =>
        Traced.lift (ctx.grp.ecpMul ctx.priv r.1) >>= fun write =>
          gdh2RestAt mem ctx.N buflen obuflen ({ ctx with key := write.X }, r.2, 1)) := by
  show gdh2BeginAt mem ctx ctx.N buflen >>= gdh2RestAt mem ctx.N buflen obuflen = _
  unfold gdh2BeginAt
  rw [if_pos rfl, Traced.bind_assoc]
  refine congrArg _ (funext fun r => ?_)
  exact Traced.bind_assoc ..

theorem gdh2MakeValAt_between {index : Nat} (h2 : 2 ≤ index) (hN : index < ctx.N)
    (buflen obuflen : Nat) :
    gdh2MakeValAt mem ctx index buflen obuflen =
      gdh2RestAt mem index buflen obuflen (ctx, 0, 0) := by
  show gdh2BeginAt mem ctx index buflen >>= gdh2RestAt mem index buflen obuflen = _
  unfold gdh2BeginAt
  rw [if_neg (by omega), if_pos ⟨h2, hN⟩]
  rfl

theorem gdh2MakeValAt_outside {index : Nat} (h : ¬ (2 ≤ index ∧ index ≤ ctx.N))
    (h2 : 2 ≤ ctx.N) (buflen obuflen : Nat) :
    gdh2MakeValAt mem ctx index buflen obuflen = .lift (.error .badInputData) := by
  show gdh2BeginAt mem ctx index buflen >>= gdh2RestAt mem index buflen obuflen = _
  unfold gdh2BeginAt
  rw [if_neg (by omega), if_neg (by omega)]
  rfl

theorem gdh2RestAt_all {P : Span → Prop} {index buflen obuflen : Nat}
    {r : Gdh2Context × Nat × Nat} :
    (gdh2RestAt mem index buflen obuflen r).All P ↔
      (gdh2LoopAt mem r.1 buflen obuflen ((if index = 2 then 1 else index) - r.2.2) r.2.2
        r.2.1 []).All P := by
  unfold gdh2RestAt
  refine Traced.all_bind.trans (and_iff_left fun obuf _ => ?_)
  exact Traced.all_bind.mpr ⟨Traced.all_lift _, fun _ _ => Traced.all_pure _⟩

/-- How many points `gdh2_make_val` takes. -/
def pointsTaken (index : Nat) : Nat := if index = 2 then 1 else index

include hmem

theorem gdh2MakeValAt_within (hplen : ctx.grp.plen = 32) (hclosed : ctx.grp.Closed)
    (hpriv : ctx.grp.ecpCheckPrivkey ctx.priv = .ok ()) (h2 : 2 ≤ ctx.N) (index : Nat) :
    (gdh2MakeValAt mem ctx index body.length (gdh2Bufsize * (ctx.N + 1))).All
        (Span.Within body.length) ↔
      ¬ (2 ≤ index ∧ index ≤ ctx.N ∧ 2 ≤ body.length ∧
        ctx.grp.CutAfter body.length (pointsTaken index) body) := by
  by_cases hin : 2 ≤ index ∧ index ≤ ctx.N
  · obtain ⟨hlo, hhi⟩ := hin
    have htaken : 1 ≤ pointsTaken index ∧ pointsTaken index ≤ index := by
      unfold pointsTaken
      split <;> omega
    rw [and_iff_right hlo, and_iff_right hhi]
    rcases Nat.lt_or_eq_of_le hhi with hlt | rfl
    · rw [gdh2MakeValAt_between hlo hlt, gdh2RestAt_all]
      refine gdh2LoopAt_within hmem hplen hclosed hpriv (pointsTaken index - 0) 0 0 [] ?_
      rw [hplen, gdh2Bufsize, List.length_nil, if_pos rfl]
      omega
    · obtain ⟨n, hn⟩ : ∃ n, pointsTaken ctx.N = n + 1 := ⟨pointsTaken ctx.N - 1, by omega⟩
      rw [gdh2MakeValAt_last, hn]
      refine read_within hmem hplen (f := ctx.grp.ecpMul ctx.priv) (i := 0)
        (k := fun next write => gdh2RestAt mem ctx.N body.length (gdh2Bufsize * (ctx.N + 1))
          ({ ctx with key := write.X }, next, 1))
        (fun q a h => EcpGroup.ecpMul_onCurve h)
        (fun q hq => (hclosed.ecpMul hpriv hq).imp fun _ h => h.1) fun q next a _ => ?_
      rw [gdh2RestAt_all]
      have hleft : pointsTaken ctx.N - 1 = n := by omega
      rw [← hleft]
      have hloop := @gdh2LoopAt_within { ctx with key := a.X } mem body hmem hplen hclosed
        hpriv (gdh2Bufsize * (ctx.N + 1)) (pointsTaken ctx.N - 1) 1 next []
      refine hloop ?_
      show 0 + (pointsTaken ctx.N - 1 + 0) * (2 * ctx.grp.plen + 2) ≤ _
      rw [hplen, gdh2Bufsize]
      omega
  · rw [gdh2MakeValAt_outside hin h2]
    exact iff_of_true (Traced.all_lift _) fun h => hin ⟨h.1, h.2.1⟩

theorem gdh2MakeValAt_begins (h2 : 2 ≤ ctx.N) {index obuflen : Nat}
    {r : Gdh2Context × List UInt8}
    (hall : (gdh2MakeValAt mem ctx index body.length obuflen).All (Span.Within body.length))
    (h : (gdh2MakeValAt mem ctx index body.length obuflen).result = .ok r) :
    ctx.grp.Begins (pointsTaken index) body := by
  by_cases hin : 2 ≤ index ∧ index ≤ ctx.N
  · obtain ⟨hlo, hhi⟩ := hin
    rcases Nat.lt_or_eq_of_le hhi with hlt | rfl
    · rw [gdh2MakeValAt_between hlo hlt] at h hall
      obtain ⟨obuf, hloop, -⟩ := Traced.ok_of_bind h
      exact gdh2LoopAt_begins hmem (gdh2RestAt_all.mp hall) hloop
    · have htaken : 1 ≤ pointsTaken ctx.N := by
        unfold pointsTaken
        split <;> omega
      obtain ⟨n, hn⟩ : ∃ n, pointsTaken ctx.N = n + 1 := ⟨pointsTaken ctx.N - 1, by omega⟩
      rw [gdh2MakeValAt_last] at h hall
      rw [hn]
      refine read_begins hmem (f := ctx.grp.ecpMul ctx.priv) (i := 0)
        (k := fun next write => gdh2RestAt mem ctx.N body.length obuflen
          ({ ctx with key := write.X }, next, 1))
        (fun q a h => EcpGroup.ecpMul_onCurve h) (fun q next a _ hall h => ?_) hall h
      obtain ⟨obuf, hloop, -⟩ := Traced.ok_of_bind h
      have hbegins := gdh2LoopAt_begins hmem (gdh2RestAt_all.mp hall) hloop
      have hleft : pointsTaken ctx.N - 1 = n := by omega
      rw [← hleft]
      exact hbegins
  · rw [gdh2MakeValAt_outside hin h2] at h
    cases h

omit hmem

/-- What `gdh2_compute_key` does with its point. -/
def gdh2KeyOf (ctx : Gdh2Context) (obuflen : Nat) (tmp : EcpPoint) :
    Except SbanError (Gdh2Context × List UInt8) :=
  let ctx := { ctx with key := tmp.X }
  if mpiSize ctx.key > obuflen then .error .bufferTooShort
  else do
    let obuf ← mpiWriteBinary ctx.key ctx.grp.keyLen
    .ok (ctx, obuf)

theorem gdh2ComputeKeyAt_eq_read {index : Nat} (h1 : 1 ≤ index) (hN : index < ctx.N)
    (buflen obuflen : Nat) :
    gdh2ComputeKeyAt mem ctx index buflen obuflen =
      (ctx.grp.ecpTlsReadPointAt mem ((2 * ctx.grp.plen + 2) * (ctx.N - index - 1)) buflen >>=
        fun r => Traced.lift (ctx.grp.ecpMul ctx.priv r.1) >>= fun tmp =>
          .lift (gdh2KeyOf ctx obuflen tmp)) := by
  unfold gdh2ComputeKeyAt
  rw [if_neg (by omega)]
  refine congrArg (ctx.grp.ecpTlsReadPointAt mem _ buflen >>= ·) (funext fun r => ?_)
  refine congrArg (Traced.lift (ctx.grp.ecpMul ctx.priv r.1) >>= ·) (funext fun tmp => ?_)
  unfold gdh2KeyOf
  simp only []
  split
  · rfl
  · cases mpiWriteBinary tmp.X ctx.grp.keyLen with
    | error e => rfl
    | ok obuf => rfl

include hmem

theorem gdh2ComputeKeyAt_within (hplen : ctx.grp.plen = 32) (hclosed : ctx.grp.Closed)
    (hpriv : ctx.grp.ecpCheckPrivkey ctx.priv = .ok ()) (index obuflen : Nat) :
    (gdh2ComputeKeyAt mem ctx index body.length obuflen).All (Span.Within body.length) ↔
      ¬ (1 ≤ index ∧ index < ctx.N ∧ 2 ≤ body.length ∧
        ctx.grp.Cut body.length (body.drop (gdh2Bufsize * (ctx.N - index - 1)))) := by
  by_cases hin : 1 ≤ index ∧ index < ctx.N
  · have hbuf : 2 * ctx.grp.plen + 2 = gdh2Bufsize := by
      rw [hplen]
      rfl
    rw [gdh2ComputeKeyAt_eq_read hin.1 hin.2, and_iff_right hin.1, and_iff_right hin.2, hbuf]
    refine (read_within hmem hplen (f := ctx.grp.ecpMul ctx.priv) (n := 0)
      (k := fun _ tmp => .lift (gdh2KeyOf ctx obuflen tmp))
      (fun q a h => EcpGroup.ecpMul_onCurve h)
      (fun q hq => (hclosed.ecpMul hpriv hq).imp fun _ h => h.1) fun q next a _ => ?_).trans ?_
    · exact iff_of_true (Traced.all_lift _) fun h => EcpGroup.not_cutAfter_zero h.2
    · rw [EcpGroup.cutAfter_succ]
      refine not_congr (and_congr Iff.rfl (or_iff_left ?_))
      rintro ⟨p, rest, -, -, hcut⟩
      exact EcpGroup.not_cutAfter_zero hcut
  · unfold gdh2ComputeKeyAt
    rw [if_pos (by omega)]
    exact iff_of_true (Traced.all_lift _) fun h => hin ⟨h.1, h.2.1⟩

theorem gdh2ComputeKeyAt_begins (hplen : ctx.grp.plen = 32) {index obuflen : Nat}
    {r : Gdh2Context × List UInt8}
    (hall : (gdh2ComputeKeyAt mem ctx index body.length obuflen).All
      (Span.Within body.length))
    (h : (gdh2ComputeKeyAt mem ctx index body.length obuflen).result = .ok r) :
    ctx.grp.Begins 1 (body.drop (gdh2Bufsize * (ctx.N - index - 1))) := by
  by_cases hin : 1 ≤ index ∧ index < ctx.N
  · have hbuf : 2 * ctx.grp.plen + 2 = gdh2Bufsize := by
      rw [hplen]
      rfl
    rw [gdh2ComputeKeyAt_eq_read hin.1 hin.2, hbuf] at h hall
    exact read_begins hmem (f := ctx.grp.ecpMul ctx.priv) (n := 0)
      (k := fun _ tmp => .lift (gdh2KeyOf ctx obuflen tmp))
      (fun q a h => EcpGroup.ecpMul_onCurve h)
      (fun q next a _ _ _ => EcpGroup.Begins.zero) hall h
  · unfold gdh2ComputeKeyAt at h
    rw [if_pos (by omega)] at h
    cases h

end Calls

/-! ## The bytes alone -/

section Bytes

variable {ctx : Gdh2Context} {mem : Mem} {body : List UInt8} (hmem : mem.Holds body)

include hmem

/-- One point more, on the bytes alone and in memory. -/
theorem read_eq {α β : Type} {g : EcpGroup} {f : EcpPoint → Except SbanError α}
    {k : Nat → α → Reads β} {l : List UInt8 → α → Except SbanError β} {i : Nat}
    (hrest : ∀ next a, l (body.drop next) a ≠ .error .pastBuffer →
      (k next a).result = l (body.drop next) a)
    (h : (g.ecpTlsReadPoint (body.drop i) body.length >>= fun r => f r.1 >>= l r.2) ≠
      .error .pastBuffer) :
    (g.ecpTlsReadPointAt mem i body.length >>= fun r =>
        Traced.lift (f r.1) >>= k r.2).result =
      (g.ecpTlsReadPoint (body.drop i) body.length >>= fun r => f r.1 >>= l r.2) := by
  obtain ⟨herr, hok⟩ := ecpTlsReadPointAt_eq (g := g) (i := i) hmem
  rw [Traced.result_bind]
  cases hread : g.ecpTlsReadPoint (body.drop i) body.length with
  | error e =>
      rw [hread] at h
      rw [herr e (fun he => h (congrArg Except.error he)) hread]
      rfl
  | ok r =>
      obtain ⟨next, hres, hdrop⟩ := hok r.1 r.2 hread
      rw [hread] at h
      rw [hres]
      show (Traced.lift (f r.1) >>= k next).result = f r.1 >>= l r.2
      change (f r.1 >>= l r.2) ≠ _ at h
      rw [Traced.result_bind, Traced.result_lift]
      cases hf : f r.1 with
      | error e => rfl
      | ok a =>
          rw [hf, ← hdrop] at h
          show (k next a).result = l r.2 a
          rw [← hdrop]
          exact hrest next a h

omit hmem in
theorem gdh2Loop_round (buflen obuflen left i : Nat) (p obuf : List UInt8) :
    gdh2Loop ctx buflen obuflen (left + 1) i p obuf =
      (ctx.grp.ecpTlsReadPoint p buflen >>= fun r =>
        gdh2Round ctx obuflen i r.1 obuf >>=
          gdh2Loop ctx buflen obuflen left (i + 1) r.2) := by
  rw [gdh2Loop]
  cases ctx.grp.ecpTlsReadPoint p buflen with
  | error e => rfl
  | ok r =>
      simp only [gdh2Round, bind, Except.bind]
      cases ctx.grp.ecpMul ctx.priv r.1 with
      | error e => rfl
      | ok w =>
          simp only []
          cases ctx.grp.ecpTlsWritePoint w (obuflen - obuf.length) with
          | error e => rfl
          | ok bytes =>
              simp only []
              split
              · cases ctx.grp.ecpTlsWritePoint r.1 (obuflen - (obuf ++ bytes).length) with
                | error e => rfl
                | ok old => rfl
              · rfl

theorem gdh2LoopAt_eq {obuflen left i p : Nat} {obuf : List UInt8}
    (h : gdh2Loop ctx body.length obuflen left i (body.drop p) obuf ≠ .error .pastBuffer) :
    (gdh2LoopAt mem ctx body.length obuflen left i p obuf).result =
      gdh2Loop ctx body.length obuflen left i (body.drop p) obuf := by
  induction left generalizing i p obuf with
  | zero => rfl
  | succ left ih =>
      rw [gdh2Loop_round] at h ⊢
      exact read_eq hmem (f := fun q => gdh2Round ctx obuflen i q obuf)
        (k := gdh2LoopAt mem ctx body.length obuflen left (i + 1))
        (fun next obuf' h => ih h) h

/-- What `gdh2_make_val` does after its beginning, on the bytes alone. -/
def gdh2Rest (index buflen obuflen : Nat) (r : Gdh2Context × List UInt8 × Nat) :
    Except SbanError (Gdh2Context × List UInt8) := do
  let term := if index = 2 then 1 else index
  let obuf ← gdh2Loop r.1 buflen obuflen (term - r.2.2) r.2.2 r.2.1 []
  let obuf ← gdh2Extra r.1 index obuflen obuf
  .ok (r.1, obuf)

theorem gdh2RestAt_eq {index obuflen : Nat} {c : Gdh2Context} {p i : Nat}
    (h : gdh2Rest index body.length obuflen (c, body.drop p, i) ≠ .error .pastBuffer) :
    (gdh2RestAt mem index body.length obuflen (c, p, i)).result =
      gdh2Rest index body.length obuflen (c, body.drop p, i) := by
  unfold gdh2RestAt gdh2Rest at *
  simp only [] at h ⊢
  rw [Traced.result_bind, gdh2LoopAt_eq hmem fun hc => h (by rw [hc]; rfl)]
  cases gdh2Loop c body.length obuflen ((if index = 2 then 1 else index) - i) i
    (body.drop p) [] with
  | error e => rfl
  | ok obuf =>
      show (Traced.lift (gdh2Extra c index obuflen obuf) >>= _).result =
        (gdh2Extra c index obuflen obuf >>= fun obuf => .ok (c, obuf))
      rw [Traced.result_bind, Traced.result_lift]
      cases gdh2Extra c index obuflen obuf with
      | error e => rfl
      | ok obuf => rfl

/-- Where the bytes alone say what `gdh2_make_val` returns, that is returned whatever
lies behind them. -/
theorem gdh2MakeValAt_eq (h2 : 2 ≤ ctx.N) {index obuflen : Nat}
    (h : gdh2MakeVal ctx index body body.length obuflen ≠ .error .pastBuffer) :
    (gdh2MakeValAt mem ctx index body.length obuflen).result =
      gdh2MakeVal ctx index body body.length obuflen := by
  change gdh2Begin ctx index body body.length >>= gdh2Rest index body.length obuflen ≠ _ at h
  show _ = gdh2Begin ctx index body body.length >>= gdh2Rest index body.length obuflen
  by_cases hin : 2 ≤ index ∧ index ≤ ctx.N
  · rcases Nat.lt_or_eq_of_le hin.2 with hlt | rfl
    · unfold gdh2Begin at h ⊢
      rw [if_neg (by omega), if_pos ⟨hin.1, hlt⟩] at h ⊢
      rw [gdh2MakeValAt_between hin.1 hlt]
      exact gdh2RestAt_eq (p := 0) hmem h
    · have hlast : gdh2Begin ctx ctx.N body body.length >>=
            gdh2Rest ctx.N body.length obuflen =
          (ctx.grp.ecpTlsReadPoint body body.length >>= fun r =>
            ctx.grp.ecpMul ctx.priv r.1 >>= fun write =>
              gdh2Rest ctx.N body.length obuflen ({ ctx with key := write.X }, r.2, 1)) := by
        unfold gdh2Begin
        rw [if_pos rfl]
        cases ctx.grp.ecpTlsReadPoint body body.length with
        | error e => rfl
        | ok r =>
            simp only [bind, Except.bind]
            cases ctx.grp.ecpMul ctx.priv r.1 with
            | error e => rfl
            | ok write => rfl
      rw [hlast] at h ⊢
      rw [gdh2MakeValAt_last]
      exact read_eq hmem (f := ctx.grp.ecpMul ctx.priv) (i := 0)
        (k := fun next write => gdh2RestAt mem ctx.N body.length obuflen
          ({ ctx with key := write.X }, next, 1))
        (l := fun p write => gdh2Rest ctx.N body.length obuflen
          ({ ctx with key := write.X }, p, 1))
        (fun next write h => gdh2RestAt_eq hmem h) h
  · unfold gdh2Begin
    rw [gdh2MakeValAt_outside hin h2, if_neg (by omega), if_neg (by omega)]
    rfl

/-- The same of `gdh2_compute_key`. -/
theorem gdh2ComputeKeyAt_eq {index obuflen : Nat}
    (h : gdh2ComputeKey ctx index body body.length obuflen ≠ .error .pastBuffer) :
    (gdh2ComputeKeyAt mem ctx index body.length obuflen).result =
      gdh2ComputeKey ctx index body body.length obuflen := by
  by_cases hin : 1 ≤ index ∧ index < ctx.N
  · have hbytes : gdh2ComputeKey ctx index body body.length obuflen =
        (ctx.grp.ecpTlsReadPoint
            (body.drop ((2 * ctx.grp.plen + 2) * (ctx.N - index - 1))) body.length >>=
          fun r => ctx.grp.ecpMul ctx.priv r.1 >>= fun tmp => gdh2KeyOf ctx obuflen tmp) := by
      unfold gdh2ComputeKey
      rw [if_neg (by omega)]
      rfl
    rw [hbytes] at h ⊢
    rw [gdh2ComputeKeyAt_eq_read hin.1 hin.2]
    exact read_eq hmem (f := ctx.grp.ecpMul ctx.priv)
      (k := fun _ tmp => .lift (gdh2KeyOf ctx obuflen tmp))
      (l := fun _ tmp => gdh2KeyOf ctx obuflen tmp) (fun next tmp _ => rfl) h
  · unfold gdh2ComputeKeyAt gdh2ComputeKey
    rw [if_pos (by omega), if_pos (by omega)]
    rfl

end Bytes

/-! ## Where the reads stay inside -/

/-- A call reads nothing but the body, and fails where the body has not what it
takes. -/
def Sound {α : Type} (body : List UInt8) (call : Reads α) (has : Prop) : Prop :=
  call.All (Span.Within body.length) ∧ (¬ has → ∃ e, call.result = .error e)

theorem sound_iff {α : Type} {body : List UInt8} {call : Reads α} {has cut : Prop}
    (hall : call.All (Span.Within body.length) ↔ ¬ cut)
    (hhas : ∀ r, call.All (Span.Within body.length) → call.result = .ok r → has) :
    Sound body call has ↔ ¬ cut := by
  refine ⟨fun h => hall.mp h.1, fun h => ⟨hall.mpr h, fun hno => ?_⟩⟩
  cases hres : call.result with
  | error e => exact ⟨e, rfl⟩
  | ok r => exact absurd (hhas r (hall.mpr h) hres) hno

/-- In any memory behind the body, `gdh2_make_val` is sound exactly if the body does
not end within a record after fewer points than it takes, and `gdh2_compute_key`
exactly if the body does not end within the record at its place. -/
theorem gdh2_sound_iff {g : EcpGroup} (hplen : g.plen = 32) (hclosed : g.Closed) {N : Nat}
    (h2 : 2 ≤ N) {draw : Nat → Nat} {ctx : Gdh2Context} (hinit : gdh2Init g N draw = .ok ctx)
    (key : Int) (index : Nat) (body : List UInt8) {mem : Mem} (hmem : mem.Holds body) :
    (Sound body (gdh2MakeValAt mem { ctx with key := key } index body.length
        (gdh2Bufsize * (N + 1))) (g.Begins (pointsTaken index) body) ↔
      ¬ (2 ≤ index ∧ index ≤ N ∧ 2 ≤ body.length ∧
        g.CutAfter body.length (pointsTaken index) body)) ∧
    (Sound body (gdh2ComputeKeyAt mem { ctx with key := key } index body.length gdh2Bufsize)
        (g.Begins 1 (body.drop (gdh2Bufsize * (N - index - 1)))) ↔
      ¬ (1 ≤ index ∧ index < N ∧ 2 ≤ body.length ∧
        g.Cut body.length (body.drop (gdh2Bufsize * (N - index - 1))))) := by
  unfold gdh2Init at hinit
  cases hdraw : g.drawScalar draw 30 0 with
  | error e => rw [hdraw] at hinit; cases hinit
  | ok priv =>
      rw [hdraw] at hinit
      cases hinit
      obtain ⟨h0, hN⟩ := drawScalar_range hdraw
      have hpriv : g.ecpCheckPrivkey priv = .ok () := by
        rw [EcpGroup.ecpCheckPrivkey, if_neg (by omega)]
      exact ⟨sound_iff (gdh2MakeValAt_within hmem hplen hclosed
          hpriv h2 index) fun r hall h => gdh2MakeValAt_begins hmem h2 hall h,
        sound_iff (gdh2ComputeKeyAt_within hmem hplen hclosed
          hpriv index gdh2Bufsize) fun r hall h => gdh2ComputeKeyAt_begins hmem hplen hall h⟩

theorem Mem.holds_getD (body : List UInt8) : Mem.Holds (fun i => body.getD i 0) body :=
  fun i h => by
    show body.getD i 0 = body[i]
    rw [List.getD_eq_getElem?_getD, List.getElem?_eq_getElem h, Option.getD_some]

/-- The small group with a multiplication that takes every point of its curve: what
is no multiple of the base point stays as it is. -/
def sevenClosed : EcpGroup :=
  sevenCurve fun m p =>
    if p ∈ (List.range 7).map (fun k => addTimes k sevenPoints.G) then addTimes m.toNat p
    else p

theorem sevenClosed_closed : sevenClosed.Closed := by
  intro m p hm hp
  have hmul : ∀ k : Fin 7, k ≠ 0 → ∀ j : Fin 7,
      sevenClosed.ecpCheckPubkey (addTimes j sevenPoints.G) = .ok () →
      sevenClosed.ecpCheckPubkey (addTimes k (addTimes j sevenPoints.G)) = .ok () := by
    decide +kernel
  show sevenClosed.ecpCheckPubkey (if _ then _ else _) = .ok ()
  split
  · next hmem =>
      obtain ⟨j, hj, rfl⟩ := List.mem_map.mp hmem
      unfold EcpGroup.ecpCheckPrivkey at hm
      split at hm
      · cases hm
      · next hrange =>
          have hN : m < 7 := by
            have : ¬ m ≥ (sevenClosed.N : Int) := fun h => hrange (.inr h)
            exact Int.not_le.mp this
          have h0 : ¬ m < 1 := fun h => hrange (.inl h)
          exact hmul ⟨m.toNat, by omega⟩ (fun h => by
            have := congrArg Fin.val h
            simp only [Fin.val_zero] at this
            omega) ⟨j, List.mem_range.mp hj⟩ hp
  · exact hp

/-- Two records are enough for the first of three nodes. -/
theorem gdh2_sound_of_records :
    Sound (sevenClosed.record sevenClosed.G ++ sevenClosed.record sevenClosed.G)
      (gdh2ComputeKeyAt (fun i => (sevenClosed.record sevenClosed.G ++
          sevenClosed.record sevenClosed.G).getD i 0) ⟨sevenClosed, 1, 0, 3⟩ 1
        (sevenClosed.record sevenClosed.G ++ sevenClosed.record sevenClosed.G).length
        gdh2Bufsize)
      (sevenClosed.Begins 1 ((sevenClosed.record sevenClosed.G ++
        sevenClosed.record sevenClosed.G).drop (gdh2Bufsize * (3 - 1 - 1)))) :=
  (@gdh2_sound_iff sevenClosed (by decide) sevenClosed_closed 3 (by decide) (fun _ => 1)
    ⟨sevenClosed, 1, 0, 3⟩ rfl 0 1 _ _ (Mem.holds_getD _)).2.mpr (by decide +kernel)

/-- One record is too short for the last of three nodes, and two bytes are for the
first one. -/
theorem gdh2_reads_past :
    (¬ ∀ (body : List UInt8) (mem : Mem), mem.Holds body →
      Sound body (gdh2MakeValAt mem ⟨sevenPoints, 1, 0, 3⟩ 3 body.length (gdh2Bufsize * 4))
        (sevenPoints.Begins (pointsTaken 3) body)) ∧
    ¬ ∀ (body : List UInt8) (mem : Mem), mem.Holds body →
      Sound body (gdh2ComputeKeyAt mem ⟨sevenPoints, 1, 0, 3⟩ 1 body.length gdh2Bufsize)
        (sevenPoints.Begins 1 (body.drop (gdh2Bufsize * (3 - 1 - 1)))) := by
  constructor
  · intro h
    have hall := (h (sevenPoints.record sevenPoints.G) _ (Mem.holds_getD _)).1
    revert hall
    decide +kernel
  · intro h
    have hall := (h [0, 0] _ (Mem.holds_getD _)).1
    revert hall
    decide +kernel

end LibSmoke
