import LibSmoke.Knx.MkaKeyExchange

/-!
# The slots of the key buffer

`MKAKeyExchange` puts the points of a step into slots of one size, and
`mka_acc_broadval` reads records one after the other, each as long as it says. The
record of the zero point is shorter than a slot. With it in a slot that is not the
last, the next record is read from within the same slot, which is its sender's, and
all later ones from another place than their senders'.
-/

namespace LibSmoke

variable {g : EcpGroup}

/-- Where `mka_acc_broadval` reads its records: `i` are still to be read, the next
one at `o`, where `p` is what the buffer has from there. -/
def recordsAt (g : EcpGroup) (buflen : Nat) : Nat → Nat → List UInt8 → List Nat
  | 0, _, _ => []
  | i + 1, o, p => o ::
      match g.ecpTlsReadPoint p buflen with
      | .error _ => []
      | .ok (_, rest) => recordsAt g buflen i (o + (p.length - rest.length)) rest

/-- The sum of the points at some places of the buffer. -/
def sumAt (g : EcpGroup) (buf : List UInt8) :
    List Nat → EcpPoint → Except SbanError EcpPoint
  | [], sum => .ok sum
  | o :: os, sum => do
      let (tmp1, _) ← g.ecpTlsReadPoint (buf.drop o) buf.length
      let sum ← g.ecpAdd sum tmp1
      sumAt g buf os sum

/-- The slots of a session of `n` nodes. -/
def slots (n : Nat) : List Nat := List.range' 0 (n - 1) mkaBufsize

/-- The points that are summed up are those of the slots. -/
def OwnSlots (ctx : MkaContext) (buf : List UInt8) : Prop :=
  recordsAt ctx.grp buf.length (ctx.n - 1) 0 buf = slots ctx.n ∧
  sumLoop ctx.grp buf.length (ctx.n - 1) buf ecpZero =
    sumAt ctx.grp buf (slots ctx.n) ecpZero

theorem ecpTlsReadPoint_rest {p rest : List UInt8} {buflen : Nat} {q : EcpPoint}
    (h : g.ecpTlsReadPoint p buflen = .ok (q, rest)) :
    rest = p.drop (p.length - rest.length) := by
  rcases EcpGroup.ecpTlsReadPoint_ok h with ⟨-, rfl⟩ | ⟨-, rfl⟩
  · have hlen : (1 :: 0x00 :: rest : List UInt8).length - rest.length = 2 := by
      simp only [List.length_cons]
      omega
    rw [hlen]
    rfl
  · rw [List.length_append, Nat.add_sub_cancel, List.drop_left]

/-- The sum is that of the points at the places the records are read from. -/
theorem sumLoop_eq_sumAt {buf p : List UInt8} {i o : Nat} (hp : buf.drop o = p)
    (sum : EcpPoint) :
    sumLoop g buf.length i p sum = sumAt g buf (recordsAt g buf.length i o p) sum := by
  induction i generalizing o p sum with
  | zero => rfl
  | succ i ih =>
      rw [sumLoop, recordsAt, sumAt, hp]
      cases hread : g.ecpTlsReadPoint p buf.length with
      | error e => rfl
      | ok r =>
          obtain ⟨q, rest⟩ := r
          have hrest := ecpTlsReadPoint_rest hread
          have hdrop : buf.drop (o + (p.length - rest.length)) = rest := by
            rw [← List.drop_drop, hp, ← hrest]
          simp only [bind, Except.bind]
          cases g.ecpAdd sum q with
          | error e => rfl
          | ok s => exact ih hdrop s

/-- A slot that begins with the record of a point does not begin with that of zero. -/
theorem record_not_zero (hplen : g.plen = 32) (q : EcpPoint) :
    ¬ [1, 0x00] <+: g.record q := by
  rintro ⟨bs, h⟩
  rw [EcpGroup.record, hplen] at h
  exact absurd (List.cons.inj h).1 (by decide)

/-- What stands in the slots is read from the slots as long as no slot but the last
begins with the zero point. -/
theorem recordsAt_slots (hplen : g.plen = 32) {vs : List (List UInt8)}
    (hsize : ∀ v ∈ vs, v.length = mkaBufsize) {buflen : Nat} (o : Nat) {sum s : EcpPoint}
    (h : sumLoop g buflen vs.length vs.flatten sum = .ok s) :
    recordsAt g buflen vs.length o vs.flatten = List.range' o vs.length mkaBufsize ↔
      ∀ v ∈ vs.dropLast, ¬ [1, 0x00] <+: v := by
  induction vs generalizing o sum with
  | nil => exact iff_of_true rfl fun v hv => (by cases hv)
  | cons v vs ih =>
      have hv : v.length = mkaBufsize := hsize v List.mem_cons_self
      have hrest := fun w hw => hsize w (List.mem_cons_of_mem v hw)
      rw [List.length_cons, List.flatten_cons] at h ⊢
      rw [sumLoop] at h
      rw [recordsAt, List.range'_succ, List.cons_inj_right]
      cases hread : g.ecpTlsReadPoint (v ++ vs.flatten) buflen with
      | error e => rw [hread] at h; cases h
      | ok r =>
          obtain ⟨q, rest⟩ := r
          rw [hread] at h
          simp only [bind, Except.bind] at h ⊢
          cases hadd : g.ecpAdd sum q with
          | error e => rw [hadd] at h; cases h
          | ok sum' =>
              rw [hadd] at h
              cases vs with
              | nil => exact iff_of_true rfl fun v hv => (by cases hv)
              | cons w ws =>
                  rw [List.dropLast_cons_cons, List.forall_mem_cons]
                  rcases EcpGroup.ecpTlsReadPoint_ok hread with ⟨-, hbuf⟩ | ⟨-, hbuf⟩
                  · have hfront : [1, 0x00] <+: v ++ (w :: ws).flatten :=
                      ⟨rest, hbuf.symm⟩
                    have hzero : [1, 0x00] <+: v := by
                      refine List.prefix_of_prefix_length_le hfront
                        (List.prefix_append ..) ?_
                      rw [hv]
                      decide
                    refine iff_of_false (fun hc => ?_) fun hc => hc.1 hzero
                    have hlen : (v ++ (w :: ws).flatten).length - rest.length = 2 := by
                      rw [hbuf]
                      simp only [List.length_cons]
                      omega
                    rw [List.length_cons, recordsAt, List.range'_succ, hlen] at hc
                    have := (List.cons.inj hc).1
                    rw [mkaBufsize] at this
                    omega
                  · have hrec : (g.record q).length = mkaBufsize := by
                      rw [EcpGroup.record_length, hplen]
                      rfl
                    obtain ⟨rfl, rfl⟩ := List.append_inj hbuf (hv.trans hrec.symm)
                    rw [List.length_append, Nat.add_sub_cancel, hrec,
                      and_iff_right (record_not_zero hplen q)]
                    exact ih hrest (o + mkaBufsize) h

/-- Where the accumulation succeeds it is of the points in the slots exactly if no slot
but the last begins with the record of the zero point. -/
theorem ownSlots_iff {ctx ctx' : MkaContext} (hplen : ctx.grp.plen = 32)
    {vs : List (List UInt8)} (hcount : vs.length = ctx.n - 1)
    (hsize : ∀ v ∈ vs, v.length = mkaBufsize)
    (h : mkaAccBroadval ctx vs.flatten = .ok ctx') :
    OwnSlots ctx vs.flatten ↔ ∀ v ∈ vs.dropLast, ¬ [1, 0x00] <+: v := by
  have hsum : ∃ s, sumLoop ctx.grp vs.flatten.length vs.length vs.flatten ecpZero =
      .ok s := by
    unfold mkaAccBroadval at h
    split at h
    · cases h
    · rw [← hcount] at h
      cases hs : sumLoop ctx.grp vs.flatten.length vs.length vs.flatten ecpZero with
      | error e => rw [hs] at h; cases h
      | ok s => exact ⟨s, rfl⟩
  obtain ⟨s, hs⟩ := hsum
  have hwalk := recordsAt_slots hplen hsize 0 hs
  rw [hcount] at hwalk
  rw [← hwalk]
  refine ⟨fun hown => hown.1, fun hat => ⟨hat, ?_⟩⟩
  refine (sumLoop_eq_sumAt List.drop_zero ecpZero).trans ?_
  rw [hat]
  rfl

theorem exists_ok {ε α : Type} {x : Except ε α} (h : x.toOption.isSome) :
    ∃ a, x = .ok a := by
  cases x with
  | error e => cases h
  | ok a => exact ⟨a, rfl⟩

/-- Two finite points in their slots. -/
theorem ownSlots_of_points :
    OwnSlots ⟨sevenPoints, 1, sevenPoints.G, 0, 3, 0⟩
      [sevenPoints.record sevenPoints.G, sevenPoints.record sevenPoints.G].flatten := by
  have hok : (mkaAccBroadval ⟨sevenPoints, 1, sevenPoints.G, 0, 3, 0⟩
      [sevenPoints.record sevenPoints.G,
        sevenPoints.record sevenPoints.G].flatten).toOption.isSome := by
    decide +kernel
  obtain ⟨ctx', h⟩ := exists_ok hok
  have hsize : ∀ v ∈ [sevenPoints.record sevenPoints.G, sevenPoints.record sevenPoints.G],
      v.length = mkaBufsize := by decide
  exact (ownSlots_iff (show sevenPoints.plen = 32 by decide) rfl hsize h).mpr (by decide)

/-- Two zero points, and what fills the slot. -/
def twoZeros : List UInt8 := [1, 0, 1, 0] ++ List.replicate 62 0

/-- With them in the first slot the second one is not read. -/
theorem slot_not_read :
    ¬ ∀ (ctx ctx' : MkaContext) (vs : List (List UInt8)), ctx.grp = sevenPoints →
      2 ≤ ctx.n → vs.length = ctx.n - 1 → (∀ v ∈ vs, v.length = mkaBufsize) →
      mkaAccBroadval ctx vs.flatten = .ok ctx' →
      sumLoop ctx.grp vs.flatten.length (ctx.n - 1) vs.flatten ecpZero =
        sumAt ctx.grp vs.flatten (slots ctx.n) ecpZero := by
  intro h
  have hok : (mkaAccBroadval ⟨sevenPoints, 1, sevenPoints.G, 0, 3, 1⟩
      [twoZeros, sevenPoints.record sevenPoints.G].flatten).toOption.isSome := by
    decide +kernel
  obtain ⟨ctx', hacc⟩ := exists_ok hok
  have hsize : ∀ v ∈ [twoZeros, sevenPoints.record sevenPoints.G],
      v.length = mkaBufsize := by decide
  have hsum := h ⟨sevenPoints, 1, sevenPoints.G, 0, 3, 1⟩ ctx' _ rfl (by decide) rfl hsize
    hacc
  have hne : sumLoop sevenPoints
      [twoZeros, sevenPoints.record sevenPoints.G].flatten.length 2
      [twoZeros, sevenPoints.record sevenPoints.G].flatten ecpZero ≠
      sumAt sevenPoints [twoZeros, sevenPoints.record sevenPoints.G].flatten (slots 3)
        ecpZero := by
    decide +kernel
  exact hne hsum

end LibSmoke
