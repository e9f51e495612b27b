import LibSmoke.Knx.Overlong

/-!
# Lost telegrams

When some telegrams of a source never reach its ring, what the lane holds no
longer starts at a packet boundary, and nothing in the stream tells it. A packet
that is lost whole leaves no trace. The first packet of which a part arrives
decides: with its first telegram the lane has a header and waits for the bytes
that header announces, taking them from the packets behind; without it the lane
takes the next three bytes it gets for a header.

So the packets behind survive only if there are none, and no packet that was
never sent comes out only if the lane never gets as far as it waits for.
`Contained` says this of the lengths and of which telegrams were kept, and
`damageConfined_iff` that it is exact: as soon as it fails, there are contents of
those lengths that show the damage.
-/

namespace LibSmoke

namespace PktWrapper

/-- A packet of a source, and which of its telegrams reach the ring. -/
structure Fate where
  pkt : Outgoing
  keep : Nat → Bool

namespace Fate

/-- The telegrams that reach the ring. -/
def survivors (src : UInt16) (f : Fate) : List Telegram :=
  ((List.range (pieces f.pkt)).filter f.keep).map (telegramAt src f.pkt)

/-- No telegram was discarded. -/
def whole (f : Fate) : Bool := (List.range (pieces f.pkt)).all f.keep

/-- Every telegram was discarded. -/
def lost (f : Fate) : Bool := (List.range (pieces f.pkt)).all fun i => !f.keep i

/-- The body sizes of the telegrams that reach the ring. -/
def sizes (f : Fate) : List Nat :=
  ((List.range (pieces f.pkt)).filter f.keep).map fun i =>
    min tgPayload (f.pkt.body.length + 3 - i * tgPayload)

end Fate

open Fate

/-- How full a ring gets that starts with `n` bytes and meets bodies of these
sizes, refusing what does not fit. -/
def fill : Nat → List Nat → Nat
  | n, [] => n
  | n, c :: cs => fill (if n + c ≤ ringCapacity then n + c else n) cs

/-- The lane never gets the bytes it waits for once `f` arrived in part: the
rest of that packet or, when its first telegram was lost, a header. -/
def Waits (f : Fate) (fs : List Fate) : Prop :=
  if f.keep 0 then
    fill 0 (f.sizes ++ fs.flatMap Fate.sizes) < f.pkt.body.length + 3
  else (f.sizes ++ fs.flatMap Fate.sizes).sum < 3

/-- What of a faulty stream does no harm: behind the first packet that arrives
in part there is no packet that arrives whole, and the lane waits forever. -/
def Contained : List Fate → Prop
  | [] => True
  | f :: fs =>
      if f.whole ∨ f.lost then Contained fs
      else (∀ g ∈ fs, g.whole = false) ∧ Waits f fs

/-- What one expects of a receiver that discarded the rest: the packets that arrived
whole come out, in order, and nothing comes out that was not sent. -/
def DamageConfined (id src : UInt16) (fates : List Fate) : Prop :=
  ∀ (w : PktWrapper) (ts : List Telegram), w.buffers.bytes src = [] →
    Keyed.only lanes src (kept id w ts) = fates.flatMap (survivors src) →
    ∃ out, (recvAll id w ts).inQ.filter (fun p => p.src = src) =
        w.inQ.filter (fun p => p.src = src) ++ out ∧
      ((fates.filter whole).map (fun f => f.pkt.pkt src)).Sublist out ∧
      ∀ o ∈ out, ∃ f ∈ fates, o = f.pkt.pkt src

/-- Packets of the same lengths with the same telegrams kept. -/
def SameShape (f g : Fate) : Prop :=
  f.pkt.body.length = g.pkt.body.length ∧ f.keep = g.keep

/-! ## Sizes -/

section Sizes

variable {f g : Fate}

theorem pieces_congr {p q : Outgoing} (h : p.body.length = q.body.length) :
    pieces p = pieces q := by
  rw [pieces, pieces, rawOf_length, rawOf_length, h]

theorem SameShape.whole (h : SameShape f g) : f.whole = g.whole := by
  rw [Fate.whole, Fate.whole, pieces_congr h.1, h.2]

theorem SameShape.lost (h : SameShape f g) : f.lost = g.lost := by
  rw [Fate.lost, Fate.lost, pieces_congr h.1, h.2]

theorem SameShape.sizes (h : SameShape f g) : f.sizes = g.sizes := by
  rw [Fate.sizes, Fate.sizes, pieces_congr h.1, h.1, h.2]

theorem SameShape.waits {fs gs : List Fate} (h : SameShape f g)
    (hs : gs.flatMap Fate.sizes = fs.flatMap Fate.sizes) :
    Waits f fs ↔ Waits g gs := by
  rw [Waits, Waits, hs, h.1, h.2, h.sizes]

/-- The shapes of two streams agree. -/
abbrev Shapes : List Fate → List Fate → Prop := List.Forall₂ SameShape

theorem Shapes.sizes {fs gs : List Fate} (h : Shapes fs gs) :
    gs.flatMap Fate.sizes = fs.flatMap Fate.sizes := by
  induction h with
  | nil => rfl
  | cons hfg _ ih => rw [List.flatMap_cons, List.flatMap_cons, ih, hfg.sizes]

theorem Shapes.fits {fs gs : List Fate} (h : Shapes fs gs)
    (hfit : ∀ f ∈ fs, f.pkt.body.length ≤ maxBody) :
    ∀ g ∈ gs, g.pkt.body.length ≤ maxBody := by
  induction h with
  | nil => exact hfit
  | cons hfg _ ih =>
      rw [List.forall_mem_cons] at hfit ⊢
      exact ⟨hfg.1 ▸ hfit.1, ih hfit.2⟩

theorem Shapes.contained {fs gs : List Fate} (h : Shapes fs gs) :
    Contained fs ↔ Contained gs := by
  induction h with
  | nil => exact Iff.rfl
  | cons hfg hrest ih =>
      have hwhole : ∀ {fs gs : List Fate}, Shapes fs gs →
          ((∀ x ∈ fs, x.whole = false) ↔ ∀ y ∈ gs, y.whole = false) := by
        intro fs gs h
        induction h with
        | nil => exact Iff.rfl
        | cons hxy _ ih =>
            rw [List.forall_mem_cons, List.forall_mem_cons, ih, hxy.whole]
      rw [Contained, Contained, hfg.whole, hfg.lost, ih, hwhole hrest,
        hfg.waits (Shapes.sizes hrest)]

theorem bodysize_telegramAt (src : UInt16) (p : Outgoing) (i : Nat) :
    (telegramAt src p i).bodysize =
      min tgPayload (p.body.length + 3 - i * tgPayload) := by
  rw [← Telegram.body_length, body_telegramAt, List.length_take,
    List.length_drop, rawOf_length]

theorem bodysize_survivors (src : UInt16) (f : Fate) :
    (f.survivors src).map Telegram.bodysize = f.sizes := by
  rw [survivors, Fate.sizes, List.map_map]
  exact List.map_congr_left fun i _ => bodysize_telegramAt src f.pkt i

theorem bodysize_flatMap_survivors (src : UInt16) (fs : List Fate) :
    (fs.flatMap (survivors src)).map Telegram.bodysize =
      fs.flatMap Fate.sizes := by
  induction fs with
  | nil => rfl
  | cons f fs ih =>
      rw [List.flatMap_cons, List.map_append, bodysize_survivors, ih,
        List.flatMap_cons]

theorem le_fill (n : Nat) (cs : List Nat) : n ≤ fill n cs := by
  induction cs generalizing n with
  | nil => exact Nat.le_refl n
  | cons c cs ih =>
      rw [fill]
      refine Nat.le_trans ?_ (ih _)
      split <;> omega

theorem survivors_of_whole (src : UInt16) (h : f.whole = true) :
    f.survivors src = telegramsOf src f.pkt := by
  rw [survivors, telegramsOf_eq, List.filter_eq_self.mpr]
  exact List.all_eq_true.mp h

theorem survivors_of_lost (src : UInt16) (h : f.lost = true) :
    f.survivors src = [] := by
  rw [survivors, List.filter_eq_nil_iff.mpr, List.map_nil]
  intro i hi hk
  have := List.all_eq_true.mp h i hi
  rw [hk] at this
  cases this

end Sizes

/-! ## A lane that waits -/

/-- A lane whose header announces more than it will get puts out nothing. -/
theorem laneRun_waiting {s : List UInt8} {ts : List Telegram}
    (hhdr : 3 ≤ s.length)
    (h : fill s.length (ts.map Telegram.bodysize) < pktFrames.size s) :
    (Keyed.laneRun lanes s ts).2 = [] := by
  induction ts generalizing s with
  | nil => rfl
  | cons t ts ih =>
      rw [Keyed.laneRun, show lanes.lane s t = laneStep s t from rfl]
      by_cases hfits : s.length + t.bodysize ≤ ringCapacity
      · have hlen : (s ++ t.body).length = s.length + t.bodysize := by
          rw [List.length_append, t.body_length]
        have hsize := pktFrames.size_append t.body hhdr
        have hfill : fill s.length ((t :: ts).map Telegram.bodysize) =
            fill (s ++ t.body).length (ts.map Telegram.bodysize) := by
          rw [List.map_cons, fill, if_pos hfits, hlen]
        rw [hfill] at h
        have hle := le_fill (s ++ t.body).length (ts.map Telegram.bodysize)
        rw [laneStep_fits hfits,
          Framing.decode_of_not_complete fun hc => by
            have := hc.2
            omega]
        simp only []
        rw [ih (by omega) (by rw [hsize]; exact h)]
        rfl
      · have hfill : fill s.length ((t :: ts).map Telegram.bodysize) =
            fill s.length (ts.map Telegram.bodysize) := by
          rw [List.map_cons, fill, if_neg hfits]
        rw [hfill] at h
        have hle := le_fill s.length (ts.map Telegram.bodysize)
        rw [laneStep, if_neg hfits,
          Framing.decode_of_not_complete fun hc => by
            have := hc.2
            omega]
        simp only []
        rw [ih hhdr h]
        rfl

/-- A lane that gets less than a header puts out nothing. -/
theorem laneRun_headerless {s : List UInt8} {ts : List Telegram}
    (h : s.length + (ts.map Telegram.bodysize).sum < 3) :
    (Keyed.laneRun lanes s ts).2 = [] := by
  induction ts generalizing s with
  | nil => rfl
  | cons t ts ih =>
      rw [List.map_cons, List.sum_cons] at h
      have hlen : (s ++ t.body).length = s.length + t.bodysize := by
        rw [List.length_append, t.body_length]
      rw [Keyed.laneRun, show lanes.lane s t = laneStep s t from rfl,
        laneStep_fits (by rw [ringCapacity]; omega),
        Framing.decode_of_not_complete fun hc => by
          have : 3 ≤ (s ++ t.body).length := hc.1
          omega]
      simp only []
      rw [ih (by omega)]
      rfl

/-! ## Contained faults -/

section Contained

variable {src : UInt16} {f : Fate} {fs : List Fate}

theorem one_lt_pieces (hw : f.whole = false) (hl : f.lost = false) :
    1 < pieces f.pkt := by
  have hpos : 0 < pieces f.pkt := by
    rw [lt_pieces, rawOf_length]
    omega
  by_contra hcon
  have hone : pieces f.pkt = 1 := by omega
  rw [Fate.whole, hone] at hw
  rw [Fate.lost, hone] at hl
  cases hk : f.keep 0 <;> simp [hk] at hw hl

theorem survivors_cons (src : UInt16) (hk : f.keep 0 = true) :
    ∃ ts, f.survivors src = telegramAt src f.pkt 0 :: ts := by
  have hpos : 0 < pieces f.pkt := by
    rw [lt_pieces, rawOf_length]
    omega
  obtain ⟨n, hn⟩ : ∃ n, pieces f.pkt = n + 1 := ⟨pieces f.pkt - 1, by omega⟩
  rw [survivors, hn, List.range_succ_eq_map, List.filter_cons_of_pos hk,
    List.map_cons]
  exact ⟨_, rfl⟩

/-- From the first packet that arrived in part on, nothing comes out. -/
theorem laneRun_cut (hw : f.whole = false) (hl : f.lost = false)
    (h : Waits f fs) :
    (Keyed.laneRun lanes [] ((f :: fs).flatMap (survivors src))).2 = [] := by
  rw [Waits, ← List.flatMap_cons, ← bodysize_flatMap_survivors src] at h
  split at h
  · next hk =>
      obtain ⟨hstep, hlen, hsize, -⟩ := laneStep_first src (one_lt_pieces hw hl)
      obtain ⟨ts, hts⟩ := survivors_cons src hk
      have hbody : (telegramAt src f.pkt 0).bodysize = tgPayload := by
        rw [← Telegram.body_length, body_telegramAt, Nat.zero_mul,
          List.drop_zero, hlen]
      have hcap : 0 + tgPayload ≤ ringCapacity := by decide
      rw [List.flatMap_cons, hts, List.cons_append] at h ⊢
      rw [List.map_cons, fill, hbody, if_pos hcap, Nat.zero_add] at h
      rw [Keyed.laneRun, show lanes.lane [] _ = laneStep [] _ from rfl, hstep]
      simp only []
      rw [laneRun_waiting (by rw [hlen, tgPayload]; omega)
        (by rw [hlen, hsize]; exact h)]
      rfl
  · exact laneRun_headerless (by rwa [List.length_nil, Nat.zero_add])

/-- A contained fault damages its own packet alone: what comes out is what
arrived whole. -/
theorem laneRun_contained {fates : List Fate}
    (hfit : ∀ f ∈ fates, f.pkt.body.length ≤ maxBody) (h : Contained fates) :
    (Keyed.laneRun lanes [] (fates.flatMap (survivors src))).2 =
      (fates.filter whole).map fun f => f.pkt.pkt src := by
  induction fates with
  | nil => rfl
  | cons f fs ih =>
      have hrest := ih fun g hg => hfit g (List.mem_cons_of_mem _ hg)
      rw [Contained] at h
      cases hw : f.whole with
      | true =>
          have hfits := hfit f List.mem_cons_self
          rw [maxBody, ringCapacity] at hfits
          rw [if_pos (Or.inl hw)] at h
          rw [List.flatMap_cons, survivors_of_whole src hw,
            Keyed.laneRun_append, laneRun_packet src (by
              rw [ringCapacity]; omega), List.filter_cons_of_pos hw]
          simp only []
          rw [hrest h]
          rfl
      | false =>
          rw [List.filter_cons_of_neg (by rw [hw]; simp)]
          cases hl : f.lost with
          | true =>
              rw [if_pos (Or.inr hl)] at h
              rw [List.flatMap_cons, survivors_of_lost src hl, List.nil_append,
                hrest h]
          | false =>
              rw [if_neg (by rw [hw, hl]; simp)] at h
              rw [laneRun_cut hw hl h.2, List.filter_eq_nil_iff.mpr]
              · rfl
              · intro g hg
                rw [h.1 g hg]
                simp

end Contained

/-! ## What the others bring about

When a fault is not contained, there are contents that show it. All packets but
the damaged one are zeros. If that one kept its header, it is made of ones, and
the packet the lane makes up has a zero in it; if it lost its header, its first
byte to arrive is a one, and the packet made up has that for a command, which
nobody sent. -/

/-- A packet that none of the contents below sends. -/
def Odd (o : Pkt) : Prop :=
  o.cmd = 1 ∧ ¬ (12 ≤ o.data.length ∧ ∀ b ∈ o.data, b = 1)

def Plain (p : Outgoing) : Prop :=
  p.cmd = 0 ∨ (12 ≤ p.body.length ∧ ∀ b ∈ p.body, b = 1)

theorem not_odd_of_plain {src : UInt16} {p : Outgoing} (h : Plain p) :
    ¬ Odd (p.pkt src) := by
  rintro ⟨hcmd, hdata⟩
  rcases h with hzero | hones
  · rw [Outgoing.pkt, hzero] at hcmd
    cases hcmd
  · exact hdata hones

section Headers

theorem bytes16_toBigEndian16 (x : UInt16) :
    bytes16 (toBigEndian16 x) = [(x >>> 8).toUInt8, x.toUInt8] := by
  have hlow : (toBigEndian16 x).toUInt8 = (x >>> 8).toUInt8 := by
    apply UInt8.eq_of_toBitVec_eq
    simp only [toBigEndian16, UInt16.toBitVec_toUInt8, UInt16.toBitVec_or,
      UInt16.toBitVec_shiftLeft, UInt16.toBitVec_shiftRight]
    apply BitVec.eq_of_getLsbD_eq
    intro i hi
    simp
  have hhigh : (toBigEndian16 x >>> 8).toUInt8 = x.toUInt8 := by
    apply UInt8.eq_of_toBitVec_eq
    simp only [toBigEndian16, UInt16.toBitVec_toUInt8, UInt16.toBitVec_or,
      UInt16.toBitVec_shiftLeft, UInt16.toBitVec_shiftRight]
    apply BitVec.eq_of_getLsbD_eq
    intro i hi
    simp
    grind
  rw [bytes16, hlow, hhigh]

/-- The first byte of the length of a packet that fits. -/
theorem highByte_le {p : Outgoing} (h : p.body.length ≤ maxBody) :
    (p.len >>> 8).toUInt8.toNat ≤ 3 ∧
      (p.len >>> 8).toUInt8.toNat * 256 ≤ p.body.length := by
  have hlen : p.len.toNat = p.body.length :=
    UInt16.toNat_ofNat_of_lt' p.body_lt
  rw [maxBody, ringCapacity] at h
  rw [UInt16.toNat_toUInt8, UInt16.toNat_shiftRight, hlen]
  show (p.body.length >>> 8) % 256 ≤ 3 ∧ (p.body.length >>> 8) % 256 * 256 ≤ _
  rw [Nat.shiftRight_eq_div_pow]
  omega

theorem size_zero_high (a h : UInt8) (r : List UInt8) :
    pktFrames.size (a :: 0 :: h :: r) = 3 + h.toNat := by
  have hword : fromBigEndian16 (word16 0 h) = h.toUInt16 := by
    apply UInt16.eq_of_toBitVec_eq
    simp only [fromBigEndian16, toBigEndian16, word16, UInt16.toBitVec_or,
      UInt16.toBitVec_shiftLeft, UInt16.toBitVec_shiftRight,
      UInt8.toBitVec_toUInt16]
    apply BitVec.eq_of_getLsbD_eq
    intro i hi
    simp
    grind
  show 3 + (lengthAt (a :: 0 :: h :: r)).toNat = _
  rw [lengthAt]
  simp only [List.getD_cons_succ, List.getD_cons_zero]
  rw [hword, UInt8.toNat_toUInt16]

end Headers

/-! ### A header made up -/

/-- A body that starts with a zero, and whose second byte, read as a length, is
no more than what follows it. -/
def Bland : List UInt8 → Prop
  | [] => False
  | [b] => b = 0
  | b :: h :: r => b = 0 ∧ h.toNat ≤ 3 ∧ h.toNat ≤ r.length

theorem Bland.cases : ∀ {bs : List UInt8}, Bland bs →
    bs = [0] ∨ ∃ h r, bs = 0 :: h :: r ∧ h.toNat ≤ 3 ∧ h.toNat ≤ r.length
  | [_], h => Or.inl (congrArg (fun b => [b]) h)
  | _ :: h :: r, ⟨hz, h3, hr⟩ =>
      Or.inr ⟨h, r, congrArg (fun b => b :: h :: r) hz, h3, hr⟩

/-- Bytes that read as a short packet with command one. -/
theorem laneStep_madeUp {s r : List UInt8} {t : Telegram} {h : UInt8}
    (hs : s ++ t.body = 1 :: 0 :: h :: r) (h3 : h.toNat ≤ 3)
    (hr : h.toNat ≤ r.length) (hfits : s.length + t.bodysize ≤ ringCapacity) :
    ∃ o ∈ (laneStep s t).2, Odd o := by
  have hsize := size_zero_high 1 h r
  have hc : Framing.Complete pktFrames (1 :: 0 :: h :: r) := by
    refine ⟨?_, ?_⟩
    · show 3 ≤ _
      simp only [List.length_cons]
      omega
    · rw [hsize]
      simp only [List.length_cons]
      omega
  rw [laneStep_fits hfits, hs, Framing.decode_of_complete hc, List.map_cons]
  refine ⟨_, List.mem_cons_self, ?_, fun hones => ?_⟩
  · rw [hsize, toPkt, Nat.add_comm]
    rfl
  · have hlen := hones.1
    rw [hsize, toPkt, List.length_drop, List.length_take] at hlen
    omega

theorem laneRun_of_step {s : List UInt8} {t : Telegram} {ts : List Telegram}
    (h : ∃ o ∈ (laneStep s t).2, Odd o) :
    ∃ o ∈ (Keyed.laneRun lanes s (t :: ts)).2, Odd o := by
  obtain ⟨o, ho, hodd⟩ := h
  exact ⟨o, List.mem_append_left _ ho, hodd⟩

/-- Less than a header leaves a lane waiting for it. -/
theorem laneRun_of_short {s : List UInt8} {t : Telegram} {ts : List Telegram}
    (hs : (s ++ t.body).length < 3)
    (h : ∃ o ∈ (Keyed.laneRun lanes (s ++ t.body) ts).2, Odd o) :
    ∃ o ∈ (Keyed.laneRun lanes s (t :: ts)).2, Odd o := by
  have hstep : laneStep s t = (s ++ t.body, []) := by
    rw [List.length_append, t.body_length] at hs
    rw [laneStep_fits (by rw [ringCapacity]; omega),
      Framing.decode_of_not_complete fun hc => by
        have : 3 ≤ (s ++ t.body).length := hc.1
        rw [List.length_append, t.body_length] at this
        omega]
    rfl
  obtain ⟨o, ho, hodd⟩ := h
  refine ⟨o, ?_, hodd⟩
  rw [Keyed.laneRun, show lanes.lane s t = laneStep s t from rfl, hstep]
  exact ho

theorem laneRun_two {ts : List Telegram} (hts : ∀ t ∈ ts, Bland t.body)
    (h : 0 < (ts.map Telegram.bodysize).sum) :
    ∃ o ∈ (Keyed.laneRun lanes [1, 0] ts).2, Odd o := by
  cases ts with
  | nil => simp at h
  | cons t ts =>
      have hb := hts t List.mem_cons_self
      have hle := t.bodysize_le
      have hfits : ([1, 0] : List UInt8).length + t.bodysize ≤ ringCapacity := by
        rw [tgPayload] at hle
        rw [ringCapacity, List.length_cons, List.length_singleton]
        omega
      rcases hb.cases with hbody | ⟨h, r, hbody, -, -⟩
      · exact laneRun_of_step (laneStep_madeUp (by rw [hbody]; rfl)
          (by decide) (Nat.zero_le _) hfits)
      · exact laneRun_of_step (laneStep_madeUp (by rw [hbody]; rfl)
          (by decide) (Nat.zero_le _) hfits)

theorem laneRun_one {ts : List Telegram} (hts : ∀ t ∈ ts, Bland t.body)
    (h : 1 < (ts.map Telegram.bodysize).sum) :
    ∃ o ∈ (Keyed.laneRun lanes [1] ts).2, Odd o := by
  cases ts with
  | nil => simp at h
  | cons t ts =>
      have hb := hts t List.mem_cons_self
      have hle := t.bodysize_le
      have hlen := t.body_length
      have hfits : ([1] : List UInt8).length + t.bodysize ≤ ringCapacity := by
        rw [tgPayload] at hle
        rw [ringCapacity, List.length_singleton]
        omega
      rcases hb.cases with hbody | ⟨c, r, hbody, h3, hr⟩
      · rw [hbody, List.length_singleton] at hlen
        rw [List.map_cons, List.sum_cons, ← hlen] at h
        refine laneRun_of_short (by rw [hbody]; decide) ?_
        rw [hbody]
        exact laneRun_two (fun u hu => hts u (List.mem_cons_of_mem _ hu))
          (by omega)
      · exact laneRun_of_step
          (laneStep_madeUp (by rw [hbody]; rfl) h3 hr hfits)

/-- A first body that starts with a one and is zeros behind it: as soon as there
are three bytes, they are taken for a header. -/
theorem laneRun_spike {t : Telegram} {ts : List Telegram} {m : Nat}
    (ht : t.body = 1 :: List.replicate m 0) (hts : ∀ t ∈ ts, Bland t.body)
    (h : 3 ≤ ((t :: ts).map Telegram.bodysize).sum) :
    ∃ o ∈ (Keyed.laneRun lanes [] (t :: ts)).2, Odd o := by
  have hle := t.bodysize_le
  have hlen := t.body_length
  rw [ht, List.length_cons, List.length_replicate] at hlen
  rw [List.map_cons, List.sum_cons, ← hlen] at h
  match m with
  | 0 =>
      refine laneRun_of_short (by rw [ht]; decide) ?_
      rw [ht]
      exact laneRun_one hts (by omega)
  | 1 =>
      refine laneRun_of_short (by rw [ht]; decide) ?_
      rw [ht]
      exact laneRun_two hts (by omega)
  | m + 2 =>
      refine laneRun_of_step (laneStep_madeUp (h := 0)
        (by rw [ht]; rfl) (by decide) (Nat.zero_le _) ?_)
      rw [tgPayload] at hle
      rw [ringCapacity, List.length_nil]
      omega

/-! ### A body filled up -/

/-- A lane that gets all its header announces, the first of it a zero, puts out
a packet with a zero in its body. -/
theorem laneRun_filled {s : List UInt8} {ts : List Telegram}
    (hhdr : 3 ≤ s.length) (hshort : s.length < pktFrames.size s)
    (hts : ∀ t ∈ ts, t.body.head? = some 0)
    (h : pktFrames.size s ≤ fill s.length (ts.map Telegram.bodysize)) :
    ∃ o ∈ (Keyed.laneRun lanes s ts).2, o.cmd = s.getD 0 0 ∧ 0 ∈ o.data := by
  induction ts generalizing s with
  | nil =>
      have : fill s.length ([].map Telegram.bodysize) = s.length := rfl
      omega
  | cons t ts ih =>
      have hrest := fun u hu => hts u (List.mem_cons_of_mem t hu)
      rw [List.map_cons, fill] at h
      rw [Keyed.laneRun, show lanes.lane s t = laneStep s t from rfl]
      by_cases hfits : s.length + t.bodysize ≤ ringCapacity
      · have hlen : (s ++ t.body).length = s.length + t.bodysize := by
          rw [List.length_append, t.body_length]
        have hsize := pktFrames.size_append t.body hhdr
        have hget : ∀ bs : List UInt8, (s ++ bs).getD 0 0 = s.getD 0 0 := by
          intro bs
          rw [List.getD_eq_getElem?_getD, List.getD_eq_getElem?_getD,
            List.getElem?_append_left (by omega)]
        rw [if_pos hfits, ← hlen] at h
        rw [laneStep_fits hfits]
        by_cases hc : Framing.Complete pktFrames (s ++ t.body)
        · rw [Framing.decode_of_complete hc, List.map_cons]
          refine ⟨_, List.mem_append_left _ List.mem_cons_self, ?_, ?_⟩
          · -- the header is that of `s`
            rw [toPkt, hsize]
            show ((s ++ t.body).take (pktFrames.size s)).getD 0 0 = _
            rw [List.getD_eq_getElem?_getD, List.getElem?_take_of_lt (by omega),
              ← List.getD_eq_getElem?_getD, hget]
          · -- behind what `s` held comes the zero
            rw [toPkt, hsize]
            have hzero : ((s ++ t.body).take (pktFrames.size s))[s.length]? =
                some 0 := by
              rw [List.getElem?_take_of_lt hshort,
                List.getElem?_append_right (Nat.le_refl _), Nat.sub_self,
                ← List.head?_eq_getElem?, hts t List.mem_cons_self]
            refine List.mem_of_getElem? (i := s.length - 3) ?_
            rw [List.getElem?_drop, Nat.add_sub_of_le hhdr, hzero]
        · have hlt : (s ++ t.body).length < pktFrames.size s := by
            rw [← hsize]
            by_contra hge
            exact hc ⟨show 3 ≤ _ by omega, by omega⟩
          obtain ⟨o, ho, hcmd, hdata⟩ := ih (s := s ++ t.body) (by omega)
            (by rw [hsize]; exact hlt) hrest (by rw [hsize]; exact h)
          rw [Framing.decode_of_not_complete hc]
          exact ⟨o, ho, by rw [hcmd, hget], hdata⟩
      · rw [if_neg hfits] at h
        rw [laneStep, if_neg hfits, Framing.decode_of_not_complete fun hc => by
          have := hc.2
          omega]
        exact ih hhdr hshort hrest h

/-! ### The contents -/

section Contents

variable {src : UInt16}

theorem rawOf_eq (p : Outgoing) :
    rawOf p = p.cmd :: (p.len >>> 8).toUInt8 :: p.len.toUInt8 :: p.body := by
  rw [rawOf, bytes16_toBigEndian16]
  rfl

/-- A telegram behind the first carries body bytes only. -/
theorem body_telegramAt_succ (p : Outgoing) (i : Nat) :
    (telegramAt src p (i + 1)).body =
      (p.body.drop (i * tgPayload + 12)).take tgPayload := by
  rw [body_telegramAt, rawOf_eq,
    show (i + 1) * tgPayload = i * tgPayload + 12 + 3 by rw [tgPayload]; omega]
  rfl

theorem Bland.replicate {m : Nat} (h : 0 < m) : Bland (List.replicate m 0) := by
  match m with
  | 1 => exact rfl
  | m + 2 => exact ⟨rfl, by decide, Nat.zero_le _⟩

theorem Bland.head? : ∀ {bs : List UInt8}, Bland bs → bs.head? = some 0
  | [_], h => congrArg some h
  | _ :: _ :: _, h => congrArg some h.1

theorem replicate_piece (n k m : Nat) (b : UInt8) :
    ((List.replicate n b).drop k).take m = List.replicate (min m (n - k)) b := by
  rw [List.drop_replicate, List.take_replicate]

/-- Every telegram of a packet of zeros is bland. -/
theorem bland_zeros {n : Nat} (hn : n < 2 ^ 16) (hfit : n ≤ maxBody) {i : Nat}
    (hi : i < pieces (zeros n hn)) :
    Bland (telegramAt src (zeros n hn) i).body := by
  have hlen : (zeros n hn).body.length = n := List.length_replicate
  cases i with
  | zero =>
      obtain ⟨h3, hhigh⟩ := highByte_le (p := zeros n hn) (by rw [hlen]; exact hfit)
      rw [hlen] at hhigh
      rw [body_telegramAt, rawOf_eq, Nat.zero_mul]
      refine ⟨rfl, h3, ?_⟩
      show _ ≤ (((zeros n hn).len.toUInt8 :: (zeros n hn).body).take 13).length
      rw [List.length_take, List.length_cons, hlen]
      omega
  | succ i =>
      rw [lt_pieces, rawOf_length, hlen, tgPayload] at hi
      rw [body_telegramAt_succ, zeros, replicate_piece]
      exact Bland.replicate (by rw [tgPayload]; omega)

/-- The fate of a packet of the same length, all zeros. -/
def zeroed (f : Fate) : Fate :=
  ⟨zeros f.pkt.body.length f.pkt.body_lt, f.keep⟩

theorem sameShape_zeroed (f : Fate) : SameShape f (zeroed f) :=
  ⟨List.length_replicate.symm, rfl⟩

theorem bland_zeroed (src : UInt16) {fs : List Fate}
    (hfit : ∀ f ∈ fs, f.pkt.body.length ≤ maxBody) :
    ∀ t ∈ (fs.map zeroed).flatMap (survivors src), Bland t.body := by
  intro t ht
  obtain ⟨g, hg, ht⟩ := List.mem_flatMap.mp ht
  obtain ⟨f, hf, rfl⟩ := List.mem_map.mp hg
  obtain ⟨i, hi, rfl⟩ := List.mem_map.mp ht
  exact bland_zeros f.pkt.body_lt (hfit f hf)
    (List.mem_range.mp (List.mem_of_mem_filter hi))

/-- A packet of ones for everybody, with command one. -/
def ones (n : Nat) (h : n < 2 ^ 16) : Outgoing :=
  ⟨broadcastAddr, 1, List.replicate n 1, by rw [List.length_replicate]; exact h⟩

/-- A packet of zeros but for a one at place `k` of its body. -/
def spike (n k : Nat) (h : n < 2 ^ 16) (hk : k < n) : Outgoing :=
  ⟨broadcastAddr, 0, List.replicate k 0 ++ 1 :: List.replicate (n - k - 1) 0, by
    rw [List.length_append, List.length_cons, List.length_replicate,
      List.length_replicate]
    omega⟩

theorem spike_length {n k : Nat} (h : n < 2 ^ 16) (hk : k < n) :
    (spike n k h hk).body.length = n := by
  rw [spike, List.length_append, List.length_cons, List.length_replicate,
    List.length_replicate]
  omega

/-- The spike at the front of a telegram. -/
theorem spike_at {n i : Nat} (h : n < 2 ^ 16) (hk : i * tgPayload + 12 < n) :
    (telegramAt src (spike n (i * tgPayload + 12) h hk) (i + 1)).body =
      1 :: List.replicate (min 14 (n - (i * tgPayload + 12) - 1)) 0 := by
  have hlen : (List.replicate (i * tgPayload + 12) (0 : UInt8)).length =
      i * tgPayload + 12 := List.length_replicate
  rw [body_telegramAt_succ, spike]
  simp only []
  rw [List.drop_left' hlen]
  show 1 :: (List.replicate _ 0).take 14 = _
  rw [List.take_replicate]

/-- And behind it, zeros. -/
theorem bland_spike {n k i : Nat} (h : n < 2 ^ 16) (hk : k < n)
    (hki : k < i * tgPayload + 12) (hi : i + 1 < pieces (spike n k h hk)) :
    Bland (telegramAt src (spike n k h hk) (i + 1)).body := by
  rw [lt_pieces, rawOf_length, spike_length, tgPayload] at hi
  rw [body_telegramAt_succ, spike]
  simp only []
  obtain ⟨j, hj⟩ : ∃ j, i * tgPayload + 12 = k + (j + 1) :=
    ⟨i * tgPayload + 12 - k - 1, by omega⟩
  have hlen : (List.replicate k (0 : UInt8)).length = k := List.length_replicate
  rw [hj, ← List.drop_drop, List.drop_left' hlen, List.drop_succ_cons,
    replicate_piece]
  refine Bland.replicate ?_
  rw [tgPayload] at hj ⊢
  omega

end Contents

/-! ### The damage -/

section Damage

variable {src : UInt16}

/-- A packet that arrived whole is missing, or one comes out that nobody of
these contents sends. -/
def Damaged (src : UInt16) (fates : List Fate) : Prop :=
  let out := (Keyed.laneRun lanes [] (fates.flatMap (survivors src))).2
  ¬ ((fates.filter whole).map fun f => f.pkt.pkt src).Sublist out ∨
    ∃ o ∈ out, Odd o

/-- Contents of the lengths of `fates`, for everybody, none of them odd. -/
def Contents (fates fates' : List Fate) : Prop :=
  Shapes fates fates' ∧
    ∀ f ∈ fates', f.pkt.dest = broadcastAddr ∧ Plain f.pkt

theorem contents_zeroed (fs : List Fate) : Contents fs (fs.map zeroed) := by
  refine ⟨?_, fun g hg => ?_⟩
  · rw [Shapes, List.forall₂_map_right_iff]
    exact List.forall₂_same.mpr fun f _ => sameShape_zeroed f
  · obtain ⟨f, -, rfl⟩ := List.mem_map.mp hg
    exact ⟨rfl, Or.inl rfl⟩

theorem Contents.cons {f g : Fate} {fs gs : List Fate} (h : SameShape f g)
    (hdest : g.pkt.dest = broadcastAddr) (hplain : Plain g.pkt)
    (hs : Contents fs gs) : Contents (f :: fs) (g :: gs) := by
  refine ⟨List.Forall₂.cons h hs.1, fun k hk => ?_⟩
  rcases List.mem_cons.mp hk with rfl | hk
  · exact ⟨hdest, hplain⟩
  · exact hs.2 k hk

theorem Contents.sizes {fs gs : List Fate} (h : Contents fs gs) :
    gs.flatMap Fate.sizes = fs.flatMap Fate.sizes :=
  Shapes.sizes h.1

theorem sum_filter_add (l : List Nat) (keep : Nat → Bool) (g : Nat → Nat) :
    ((l.filter keep).map g).sum + ((l.filter fun i => !keep i).map g).sum =
      (l.map g).sum := by
  induction l with
  | nil => rfl
  | cons a l ih =>
      cases hk : keep a <;> simp [hk, ← ih] <;> omega

/-- A packet that is not whole brings less than it announces. -/
theorem sum_sizes_lt {f : Fate} (hw : f.whole = false) :
    f.sizes.sum < f.pkt.body.length + 3 := by
  have hall : ((List.range (pieces f.pkt)).map fun i =>
      min tgPayload (f.pkt.body.length + 3 - i * tgPayload)).sum =
        f.pkt.body.length + 3 := by
    have := congrArg List.length (body_telegramsOf 0 f.pkt)
    rw [List.length_flatMap, telegramsOf_eq, List.map_map, rawOf_length] at this
    refine Eq.trans ?_ this
    congr 1
    refine List.map_congr_left fun i _ => ?_
    rw [Function.comp_apply, Telegram.body_length, bodysize_telegramAt]
  have hsum := sum_filter_add (List.range (pieces f.pkt)) f.keep fun i =>
    min tgPayload (f.pkt.body.length + 3 - i * tgPayload)
  rw [hall] at hsum
  obtain ⟨i, hi, hk⟩ := List.all_eq_false.mp hw
  have hdropped : i ∈ (List.range (pieces f.pkt)).filter fun i => !f.keep i :=
    List.mem_filter.mpr ⟨hi, by simpa using hk⟩
  have hlt := lt_pieces.mp (List.mem_range.mp hi)
  rw [rawOf_length, tgPayload] at hlt
  have hpos : 0 < (((List.range (pieces f.pkt)).filter fun i => !f.keep i).map
      fun i => min tgPayload (f.pkt.body.length + 3 - i * tgPayload)).sum := by
    refine List.sum_pos_iff_exists_pos_nat.mpr
      ⟨_, List.mem_map_of_mem hdropped, ?_⟩
    rw [tgPayload]
    omega
  rw [Fate.sizes]
  omega

theorem fill_append {n : Nat} {cs : List Nat} (ds : List Nat)
    (h : n + cs.sum ≤ ringCapacity) :
    fill n (cs ++ ds) = fill (n + cs.sum) ds := by
  induction cs generalizing n with
  | nil => rfl
  | cons c cs ih =>
      rw [List.sum_cons] at h
      rw [List.cons_append, fill, if_pos (by omega), ih (by omega),
        List.sum_cons, Nat.add_assoc]

/-- A packet behind is missing, if the lane never gets what it waits for. -/
theorem damaged_zeroed {f : Fate} {fs : List Fate} (hw : f.whole = false)
    (hl : f.lost = false) {g : Fate} (hg : g ∈ fs) (hgw : g.whole = true)
    (h : Waits f fs) : Damaged src ((f :: fs).map zeroed) := by
  have hf := sameShape_zeroed f
  have hwait := (hf.waits (contents_zeroed fs).sizes).mp h
  refine Or.inl fun hsub => ?_
  rw [List.map_cons, laneRun_cut (hf.whole ▸ hw) (hf.lost ▸ hl) hwait,
    List.sublist_nil, List.map_eq_nil_iff, List.filter_eq_nil_iff] at hsub
  refine hsub (zeroed g) (List.mem_cons_of_mem _ (List.mem_map_of_mem hg)) ?_
  rw [← (sameShape_zeroed g).whole, hgw]

/-- With its header, the lane fills the body up with what comes behind. -/
theorem damaged_ones {f : Fate} {fs : List Fate}
    (hfit : ∀ g ∈ f :: fs, g.pkt.body.length ≤ maxBody) (hw : f.whole = false)
    (hl : f.lost = false) (hk : f.keep 0 = true)
    (h : f.pkt.body.length + 3 ≤
      fill 0 (f.sizes ++ fs.flatMap Fate.sizes)) {g : Fate}
    (hshape : SameShape f g) (hcmd : g.pkt.cmd = 1) :
    Damaged src (g :: fs.map zeroed) := by
  refine Or.inr ?_
  have hgk : g.keep 0 = true := hshape.2 ▸ hk
  have hgw : g.whole = false := hshape.whole ▸ hw
  have hgl : g.lost = false := hshape.lost ▸ hl
  have hfits := hfit f List.mem_cons_self
  rw [maxBody, ringCapacity] at hfits
  -- its own telegrams leave the lane waiting
  have hbody : ((g.survivors src).flatMap Telegram.body).length =
      g.sizes.sum := by
    rw [List.length_flatMap, ← bodysize_survivors src]
    congr 1
    exact List.map_congr_left fun t _ => t.body_length
  have hsum := sum_sizes_lt hgw
  rw [← hshape.1] at hsum
  obtain ⟨-, hlen, hsize, -⟩ := laneStep_first src (one_lt_pieces hgw hgl)
  obtain ⟨ts, hts⟩ := survivors_cons src hgk
  have hfirst : (g.survivors src).flatMap Telegram.body =
      (rawOf g.pkt).take tgPayload ++ ts.flatMap Telegram.body := by
    rw [hts, List.flatMap_cons, body_telegramAt, Nat.zero_mul, List.drop_zero]
  have hann : pktFrames.size ((g.survivors src).flatMap Telegram.body) =
      f.pkt.body.length + 3 := by
    rw [hfirst, pktFrames.size_append _ (by rw [hlen]; decide), hsize, hshape.1]
  have hhdr : 3 ≤ ((g.survivors src).flatMap Telegram.body).length := by
    rw [hfirst, List.length_append, hlen, tgPayload]
    omega
  have hown : Keyed.laneRun lanes [] (g.survivors src) =
      ((g.survivors src).flatMap Telegram.body, []) := by
    have haddr : Addressed src g.pkt.dest (g.survivors src) := by
      intro t ht
      obtain ⟨i, -, rfl⟩ := List.mem_map.mp ht
      exact ⟨Telegram.src_written _, Telegram.dest_written _⟩
    rw [laneRun_fits haddr (fun hc => absurd hc.1 (by simp [pktFrames])) (by
      rw [hbody, List.length_nil, ringCapacity]; omega), List.nil_append,
      Framing.decode_of_not_complete fun hc => by
        have := hc.2
        omega]
    rfl
  rw [List.flatMap_cons, Keyed.laneRun_append, hown]
  simp only [List.nil_append]
  have hget : ((g.survivors src).flatMap Telegram.body).getD 0 0 = 1 := by
    rw [hfirst, rawOf_eq, hcmd]
    rfl
  have hblandFs := bland_zeroed src fun x hx =>
    hfit x (List.mem_cons_of_mem f hx)
  obtain ⟨o, ho, hocmd, hodata⟩ := laneRun_filled hhdr (by omega)
    (fun t ht => (hblandFs t ht).head?) (by
      rw [bodysize_flatMap_survivors, (contents_zeroed fs).sizes, hann, hbody]
      rw [hshape.sizes, fill_append _ (by
        rw [ringCapacity]; omega), Nat.zero_add] at h
      exact h)
  refine ⟨o, ho, hocmd.trans hget, fun hones => ?_⟩
  exact absurd (hones.2 0 hodata) (by decide)

/-- Without it, the lane takes what comes for a header. -/
theorem damaged_spike {f : Fate} {fs : List Fate}
    (hfit : ∀ g ∈ f :: fs, g.pkt.body.length ≤ maxBody) (hl : f.lost = false)
    (hk : f.keep 0 = false)
    (h : 3 ≤ (f.sizes ++ fs.flatMap Fate.sizes).sum) :
    ∃ g, SameShape f g ∧ g.pkt.dest = broadcastAddr ∧ Plain g.pkt ∧
      Damaged src (g :: fs.map zeroed) := by
  -- the first telegram that arrives, not the first of the packet
  obtain ⟨i, is, hfilter⟩ : ∃ i is,
      (List.range (pieces f.pkt)).filter f.keep = i :: is := by
    cases hfil : (List.range (pieces f.pkt)).filter f.keep with
    | cons i is => exact ⟨i, is, rfl⟩
    | nil =>
        obtain ⟨i, hi, hnk⟩ := List.all_eq_false.mp hl
        rw [Bool.not_eq_true', Bool.not_eq_false] at hnk
        exact absurd hnk (List.filter_eq_nil_iff.mp hfil i hi)
  have hmem : ∀ j ∈ i :: is, j < pieces f.pkt ∧ f.keep j = true := by
    intro j hj
    rw [← hfilter] at hj
    exact ⟨List.mem_range.mp (List.mem_filter.mp hj).1, (List.mem_filter.mp hj).2⟩
  have hsorted : (i :: is).Pairwise (· < ·) := by
    rw [← hfilter]
    exact List.pairwise_lt_range.filter _
  obtain ⟨hi, hki⟩ := hmem i List.mem_cons_self
  obtain ⟨j, rfl⟩ : ∃ j, i = j + 1 := by
    cases i with
    | zero => rw [hk] at hki; cases hki
    | succ j => exact ⟨j, rfl⟩
  have hlt : j * tgPayload + 12 < f.pkt.body.length := by
    rw [lt_pieces, rawOf_length, tgPayload] at hi
    rw [tgPayload]
    omega
  refine ⟨⟨spike f.pkt.body.length _ f.pkt.body_lt hlt, f.keep⟩, ?_⟩
  have hlen := spike_length f.pkt.body_lt hlt
  have hshape : SameShape f
      ⟨spike f.pkt.body.length _ f.pkt.body_lt hlt, f.keep⟩ := ⟨hlen.symm, rfl⟩
  refine ⟨hshape, rfl, Or.inl rfl, Or.inr ?_⟩
  have hpieces : pieces (spike f.pkt.body.length _ f.pkt.body_lt hlt) =
      pieces f.pkt := pieces_congr hlen
  rw [← List.flatMap_cons, ← bodysize_flatMap_survivors src] at h
  have hsame : ((⟨spike f.pkt.body.length _ f.pkt.body_lt hlt, f.keep⟩ ::
      fs.map zeroed).flatMap (survivors src)).map Telegram.bodysize =
        ((f :: fs).flatMap (survivors src)).map Telegram.bodysize := by
    rw [bodysize_flatMap_survivors, bodysize_flatMap_survivors,
      List.flatMap_cons, List.flatMap_cons, (contents_zeroed fs).sizes,
      hshape.sizes]
  rw [← hsame, List.flatMap_cons, survivors] at h
  rw [List.flatMap_cons, survivors]
  simp only [hpieces, hfilter, List.map_cons, List.cons_append] at h ⊢
  refine laneRun_spike (spike_at f.pkt.body_lt hlt) (fun t ht => ?_) h
  rcases List.mem_append.mp ht with ht | ht
  · obtain ⟨l, hl', rfl⟩ := List.mem_map.mp ht
    have hjl := (List.pairwise_cons.mp hsorted).1 l hl'
    obtain ⟨l, rfl⟩ : ∃ k, l = k + 1 := ⟨l - 1, by omega⟩
    refine bland_spike f.pkt.body_lt hlt ?_ ?_
    · rw [tgPayload]
      omega
    · rw [hpieces]
      exact (hmem _ (List.mem_cons_of_mem _ hl')).1
  · exact bland_zeroed src (fun x hx => hfit x (List.mem_cons_of_mem f hx)) t ht

/-- A fault that is not contained shows with some contents. -/
theorem exists_damaged (src : UInt16) {fates : List Fate}
    (hfit : ∀ f ∈ fates, f.pkt.body.length ≤ maxBody) (h : ¬ Contained fates) :
    ∃ fates', Contents fates fates' ∧ Damaged src fates' := by
  induction fates with
  | nil => exact absurd trivial h
  | cons f fs ih =>
      have hrest := fun g hg => hfit g (List.mem_cons_of_mem f hg)
      have hf := sameShape_zeroed f
      have hfits := hfit f List.mem_cons_self
      rw [maxBody, ringCapacity] at hfits
      rw [Contained] at h
      cases hw : f.whole with
      | true =>
          rw [if_pos (Or.inl hw)] at h
          obtain ⟨gs, hgs, hdam⟩ := ih hrest h
          refine ⟨zeroed f :: gs, hgs.cons hf rfl (Or.inl rfl), ?_⟩
          have hzw : (zeroed f).whole = true := hf.whole ▸ hw
          rw [Damaged, List.flatMap_cons, survivors_of_whole src hzw,
            Keyed.laneRun_append, laneRun_packet src (by
              rw [ringCapacity, ← hf.1]; omega), List.filter_cons_of_pos hzw,
            List.map_cons]
          rcases hdam with hsub | ⟨o, ho, hodd⟩
          · refine Or.inl fun hcons => hsub ?_
            exact List.cons_sublist_cons.mp hcons
          · exact Or.inr ⟨o, List.mem_append_right _ ho, hodd⟩
      | false =>
          cases hl : f.lost with
          | true =>
              rw [if_pos (Or.inr hl)] at h
              obtain ⟨gs, hgs, hdam⟩ := ih hrest h
              refine ⟨zeroed f :: gs, hgs.cons hf rfl (Or.inl rfl), ?_⟩
              have hzw : (zeroed f).whole = false := hf.whole ▸ hw
              have hzl : (zeroed f).lost = true := hf.lost ▸ hl
              rw [Damaged, List.flatMap_cons, survivors_of_lost src hzl,
                List.filter_cons_of_neg (by rw [hzw]; simp), List.nil_append]
              exact hdam
          | false =>
              rw [if_neg (by rw [hw, hl]; simp), not_and] at h
              by_cases hwait : Waits f fs
              · obtain ⟨g, hg, hgw⟩ : ∃ g ∈ fs, g.whole = true := by
                  by_contra hnone
                  refine h (fun g hg => ?_) hwait
                  cases hgw : g.whole with
                  | false => rfl
                  | true => exact absurd ⟨g, hg, hgw⟩ hnone
                exact ⟨_, contents_zeroed (f :: fs),
                  damaged_zeroed hw hl hg hgw hwait⟩
              · rw [Waits] at hwait
                split at hwait
                · next hk =>
                    have hlong : 12 ≤ f.pkt.body.length := by
                      have := lt_pieces.mp (one_lt_pieces hw hl)
                      rw [rawOf_length, tgPayload] at this
                      omega
                    have hshape : SameShape f
                        ⟨ones f.pkt.body.length f.pkt.body_lt, f.keep⟩ :=
                      ⟨List.length_replicate.symm, rfl⟩
                    have hplain : Plain (ones f.pkt.body.length f.pkt.body_lt) :=
                      Or.inr ⟨by rw [ones, List.length_replicate]; exact hlong,
                        fun b hb => List.eq_of_mem_replicate hb⟩
                    exact ⟨_, (contents_zeroed fs).cons hshape rfl hplain,
                      damaged_ones hfit hw hl hk (Nat.le_of_not_lt hwait)
                        hshape rfl⟩
                · next hk =>
                    obtain ⟨g, hshape, hdest, hplain, hdam⟩ :=
                      damaged_spike hfit hl (Bool.eq_false_iff.mpr hk)
                        (Nat.le_of_not_lt hwait)
                    exact ⟨_, (contents_zeroed fs).cons hshape hdest hplain, hdam⟩

end Damage

/-! ## The receiver -/

section Receiver

variable {id src : UInt16}

theorem damageConfined_of_contained {fates : List Fate}
    (hfit : ∀ f ∈ fates, f.pkt.body.length ≤ maxBody) (h : Contained fates) :
    DamageConfined id src fates := by
  intro w ts hempty honly
  refine ⟨_, ?_, List.Sublist.refl _, fun o ho => ?_⟩
  · rw [(recvAll_source id w ts src).2, hempty, honly,
      laneRun_contained hfit h]
  · obtain ⟨f, hf, rfl⟩ := List.mem_map.mp ho
    exact ⟨f, List.mem_of_mem_filter hf, rfl⟩

/-- What of the packets of `fates` a new receiver with one slot gets. -/
theorem kept_survivors (hne : src ≠ id) {fates : List Fate}
    (hfor : ∀ f ∈ fates, Outgoing.isFor id f.pkt = true) :
    kept id (new 1 (by decide)) (fates.flatMap (survivors src)) =
        fates.flatMap (survivors src) ∧
      Keyed.only lanes src (fates.flatMap (survivors src)) =
        fates.flatMap (survivors src) := by
  have hall : ∀ t ∈ fates.flatMap (survivors src),
      t.src = src ∧ accepts id t = true := by
    intro t ht
    obtain ⟨f, hf, ht⟩ := List.mem_flatMap.mp ht
    obtain ⟨i, hi, rfl⟩ := List.mem_map.mp ht
    have hdest := hfor f hf
    rw [Outgoing.isFor] at hdest
    refine ⟨Telegram.src_written _, ?_⟩
    rw [accepts, telegramAt, Telegram.src_written, Telegram.dest_written,
      Telegram.check_written, bne_iff_ne.mpr hne, Bool.and_true, Bool.and_true]
    exact hdest
  refine ⟨?_, List.filter_eq_self.mpr fun t ht => decide_eq_true (hall t ht).1⟩
  rw [kept_of_room (room_new (S := [src]) (by decide) (Nat.le_refl 1))
    fun t ht _ => List.mem_singleton.mpr (hall t ht).1]
  exact List.filter_eq_self.mpr fun t ht => (hall t ht).2

theorem not_damageConfined (hne : src ≠ id) {fates : List Fate}
    (hfor : ∀ f ∈ fates, Outgoing.isFor id f.pkt = true)
    (hplain : ∀ f ∈ fates, Plain f.pkt) (h : Damaged src fates) :
    ¬ DamageConfined id src fates := by
  intro hconf
  obtain ⟨hkept, honly⟩ := kept_survivors hne hfor
  have hempty : (new 1 (by decide)).buffers.bytes src = [] :=
    Rings.bytes_new (by decide) src
  obtain ⟨out, hout, hsub, hmem⟩ := hconf (new 1 (by decide))
    (fates.flatMap (survivors src)) hempty (by rw [hkept, honly])
  rw [(recvAll_source id _ _ src).2, hkept, honly, hempty,
    List.append_cancel_left_eq] at hout
  subst hout
  rcases h with hnot | ⟨o, ho, hodd⟩
  · exact hnot hsub
  · obtain ⟨f, hf, rfl⟩ := hmem o ho
    exact not_odd_of_plain (hplain f hf) hodd

/-- The damage stays with the packets that lost telegrams, whatever the contents,
exactly when the faults are contained. -/
theorem damageConfined_iff (hne : src ≠ id) {fates : List Fate}
    (hfit : ∀ f ∈ fates, f.pkt.body.length ≤ maxBody) :
    (∀ fates', Shapes fates fates' →
      (∀ f ∈ fates', Outgoing.isFor id f.pkt = true) →
      DamageConfined id src fates') ↔ Contained fates := by
  constructor
  · intro hall
    by_contra hnot
    obtain ⟨fates', ⟨hshape, hprops⟩, hdam⟩ :=
      exists_damaged src hfit hnot
    have hfor : ∀ f ∈ fates', Outgoing.isFor id f.pkt = true := by
      intro f hf
      rw [Outgoing.isFor, (hprops f hf).1]
      rfl
    exact not_damageConfined hne hfor (fun f hf => (hprops f hf).2) hdam
      (hall fates' hshape hfor)
  · intro h fates' hshape _
    exact damageConfined_of_contained (Shapes.fits hshape hfit)
      ((Shapes.contained hshape).mp h)

end Receiver

/-- A packet of two telegrams whose second is discarded, and an empty packet
behind it that arrives whole. -/
def halfAndWhole : List Fate :=
  [⟨zeros 27 (by decide), fun i => i == 0⟩, ⟨emptyPacket, fun _ => true⟩]

theorem damageConfined_iff_halfAndWhole :
    (∀ fates', Shapes halfAndWhole fates' →
      (∀ f ∈ fates', Outgoing.isFor 3 f.pkt = true) →
      DamageConfined 3 1 fates') ↔ Contained halfAndWhole :=
  damageConfined_iff (by decide) (by decide)

/-- The second telegram of the first packet arrives with a wrong checksum, and
the empty packet never comes out. -/
theorem halfAndWhole_damaged : ¬ DamageConfined 3 1 halfAndWhole := by
  intro h
  let t := telegramAt 1 (zeros 27 (by decide))
  let broken : Telegram := ⟨(t 1).raw.dropLast ++ [0], by decide⟩
  obtain ⟨out, hout, hsub, -⟩ := h (new 1 (by decide))
    [t 0, broken, telegramAt 1 emptyPacket 0] (Rings.bytes_new (by decide) 1)
    (by decide)
  have hnone : (recvAll 3 (new 1 (by decide))
      [t 0, broken, telegramAt 1 emptyPacket 0]).inQ = [] := by
    rw [(recvAll_eq 3 _ _).2.1]
    decide
  rw [hnone] at hout
  obtain rfl : out = [] := hout.symm
  exact absurd hsub (by decide)

end PktWrapper

end LibSmoke
