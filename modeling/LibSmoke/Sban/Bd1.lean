import LibSmoke.Sban.Mka
import Mathlib.Algebra.BigOperators.Fin
import Mathlib.Algebra.BigOperators.Intervals

/-!
# One party of the cyclic exchange

`bd1.c`: a party broadcasts its point, then the difference of its neighbours'
points times its scalar, and adds up what it has of all others with decreasing
factors. What is added up telescopes (`telescope`): a difference belongs to the
edge before a party and the edge after it.

The difference of a party whose neighbours hold the same point is zero. It is
sent as a record of two bytes, and no other party can multiply it.
-/

namespace LibSmoke

structure Bd1Context where
  grp : EcpGroup
  r : Int
  z : EcpPoint
  X : EcpPoint

def bd1Init (grp : EcpGroup) : Bd1Context := ⟨grp, 0, ⟨0, 0, 0⟩, ⟨0, 0, 0⟩⟩

def bd1GenPoint (ctx : Bd1Context) (buflen : Nat) (draw : Nat → Nat) :
    Except SbanError (Bd1Context × List UInt8) := do
  let (r, z) ← ctx.grp.ecpGenKeypair draw
  let buf ← ctx.grp.ecpTlsWritePoint z buflen
  .ok ({ ctx with r := r }, buf)

def EcpGroup.ecpSub (g : EcpGroup) (p q : EcpPoint) : Except SbanError EcpPoint :=
  g.ecpAdd p (g.ecpOpp q)

/-- `ecp_mul`, or the zero point where a check before it says so. -/
def EcpGroup.ecpMulUnless (g : EcpGroup) (zero : Prop) [Decidable zero] (m : Int)
    (p : EcpPoint) : Except SbanError EcpPoint :=
  if zero then .ok ecpZero else g.ecpMul m p

def bd1GenValue (ctx : Bd1Context) (buf : List UInt8) (buflen obuflen : Nat) :
    Except SbanError (Bd1Context × List UInt8) := do
  let (z, p) ← ctx.grp.ecpTlsReadPoint buf buflen
  let (z1, _) ← ctx.grp.ecpTlsReadPoint p buflen
  let z2 ← ctx.grp.ecpSub z1 z
  let X ← ctx.grp.ecpMulUnless (z2.Z = 0) ctx.r z2
  let obuf ← ctx.grp.ecpTlsWritePoint X obuflen
  .ok ({ ctx with z := z, X := X }, obuf)

/-- The loop of `bd1_compute_key`, by the factor of the round before. -/
def bd1Loop (g : EcpGroup) (buflen : Nat) :
    Nat → List UInt8 → EcpPoint → Except SbanError EcpPoint
  | 0, _, key => .ok key
  | e1 + 1, p, key => do
      let (helper1, p) ← g.ecpTlsReadPoint p buflen
      let helper2 ← g.ecpMul (e1 + 1 : Nat) helper1
      let key ← g.ecpAdd key helper2
      bd1Loop g buflen e1 p key

/-- The part of `bd1_compute_key` after the own point. -/
def bd1Others (ctx : Bd1Context) (buf : List UInt8) (buflen n : Nat)
    (helper1 : EcpPoint) : Except SbanError EcpPoint :=
  if n = 2 then .ok helper1
  else do
    let helper2 ← ctx.grp.ecpMul (n - 1 : Nat) ctx.X
    let key ← ctx.grp.ecpAdd helper1 helper2
    bd1Loop ctx.grp buflen (n - 2) buf key

def bd1ComputeKey (ctx : Bd1Context) (buf : List UInt8) (buflen n obuflen : Nat) :
    Except SbanError (List UInt8) := do
  let e2 := ctx.r * n % ctx.grp.N
  let helper1 ← ctx.grp.ecpMulUnless (e2 = 0) e2 ctx.z
  let key ← bd1Others ctx buf buflen n helper1
  if mpiSize key.X > obuflen then .error .bufferTooShort
  else mpiWriteBinary key.X ctx.grp.keyLen

/-! ## The sum -/

/-- Differences with decreasing factors add up to the sum of all terms. -/
theorem telescope {R : Type} [CommRing R] (b : Nat → R) (m t : Nat) (ht : t ≤ m) :
    (m + 1) * b 0 + ∑ j ∈ Finset.range t, ((m - j : Nat) : R) * (b (j + 1) - b j) =
      ∑ j ∈ Finset.range t, b j + ((m - t : Nat) + 1) * b t := by
  induction t with
  | zero => simp
  | succ t ih =>
      have hsub : ((m - t : Nat) : R) = (m - (t + 1) : Nat) + 1 := by
        rw [show m - t = m - (t + 1) + 1 by omega, Nat.cast_succ]
      rw [Finset.sum_range_succ, ← add_assoc, ih (by omega),
        Finset.sum_range_succ, hsub]
      ring

/-! ## On an exact group -/

/-- The bytes of a record, of the zero point also. -/
def pointBytes (g : EcpGroup) (p : EcpPoint) : List UInt8 :=
  if p.Z = 0 then [0x01, 0x00] else g.record p

/-- A buffer with some bytes at its front; what they do not fill stays as it
was, and is zero here. -/
def padded (size : Nat) (bytes : List UInt8) : List UInt8 :=
  (bytes ++ List.replicate (size - bytes.length) 0).take size

@[simp] theorem padded_length (size : Nat) (bytes : List UInt8) :
    (padded size bytes).length = size := by
  rw [padded, List.length_take, List.length_append, List.length_replicate]
  omega

theorem padded_of_length {size : Nat} {bytes : List UInt8}
    (h : bytes.length = size) : padded size bytes = bytes := by
  rw [padded, h, Nat.sub_self, List.replicate_zero, List.append_nil,
    List.take_of_length_le (Nat.le_of_eq h)]

section Exact

variable {g : EcpGroup} {pt : ZMod g.N → EcpPoint} (hE : g.Exact pt)

include hE

theorem pointBytes_of_ne {s : ZMod g.N} (hs : s ≠ 0) :
    pointBytes g (pt s) = g.record (pt s) := by
  rw [pointBytes, if_neg (by rw [hE.affine hs]; decide)]

theorem pointBytes_zero : pointBytes g (pt 0) = [0x01, 0x00] := by
  rw [pointBytes, hE.zero]
  rfl

theorem ecpTlsWritePoint_pt (s : ZMod g.N) {buflen : Nat}
    (hlen : 2 * g.plen + 2 ≤ buflen) :
    g.ecpTlsWritePoint (pt s) buflen = .ok (pointBytes g (pt s)) := by
  by_cases hs : s = 0
  · subst hs
    rw [pointBytes_zero hE, hE.zero, EcpGroup.ecpTlsWritePoint,
      if_neg (by omega), EcpGroup.ecpPointWriteBinary]
    simp only [ecpZero, if_true]
    rw [if_neg (by omega)]
    rfl
  · rw [pointBytes_of_ne hE hs]
    exact EcpGroup.ecpTlsWritePoint_onCurve (hE.onCurve s hs) hlen

/-- A point is read back from the buffer it was written to. -/
theorem ecpTlsReadPoint_padded (s : ZMod g.N) {buflen : Nat}
    (hroom : g.Room buflen) (rest : List UInt8) :
    ∃ p, g.ecpTlsReadPoint (padded (2 * g.plen + 2) (pointBytes g (pt s)) ++ rest)
      buflen = .ok (pt s, p) ∧ (s ≠ 0 → p = rest) := by
  by_cases hs : s = 0
  · subst hs
    have hroom := hroom.1
    have hpad : padded (2 * g.plen + 2) (pointBytes g (pt 0)) =
        0x01 :: 0x00 :: List.replicate (2 * g.plen) 0 := by
      rw [pointBytes_zero hE, padded, List.take_of_length_le]
      · rfl
      · simp
    rw [hpad, List.cons_append, EcpGroup.ecpTlsReadPoint, if_neg (by omega), hE.zero]
    refine ⟨List.replicate (2 * g.plen) 0 ++ rest, ?_, fun h => absurd rfl h⟩
    rw [if_neg (by simp; omega), if_neg (by simp)]
    rfl
  · rw [pointBytes_of_ne hE hs, padded_of_length (EcpGroup.record_length ..),
      EcpGroup.ecpTlsReadPoint_record (hE.onCurve s hs) hroom]
    exact ⟨rest, rfl, fun _ => rfl⟩

theorem ecpSub_pt (s : ZMod g.N) {t : ZMod g.N} (ht : t ≠ 0) :
    g.ecpSub (pt s) (pt t) = .ok (pt (s - t)) := by
  rw [EcpGroup.ecpSub, hE.opp t ht, hE.ecpAdd_pt, sub_eq_add_neg]

/-- A multiplication that succeeds is one of a point other than zero. -/
theorem ecpMul_ok {m : Int} {s : ZMod g.N} {q : EcpPoint}
    (h : g.ecpMul m (pt s) = .ok q) : s ≠ 0 ∧ q = pt (m * s) := by
  have hs : s ≠ 0 := by
    rintro rfl
    rw [hE.ecpMul_zero] at h
    cases h
  have hrange : 0 < m ∧ m < g.N := by
    unfold EcpGroup.ecpMul EcpGroup.ecpCheckPrivkey at h
    split at h
    · cases h
    · split at h
      · cases h
      · omega
  rw [hE.ecpMul_pt hrange.1 hrange.2 hs] at h
  cases h
  exact ⟨hs, rfl⟩

theorem bd1GenPoint_pt {draw : Nat → Nat} {r : Int}
    (hdraw : g.drawScalar draw 30 0 = .ok r) {buflen : Nat}
    (hlen : 2 * g.plen + 2 ≤ buflen) :
    bd1GenPoint (bd1Init g) buflen draw =
      .ok (⟨g, r, ⟨0, 0, 0⟩, ⟨0, 0, 0⟩⟩, pointBytes g (pt r)) := by
  obtain ⟨h0, hr⟩ := drawScalar_range hdraw
  have := Fact.mk hE.prime
  have hmul : g.ecpMul r g.G = .ok (pt r) := by
    rw [← hE.base, hE.ecpMul_pt h0 hr one_ne_zero, mul_one]
  simp only [bd1GenPoint, bd1Init, EcpGroup.ecpGenKeypair, hdraw, bind, Except.bind]
  rw [hmul]
  simp only []
  rw [ecpTlsWritePoint_pt hE (r : ZMod g.N) hlen]

/-- The value of a party between `pt y` and `pt x`. -/
theorem bd1GenValue_pt {r : Int} (h0 : 0 < r) (hr : r < g.N) {x y : ZMod g.N}
    (hx : x ≠ 0) (hy : y ≠ 0) {z X : EcpPoint} {buflen obuflen : Nat}
    (hroom : g.Room buflen) (hlen : 2 * g.plen + 2 ≤ obuflen) :
    bd1GenValue ⟨g, r, z, X⟩ (g.record (pt y) ++ g.record (pt x)) buflen obuflen =
      .ok (⟨g, r, pt y, pt (r * (x - y))⟩, pointBytes g (pt (r * (x - y)))) := by
  have hreadY := EcpGroup.ecpTlsReadPoint_record (hE.onCurve y hy) hroom
    (g.record (pt x))
  have hreadX := EcpGroup.ecpTlsReadPoint_record (hE.onCurve x hx) hroom []
  have hmul : g.ecpMulUnless ((pt (x - y)).Z = 0) r (pt (x - y)) =
      .ok (pt (r * (x - y))) := by
    unfold EcpGroup.ecpMulUnless
    by_cases hxy : x - y = 0
    · rw [hxy, mul_zero, hE.zero]
      rfl
    · rw [if_neg (by rw [hE.affine hxy]; decide), hE.ecpMul_pt h0 hr hxy]
  rw [List.append_nil] at hreadX
  simp only [bd1GenValue]
  rw [hreadY]
  simp only [bind, Except.bind]
  rw [hreadX]
  simp only []
  rw [ecpSub_pt hE x hy]
  simp only []
  rw [hmul]
  simp only []
  rw [ecpTlsWritePoint_pt hE _ hlen]

/-- The first coordinate of a point fits a key. -/
theorem mpiWriteBinary_key (s : ZMod g.N) :
    mpiWriteBinary (pt s).X g.keyLen = .ok (keyOf g (pt s)) := by
  have := Fact.mk hE.prime
  rw [keyLen_eq]
  by_cases hs : s = 0
  · obtain ⟨-, ⟨hX0, hX⟩, -⟩ := EcpGroup.onCurve_range (hE.onCurve 1 one_ne_zero)
    have hone : mpiSize 1 ≤ g.plen := mpiSize_mono (by omega)
    rw [hs, hE.zero, keyOf, mpiWriteBinary,
      if_neg (show ¬ g.plen < mpiSize ecpZero.X from Nat.not_lt.mpr hone)]
  · obtain ⟨-, ⟨hX0, hX⟩, -⟩ := EcpGroup.onCurve_range (hE.onCurve s hs)
    exact EcpGroup.mpiWriteBinary_coord hX0 hX

/-- The buffers of some points, one after the other. -/
def buffersOf (g : EcpGroup) (pt : ZMod g.N → EcpPoint) (x : Nat → ZMod g.N)
    (e : Nat) : List UInt8 :=
  (List.range e).flatMap fun j => padded (2 * g.plen + 2) (pointBytes g (pt (x j)))

omit hE in
theorem buffersOf_succ (x : Nat → ZMod g.N) (e : Nat) :
    buffersOf g pt x (e + 1) = padded (2 * g.plen + 2) (pointBytes g (pt (x 0))) ++
      buffersOf g pt (fun j => x (j + 1)) e := by
  rw [buffersOf, List.range_succ_eq_map, List.flatMap_cons, List.flatMap_map]
  rfl

/-- The loop adds each point with one less than the factor before. -/
theorem bd1Loop_ok {buflen : Nat} (hroom : g.Room buflen) {x : Nat → ZMod g.N}
    {e : Nat} {k : ZMod g.N} {rest : List UInt8} {q : EcpPoint}
    (h : bd1Loop g buflen e (buffersOf g pt x e ++ rest) (pt k) = .ok q) :
    q = pt (k + ∑ j ∈ Finset.range e, ((e - j : Nat) : ZMod g.N) * x j) := by
  induction e generalizing x k with
  | zero =>
      cases h
      rw [Finset.range_zero, Finset.sum_empty, add_zero]
  | succ e ih =>
      obtain ⟨p, hread, hp⟩ := ecpTlsReadPoint_padded hE (x 0) hroom
        (buffersOf g pt (fun j => x (j + 1)) e ++ rest)
      rw [buffersOf_succ, List.append_assoc, bd1Loop, hread] at h
      simp only [bind, Except.bind] at h
      split at h
      · cases h
      · next helper2 hmul =>
          obtain ⟨hx, rfl⟩ := ecpMul_ok hE hmul
          rw [hE.ecpAdd_pt, hp hx] at h
          rw [ih h, Finset.sum_range_succ', add_assoc]
          simp only [Nat.add_sub_add_right, Nat.sub_zero]
          rw [add_comm (_ * x 0), Int.cast_natCast]

/-- A party whose edges are worth `b 0` and `b 1`, with the differences of the
others from the next party on, gets the key of all edges. -/
theorem bd1ComputeKey_ok {n : Nat} (hn : 2 ≤ n) {b : Nat → ZMod g.N} {r : Int}
    {y : ZMod g.N} (hy : b 0 = r * y) (htwo : n = 2 → b 1 = b 0)
    {buf rest : List UInt8}
    (hbuf : buf = buffersOf g pt (fun j => b (j + 2) - b (j + 1)) (n - 2) ++ rest)
    {buflen obuflen : Nat} (hroom : g.Room buflen) {key : List UInt8}
    (h : bd1ComputeKey ⟨g, r, pt y, pt (b 1 - b 0)⟩ buf buflen n obuflen =
      .ok key) :
    key = keyOf g (pt (∑ j ∈ Finset.range n, b j)) := by
  have hown : ∀ q, g.ecpMulUnless (r * n % g.N = 0) (r * n % g.N) (pt y) = .ok q →
      q = pt (n * b 0) := by
    intro q hq
    have hcast : ((r * n % g.N : Int) : ZMod g.N) = r * n := by
      rw [ZMod.intCast_mod]
      push_cast
      rfl
    unfold EcpGroup.ecpMulUnless at hq
    split at hq
    · next hz =>
        cases hq
        rw [hz, Int.cast_zero] at hcast
        rw [hy, ← mul_assoc, mul_comm (n : ZMod g.N), ← hcast, zero_mul, hE.zero]
    · rw [(ecpMul_ok hE hq).2, hcast, hy]
      congr 1
      ring
  have hothers : ∀ q, bd1Others ⟨g, r, pt y, pt (b 1 - b 0)⟩ buf buflen n
      (pt (n * b 0)) = .ok q → q = pt (∑ j ∈ Finset.range n, b j) := by
    intro q hq
    unfold bd1Others at hq
    obtain ⟨m, rfl⟩ : ∃ m, n = m + 2 := ⟨n - 2, by omega⟩
    split at hq
    · next h2 =>
        cases hq
        obtain rfl : m = 0 := by omega
        rw [Finset.sum_range_succ, Finset.sum_range_one, htwo rfl]
        congr 1
        push_cast
        ring
    · simp only [bind, Except.bind] at hq
      split at hq
      · cases hq
      · next helper2 hmul =>
          obtain ⟨-, rfl⟩ := ecpMul_ok hE hmul
          rw [hE.ecpAdd_pt] at hq
          simp only [] at hq
          rw [hbuf] at hq
          rw [bd1Loop_ok hE hroom hq]
          have htel := telescope b (m + 1) (m + 1) (Nat.le_refl _)
          rw [Finset.sum_range_succ', Nat.sub_self, Nat.cast_zero, zero_add (1 : ZMod g.N),
            one_mul, ← Finset.sum_range_succ, Nat.sub_zero] at htel
          rw [← htel]
          congr 1
          simp only [Nat.add_sub_add_right]
          push_cast
          ring
  simp only [bd1ComputeKey, bind, Except.bind] at h
  split at h
  · cases h
  · next helper1 hmul =>
      rw [hown helper1 hmul] at h
      split at h
      · cases h
      · next q hq =>
          rw [hothers q hq] at h
          split at h
          · cases h
          · rw [mpiWriteBinary_key hE] at h
            cases h
            rfl

end Exact

end LibSmoke
