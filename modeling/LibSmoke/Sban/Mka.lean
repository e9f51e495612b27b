import LibSmoke.Sban.Ecp

/-!
# One party of the group key exchange

`mka.c` as it stands: a party draws its scalar, and then in every round
broadcasts a point and takes in the points of all others. From the second round
on the point it broadcasts is its scalar times what it held, and this is also
what it holds from then on, so what the next accumulation takes off is what was
broadcast. The last round leaves the round counter where it is.

On an exact group each call is one step of arithmetic on scalars, or fails at
the zero point.
-/

namespace LibSmoke

structure MkaContext where
  grp : EcpGroup
  a : Int
  k : EcpPoint
  key : Int
  n : Nat
  r : Nat

/-- `mka_init`; it does not write `n` and `r`. -/
def mkaInit (grp : EcpGroup) : MkaContext := ⟨grp, 0, ⟨0, 0, 0⟩, 0, 0, 0⟩

def mkaSetPart (ctx : MkaContext) (n : Nat) (draw : Nat → Nat) :
    Except SbanError MkaContext :=
  if n < 2 then .error .badInputData
  else do
    let (a, k) ← ctx.grp.ecpGenKeypair draw
    .ok { ctx with r := 0, n := n, a := a, k := k }

def mkaMakeBroadval (ctx : MkaContext) (buflen : Nat) :
    Except SbanError (MkaContext × List UInt8) :=
  if ctx.r + 2 > ctx.n then .error .maxRoundNumberExceeded
  else if ctx.r = 0 then do
    let buf ← ctx.grp.ecpTlsWritePoint ctx.k buflen
    .ok (ctx, buf)
  else do
    let tmp ← ctx.grp.ecpMul ctx.a ctx.k
    let buf ← ctx.grp.ecpTlsWritePoint tmp buflen
    .ok ({ ctx with k := tmp }, buf)

/-- The loop of `mka_acc_broadval`: `i` records are still to be read. -/
def sumLoop (g : EcpGroup) (buflen : Nat) :
    Nat → List UInt8 → EcpPoint → Except SbanError EcpPoint
  | 0, _, sum => .ok sum
  | i + 1, p, sum => do
      let (tmp1, p) ← g.ecpTlsReadPoint p buflen
      let sum ← g.ecpAdd sum tmp1
      sumLoop g buflen i p sum

/-- The part of `mka_acc_broadval` between the loop and the division. -/
def ownPartOff (ctx : MkaContext) (sum : EcpPoint) :
    Except SbanError EcpPoint :=
  if ctx.r > 0 then do
    let tmp2 ← ctx.grp.ecpMul ctx.r (ctx.grp.ecpOpp ctx.k)
    ctx.grp.ecpAdd sum tmp2
  else .ok sum

def mkaAccBroadval (ctx : MkaContext) (buf : List UInt8) :
    Except SbanError MkaContext :=
  if ctx.r + 2 > ctx.n then .error .maxRoundNumberExceeded
  else do
    let sum ← sumLoop ctx.grp buf.length (ctx.n - 1) buf ecpZero
    let tmp1 ← ownPartOff ctx sum
    let e ← mpiInvMod (ctx.r + 1) ctx.grp.N
    let k ← ctx.grp.ecpMul e tmp1
    .ok { ctx with
      k := k
      r := if ctx.r + 2 < ctx.n then ctx.r + 1 else ctx.r }

/-- The bytes of a key. -/
def EcpGroup.keyLen (g : EcpGroup) : Nat :=
  mpiMsb g.P / 8 + (if mpiMsb g.P % 8 ≠ 0 then 1 else 0)

def mkaComputeKey (ctx : MkaContext) (buflen : Nat) :
    Except SbanError (MkaContext × List UInt8) :=
  if ctx.r + 2 > ctx.n then .error .maxRoundNumberExceeded
  else if ctx.r + 2 < ctx.n then .error .roundNotCompleted
  else do
    let tmp ← ctx.grp.ecpMul ctx.a ctx.k
    let ctx := { ctx with key := tmp.X }
    if mpiSize ctx.key > buflen then .error .bufferTooShort
    else do
      let buf ← mpiWriteBinary ctx.key ctx.grp.keyLen
      .ok (ctx, buf)

/-! ## The calls on an exact group -/

section Exact

variable {g : EcpGroup} {pt : ZMod g.N → EcpPoint} (hE : g.Exact pt)

theorem drawScalar_range {draw : Nat → Nat} {count i : Nat} {d : Int}
    (h : g.drawScalar draw count i = .ok d) : 0 < d ∧ d < g.N := by
  induction count generalizing i with
  | zero => cases h
  | succ count ih =>
      rw [EcpGroup.drawScalar] at h
      split at h
      · exact ih h
      · cases h
        omega

include hE

/-- A party that drew `a` holds `a` times the base point. -/
theorem mkaSetPart_pt {n : Nat} (hn : 2 ≤ n) {draw : Nat → Nat} {a : Int}
    (hdraw : g.drawScalar draw 30 0 = .ok a) :
    mkaSetPart (mkaInit g) n draw = .ok ⟨g, a, pt a, 0, n, 0⟩ := by
  obtain ⟨h0, ha⟩ := drawScalar_range hdraw
  have := Fact.mk hE.prime
  rw [mkaSetPart, if_neg (by omega), EcpGroup.ecpGenKeypair]
  simp only [mkaInit]
  rw [hdraw, ← hE.base]
  simp only [bind, Except.bind]
  rw [hE.ecpMul_pt h0 ha one_ne_zero, mul_one]

/-- What a party that holds `x` sends in round `r`. -/
def sends {N : Nat} (a : Int) (r : Nat) (x : ZMod N) : ZMod N :=
  if r = 0 then x else a * x

omit hE in
theorem sends_ne_zero (hE : g.Exact pt) {a : Int} (h0 : 0 < a) (ha : a < g.N)
    (r : Nat) {x : ZMod g.N} (hx : x ≠ 0) : sends a r x ≠ 0 := by
  unfold sends
  split
  · exact hx
  · exact hE.scalar_ne_zero (EcpGroup.Exact.cast_ne_zero h0 ha) hx

theorem mkaMakeBroadval_pt {a : Int} (h0 : 0 < a) (ha : a < g.N) {x : ZMod g.N}
    (hx : x ≠ 0) {key : Int} {n r buflen : Nat} (hr : r + 2 ≤ n)
    (hlen : 2 * g.plen + 2 ≤ buflen) :
    mkaMakeBroadval ⟨g, a, pt x, key, n, r⟩ buflen =
      .ok (⟨g, a, pt (sends a r x), key, n, r⟩, g.record (pt (sends a r x))) := by
  have hs := sends_ne_zero hE h0 ha r hx
  have hwrite := EcpGroup.ecpTlsWritePoint_onCurve (hE.onCurve _ hs) hlen
  rw [mkaMakeBroadval, if_neg (by exact Nat.not_lt.mpr hr)]
  simp only []
  unfold sends at hwrite ⊢
  split
  · next h0 =>
      rw [if_pos h0] at hwrite
      rw [hwrite]
      rfl
  · next h0 =>
      rw [if_neg h0] at hwrite
      rw [hE.ecpMul_pt ‹_› ha hx]
      simp only [bind, Except.bind]
      rw [hwrite]

theorem mkaMakeBroadval_short {a : Int} {x : ZMod g.N} (hx : x ≠ 0)
    {key : Int} {n buflen : Nat} (hlen : buflen < 2 * g.plen + 2) :
    ∃ e, mkaMakeBroadval ⟨g, a, pt x, key, n, 0⟩ buflen = .error e := by
  obtain ⟨e, he⟩ := EcpGroup.ecpTlsWritePoint_short (hE.onCurve x hx) hlen
  rw [mkaMakeBroadval]
  split
  · exact ⟨_, rfl⟩
  · rw [if_pos rfl]
    simp only []
    rw [he]
    exact ⟨e, rfl⟩

/-- The records of some points, one after the other. -/
def recordsOf (g : EcpGroup) (pt : ZMod g.N → EcpPoint)
    (ys : List (ZMod g.N)) : List UInt8 :=
  ys.flatMap fun y => g.record (pt y)

omit hE in
@[simp] theorem recordsOf_length (ys : List (ZMod g.N)) :
    (recordsOf g pt ys).length = ys.length * (2 * g.plen + 2) := by
  induction ys with
  | nil => simp [recordsOf]
  | cons y ys ih =>
      rw [recordsOf, List.flatMap_cons, List.length_append,
        EcpGroup.record_length]
      rw [recordsOf] at ih
      rw [ih, List.length_cons]
      ring

theorem sumLoop_records {ys : List (ZMod g.N)} (hys : ∀ y ∈ ys, y ≠ 0)
    {buflen : Nat} (hroom : g.Room buflen) (s : ZMod g.N) :
    sumLoop g buflen ys.length (recordsOf g pt ys) (pt s) =
      .ok (pt (s + ys.sum)) := by
  induction ys generalizing s with
  | nil => rw [List.sum_nil, add_zero]; rfl
  | cons y ys ih =>
      have hy := hE.onCurve y (hys y List.mem_cons_self)
      rw [List.length_cons, sumLoop, recordsOf, List.flatMap_cons,
        EcpGroup.ecpTlsReadPoint_record hy hroom]
      simp only [bind, Except.bind]
      rw [hE.ecpAdd_pt]
      simp only []
      rw [List.sum_cons, ← add_assoc]
      exact ih (fun z hz => hys z (List.mem_cons_of_mem y hz)) (s + y)

/-- What is taken off the sum: nothing in the first round, and then `r` times
what the party holds. -/
theorem ownPartOff_pt {y : ZMod g.N} (hy : y ≠ 0) {a key : Int} {n r : Nat}
    (hr : r < g.N) (s : ZMod g.N) :
    ownPartOff ⟨g, a, pt y, key, n, r⟩ (pt s) = .ok (pt (s - r * y)) := by
  rw [ownPartOff]
  simp only []
  split
  · next h =>
      rw [hE.opp y hy, hE.ecpMul_pt (by omega) (by omega) (neg_ne_zero.mpr hy)]
      simp only [bind, Except.bind]
      rw [hE.ecpAdd_pt, Int.cast_natCast, mul_neg, ← sub_eq_add_neg]
  · next h =>
      obtain rfl : r = 0 := by omega
      rw [Nat.cast_zero, zero_mul, sub_zero]

omit hE in
/-- The inverse of a round number as a scalar. -/
theorem mpiInvMod_round (hE : g.Exact pt) {r : Nat} (hr : r + 1 < g.N) :
    ∃ e, mpiInvMod (r + 1) g.N = .ok e ∧ 0 < e ∧ e < g.N ∧
      (e : ZMod g.N) * (r + 1) = 1 := by
  have hN := hE.prime.two_le
  have hgcd : Int.gcd (r + 1) g.N = 1 := by
    have hcop := (Nat.coprime_of_lt_prime (by omega) hr hE.prime).symm
    exact_mod_cast hcop
  obtain ⟨e, he, h0, hlt, hmul⟩ := mpiInvMod_ok (by omega) hgcd
  have hcast : (e : ZMod g.N) * (r + 1) = 1 := by
    have h := (ZMod.intCast_eq_intCast_iff ((r + 1) * e) 1 g.N).mpr hmul
    push_cast at h
    rw [mul_comm]
    exact h
  refine ⟨e, he, ?_, hlt, hcast⟩
  have := Fact.mk hE.prime
  rcases Int.lt_or_eq_of_le h0 with h | h
  · exact h
  · rw [← h, Int.cast_zero, zero_mul] at hcast
    exact absurd hcast zero_ne_one

/-- A party that holds `y` and gets `ys` in round `r` holds afterwards that
scalar which, times `r + 1`, is the sum of `ys` less `r` times `y`; it fails if
this is zero. -/
theorem mkaAccBroadval_pt {y z : ZMod g.N} (hy : y ≠ 0)
    {ys : List (ZMod g.N)} (hys : ∀ y ∈ ys, y ≠ 0) {a key : Int} {n r : Nat}
    (hn : ys.length + 1 = n) (hr : r + 2 ≤ n) (hnN : n < g.N)
    (hroom : g.Room (2 * g.plen + 2))
    (hz : ys.sum - r * y = (r + 1) * z) :
    mkaAccBroadval ⟨g, a, pt y, key, n, r⟩ (recordsOf g pt ys) =
      if z = 0 then .error .ecpBadInputData
      else .ok ⟨g, a, pt z, key, n, if r + 2 < n then r + 1 else r⟩ := by
  have hroom' : g.Room (recordsOf g pt ys).length := by
    refine ⟨?_, hroom.2⟩
    rw [recordsOf_length]
    exact Nat.le_mul_of_pos_left _ (by omega)
  have hsum := sumLoop_records hE hys hroom' 0
  rw [hE.zero, show ys.length = n - 1 by omega, zero_add] at hsum
  obtain ⟨e, he, h0, hlt, hmul⟩ := mpiInvMod_round hE (r := r) (by omega)
  have hoff : ownPartOff ⟨g, a, pt y, key, n, r⟩ (pt ys.sum) = _ :=
    ownPartOff_pt hE hy (by omega) ys.sum
  rw [mkaAccBroadval, if_neg (by exact Nat.not_lt.mpr hr)]
  simp only []
  rw [hsum]
  simp only [bind, Except.bind]
  rw [hoff, he, hz]
  simp only []
  rw [hE.ecpMul_rep h0 hlt, ← mul_assoc, hmul, one_mul]
  have := Fact.mk hE.prime
  have hr1 : ((r : ZMod g.N) + 1) ≠ 0 := right_ne_zero_of_mul_eq_one hmul
  by_cases hz0 : z = 0
  · rw [if_pos hz0, if_pos (by rw [hz0, mul_zero])]
  · rw [if_neg hz0, if_neg (mul_ne_zero hr1 hz0)]

omit hE in
theorem mkaAccBroadval_long {x y : ZMod g.N} {ys : List (ZMod g.N)}
    {a key : Int} {n r : Nat} (hn : 2 ≤ n) (hlong : 256 ≤ 2 * g.plen + 1) :
    ∃ e, mkaAccBroadval ⟨g, a, pt x, key, n, r⟩ (recordsOf g pt (y :: ys)) =
      .error e := by
  rw [mkaAccBroadval]
  split
  · exact ⟨_, rfl⟩
  · obtain ⟨m, hm⟩ : ∃ m, n - 1 = m + 1 := ⟨n - 2, by omega⟩
    obtain ⟨e, he⟩ := g.ecpTlsReadPoint_long (pt y) hlong (recordsOf g pt ys)
      (recordsOf g pt (y :: ys)).length
    simp only []
    rw [hm, sumLoop, show recordsOf g pt (y :: ys) =
      g.record (pt y) ++ recordsOf g pt ys from rfl] at *
    rw [he]
    exact ⟨e, rfl⟩

/-! ### The key -/

/-- The key of a point: its first coordinate in full length. -/
def keyOf (g : EcpGroup) (p : EcpPoint) : List UInt8 :=
  beBytes g.plen p.X.natAbs

omit hE in
theorem keyLen_eq (g : EcpGroup) : g.keyLen = g.plen := by
  rw [EcpGroup.keyLen, EcpGroup.plen, mpiSize]
  split <;> omega

theorem mkaComputeKey_pt {a : Int} (h0 : 0 < a) (ha : a < g.N) {x : ZMod g.N}
    (hx : x ≠ 0) {key : Int} {n r : Nat} (hr : r + 2 = n) (buflen : Nat) :
    mkaComputeKey ⟨g, a, pt x, key, n, r⟩ buflen =
      if mpiSize (pt (a * x)).X > buflen then .error .bufferTooShort
      else .ok (⟨g, a, pt x, (pt (a * x)).X, n, r⟩, keyOf g (pt (a * x))) := by
  have hax : (a : ZMod g.N) * x ≠ 0 :=
    hE.scalar_ne_zero (EcpGroup.Exact.cast_ne_zero h0 ha) hx
  obtain ⟨-, ⟨hX0, hX⟩, -⟩ := EcpGroup.onCurve_range (hE.onCurve _ hax)
  rw [mkaComputeKey, if_neg (by exact Nat.not_lt.mpr (Nat.le_of_eq hr)),
    if_neg (by exact Nat.not_lt.mpr (Nat.le_of_eq hr.symm))]
  simp only []
  rw [hE.ecpMul_pt h0 ha hx]
  simp only [bind, Except.bind]
  rw [keyLen_eq, EcpGroup.mpiWriteBinary_coord hX0 hX]
  rfl

end Exact

end LibSmoke
