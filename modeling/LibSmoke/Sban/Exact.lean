import LibSmoke.Sban.CombMul

/-!
# The group the key exchange stands on

`EcpGroup.Exact` says what the key exchange needs of its group: the multiples of
the base point are a group of prime order and the operations compute in it. Here
it is proved of the operations themselves, for the parameters of any curve with
`ecp_mul_comb` behind `ecp_mul` (`Curve.exact`). `ecp_check_pubkey` lets through
the points of the curve and nothing else (`ecpCheckPubkey_iff`).

One group serves many calls of `ecp_mul`: the table of the base point is made in
the first of them that needs it and read in the others. Whatever the calls are,
each has the multiple for its result (`mulRun_eq`).
-/

namespace LibSmoke

namespace EcpGroup

open WeierstrassCurve

variable (g : EcpGroup)

/-! ## What multiplies -/

/-- `f` is `ecp_mul_comb` on a fresh group, with some random numbers that it can
use, and into a point that may hold anything. -/
def MulByComb (f : Int → EcpPoint → EcpPoint) : Prop :=
  ∀ m P, ∃ R draw, g.DrawOk draw ∧
    ∀ r, (g.ecpMulComb none R m P draw).1 = .ok r → f m P = r.jac

/-- The multiplication with some random numbers; it gives the point up on an
error. -/
def mulWith (draw : Option (Nat → Nat)) (m : Int) (P : EcpPoint) : EcpPoint :=
  match (g.ecpMulComb none .init m P draw).1 with
  | .ok r => r.jac
  | .error _ => CombPoint.init.jac

theorem mulByComb_mulWith {g : EcpGroup} {draw : Option (Nat → Nat)} (hd : g.DrawOk draw) :
    g.MulByComb (g.mulWith draw) := by
  intro m P
  refine ⟨.init, draw, hd, fun r hr => ?_⟩
  rw [mulWith, hr]

/-- `ecp_mul`: the result, and the table the group has after it. -/
def ecpMulKeeping (grpT : Option (List CombPoint)) (R : CombPoint) (m : Int) (P : EcpPoint)
    (draw : Option (Nat → Nat)) :
    Except SbanError CombPoint × Option (List CombPoint) :=
  if P.Z ≠ 1 then (.error .ecpBadInputData, grpT)
  else
    match g.ecpCheckPrivkey m with
    | .error e => (.error e, grpT)
    | .ok () =>
        match g.ecpCheckPubkey P with
        | .error e => (.error e, grpT)
        | .ok () => g.ecpMulComb grpT R m P draw

/-- The arguments of a call other than the group. -/
structure MulCall where
  R : CombPoint
  m : Int
  P : EcpPoint
  draw : Option (Nat → Nat)

/-- The results of the calls, each with the table the one before it left. -/
def mulRun : Option (List CombPoint) → List MulCall → List (Except SbanError CombPoint)
  | _, [] => []
  | grpT, c :: cs =>
      (g.ecpMulKeeping grpT c.R c.m c.P c.draw).1 ::
        mulRun (g.ecpMulKeeping grpT c.R c.m c.P c.draw).2 cs

variable {g} [hP : Fact g.P.Prime] {B Q Q' : g.curve.Point} {p q : EcpPoint}

/-! ## Points of the curve -/

theorem curve_equation (x y : ZMod g.P) :
    g.curve.Equation x y ↔ y ^ 2 = x ^ 3 + g.a * x + (g.B : ZMod g.P) := by
  rw [Affine.equation_iff]
  simp only [curve, Jacobian.curve]
  constructor <;> intro h <;> linear_combination h

/-- Smoothness is a matter of the discriminant modulo the prime. -/
theorem smooth_iff : g.curve.Δ ≠ 0 ↔
    ¬ (g.P : Int) ∣ -16 * (4 * (g.A.getD (-3)) ^ 3 + 27 * g.B ^ 2) := by
  have hdisc : g.curve.Δ =
      ((-16 * (4 * (g.A.getD (-3)) ^ 3 + 27 * g.B ^ 2) : Int) : ZMod g.P) := by
    simp only [WeierstrassCurve.Δ, WeierstrassCurve.b₂, WeierstrassCurve.b₄,
      WeierstrassCurve.b₆, WeierstrassCurve.b₈, curve, Jacobian.curve, a]
    push_cast
    ring
  rw [hdisc, Ne, ZMod.intCast_zmod_eq_zero_iff_dvd]

/-- The two sides `ecp_check_pubkey_sw` compares. -/
theorem ecpCheckPubkey_equation (hZ : p.Z = 1) (hX : 0 ≤ p.X ∧ p.X < g.P)
    (hY : 0 ≤ p.Y ∧ p.Y < g.P) :
    g.ecpCheckPubkey p = .ok () ↔ g.curve.Equation (p.X : ZMod g.P) (p.Y : ZMod g.P) := by
  rw [ecpCheckPubkey, if_neg (not_not.mpr hZ), if_neg (by omega), curve_equation]
  have hsides : ∀ rhs : Int, ((rhs : Int) : ZMod g.P) =
      (p.X : ZMod g.P) ^ 3 + g.a * p.X + (g.B : ZMod g.P) →
      ((if p.Y * p.Y % g.P ≠ rhs % g.P then Except.error SbanError.ecpInvalidKey
        else .ok ()) = .ok () ↔
      (p.Y : ZMod g.P) ^ 2 = (p.X : ZMod g.P) ^ 3 + g.a * p.X + (g.B : ZMod g.P)) := by
    intro rhs hrhs
    have hcmp := ZMod.intCast_eq_intCast_iff' (p.Y * p.Y) rhs g.P
    rw [hrhs, Int.cast_mul, ← sq] at hcmp
    rw [hcmp]
    by_cases heq : p.Y * p.Y % g.P = rhs % g.P <;> simp [heq]
  cases hA : g.A with
  | none =>
      refine hsides _ ?_
      simp only [a, hA, Option.getD, ZMod.intCast_mod, Int.cast_add, Int.cast_mul,
        Int.cast_sub, Int.cast_neg, Int.cast_ofNat]
      ring
  | some A =>
      refine hsides _ ?_
      simp only [a, hA, Option.getD, ZMod.intCast_mod, Int.cast_add, Int.cast_mul]
      ring

theorem ecpCheckPubkey_affine (hQ : Q ≠ 0) : g.ecpCheckPubkey (affine Q) = .ok () := by
  cases Q with
  | zero => exact absurd rfl hQ
  | some x y hxy =>
      refine (ecpCheckPubkey_equation rfl (val_range x) (val_range y)).mpr ?_
      show g.curve.Equation (((x.val : Nat) : Int) : ZMod g.P) (((y.val : Nat) : Int) : ZMod g.P)
      rw [cast_val, cast_val]
      exact hxy.1

/-- The check lets through the points of a smooth curve, other than zero, in
affine coordinates. -/
theorem ecpCheckPubkey_iff (hsmooth : g.curve.Δ ≠ 0) :
    g.ecpCheckPubkey p = .ok () ↔ ∃ Q : g.curve.Point, Q ≠ 0 ∧ p = affine Q := by
  constructor
  · intro h
    obtain ⟨hZ, hX, hY⟩ := onCurve_range h
    have heq := (ecpCheckPubkey_equation hZ hX hY).mp h
    have hxy := (Affine.equation_iff_nonsingular_of_Δ_ne_zero hsmooth).mp heq
    refine ⟨.some _ _ hxy, Affine.Point.some_ne_zero hxy, ?_⟩
    obtain ⟨X, Y, Z⟩ := p
    dsimp only at hZ
    subst hZ
    show _ = EcpPoint.mk _ _ _
    rw [val_cast hX, val_cast hY]
  · rintro ⟨Q, hQ, rfl⟩
    exact ecpCheckPubkey_affine hQ

/-! ## The operations on affine points -/

theorem ecpOpp_affine (hQ : Q ≠ 0) : g.ecpOpp (affine Q) = affine (-Q) := (affine_neg hQ).symm

/-- A point that is not its own opposite: the sums are the affine coordinates,
zero as `ecp_set_zero` writes it among them. -/
theorem ecpAdd_affine (h2 : g.P ≠ 2) (hQ : Q ≠ 0) (hQ' : Q' ≠ 0) (hne : Q ≠ -Q) :
    g.ecpAdd (affine Q) (affine Q') = .ok (affine (Q + Q')) := by
  rw [ecpAdd]
  by_cases hsum : Q + Q' = 0
  · have hopp : Q' = -Q := (neg_eq_of_add_eq_zero_right hsum).symm
    have hadd := (Holds.affine Q).addMixed_neg (q := affine Q')
      (by rw [← hopp]; exact .affine Q') (by rw [affine_Z hQ]; decide) (affine_Z hQ') hne
    rw [hadd, hsum]
    rfl
  · obtain ⟨r, hr, hholds⟩ :=
      (Holds.affine Q).addMixed h2 (.affine Q') (.inr (affine_Z hQ'))
    simp only [hr, bind, Except.bind, hholds.normalize, if_neg hsum]

theorem Torsion.ne_neg (h : Torsion Q) (hN : g.N ≠ 2) : Q ≠ -Q := by
  intro heq
  have htwo := h.double_ne_zero hN (k := 1) (by rw [one_zsmul]; exact h.ne)
  rw [mul_one, two_zsmul] at htwo
  refine htwo ?_
  nth_rewrite 1 [heq]
  exact neg_add_cancel Q

/-- The multiples of a point of the order of the group have that order. -/
theorem Torsion.zsmul (h : Torsion Q) {k : Int} (hk : k • Q ≠ 0) : Torsion (k • Q) :=
  ⟨h.prime, hk, by rw [← natCast_zsmul, zsmul_comm, natCast_zsmul, h.smul, zsmul_zero]⟩

/-! ## The multiples of the base point -/

/-- `s` times the base point. -/
def multiple (B : g.curve.Point) (s : ZMod g.N) : EcpPoint := affine ((s.val : Int) • B)

theorem zsmul_val (h : Torsion B) (k : Int) : (((k : ZMod g.N).val : Nat) : Int) • B = k • B := by
  have hne : NeZero g.N := ⟨h.prime.ne_zero⟩
  rw [ZMod.val_intCast]
  have hdiv := Int.emod_add_mul_ediv k g.N
  calc (k % g.N) • B = (k % g.N) • B + (g.N * (k / g.N)) • B := by
        rw [mul_comm, mul_zsmul, natCast_zsmul, h.smul, zsmul_zero, add_zero]
    _ = k • B := by rw [← add_zsmul, hdiv]

theorem multiple_eq (h : Torsion B) {s : ZMod g.N} {k : Int} (hk : (k : ZMod g.N) = s) :
    multiple B s = affine (k • B) := by
  rw [multiple, ← hk, zsmul_val h]

theorem val_zsmul_ne_zero (h : Torsion B) {s : ZMod g.N} (hs : s ≠ 0) :
    (s.val : Int) • B ≠ 0 := by
  have hne : NeZero g.N := ⟨h.prime.ne_zero⟩
  refine h.zsmul_ne_zero ?_ ?_
  · have := (ZMod.val_ne_zero s).mpr hs
    omega
  · have := ZMod.val_lt s
    omega

/-- The operations compute in the multiples of the base point. -/
theorem Curve.exact (h : Curve g B) {f : Int → EcpPoint → EcpPoint} (hf : g.MulByComb f) :
    ({ g with mulComb := f } : EcpGroup).Exact (multiple (g := g) B) := by
  have hN := h.order_odd
  have hB := h.torsion
  have hcast : ∀ s : ZMod g.N, (((s.val : Nat) : Int) : ZMod g.N) = s := by
    intro s
    have hne : NeZero g.N := ⟨hB.prime.ne_zero⟩
    rw [Int.cast_natCast, ZMod.natCast_val, ZMod.cast_id', id]
  refine ⟨hB.prime, ?_, ?_, fun s hs => ?_, fun s hs => ?_, fun s t hs ht => ?_,
    fun m s h0 hlt hs => ?_⟩
  · show multiple (g := g) B 0 = ecpZero
    rw [multiple_eq hB (k := 0) Int.cast_zero, zero_zsmul]
    rfl
  · show multiple (g := g) B 1 = g.G
    rw [multiple_eq hB (k := 1) Int.cast_one, one_zsmul, h.base]
  · exact ecpCheckPubkey_affine (val_zsmul_ne_zero hB hs)
  · show g.ecpOpp (multiple (g := g) B s) = multiple (g := g) B (-s)
    rw [multiple_eq hB (s := -s) (k := -(s.val : Int)) (by rw [Int.cast_neg, hcast]), neg_zsmul]
    exact ecpOpp_affine (val_zsmul_ne_zero hB hs)
  · have hs' := val_zsmul_ne_zero hB hs
    show g.ecpAdd (multiple (g := g) B s) (multiple (g := g) B t) =
      .ok (multiple (g := g) B (s + t))
    rw [multiple_eq hB (s := s + t) (k := (s.val : Int) + t.val)
      (by rw [Int.cast_add, hcast, hcast]), add_zsmul]
    exact ecpAdd_affine h.odd hs' (val_zsmul_ne_zero hB ht) ((hB.zsmul hs').ne_neg hN)
  · show f m (multiple (g := g) B s) = multiple (g := g) B (m * s)
    obtain ⟨R, draw, hd, hR⟩ := hf m (multiple (g := g) B s)
    obtain ⟨grpT', heq, -⟩ := ecpMulComb_eq (R := R) h (hB.zsmul (val_zsmul_ne_zero hB hs))
      (cacheOk_none B) h0 hlt hd
    rw [hR _ (congrArg Prod.fst heq), multiple_eq hB (k := m * s.val)
      (by rw [Int.cast_mul, hcast]), mul_zsmul]
    rfl

/-! ## Calls one after the other -/

/-- A factor out of range is refused, another one multiplies. -/
theorem ecpMulKeeping_eq (h : Curve g B) (hQ : Torsion Q) {grpT : Option (List CombPoint)}
    (hcache : CacheOk B grpT) (R : CombPoint) (m : Int) {draw : Option (Nat → Nat)}
    (hd : g.DrawOk draw) :
    ∃ grpT', g.ecpMulKeeping grpT R m (affine Q) draw =
      (if m < 1 ∨ m ≥ g.N then .error .ecpInvalidKey
        else .ok (.ofPoint (affine (m • Q))), grpT') ∧ CacheOk B grpT' := by
  rw [ecpMulKeeping, if_neg (not_not.mpr (affine_Z hQ.ne)), ecpCheckPrivkey]
  by_cases hm : m < 1 ∨ m ≥ g.N
  · rw [if_pos hm, if_pos hm]
    exact ⟨grpT, rfl, hcache⟩
  · rw [if_neg hm, if_neg hm, ecpCheckPubkey_affine hQ.ne]
    exact ecpMulComb_eq h hQ hcache (by omega) (by omega) hd

/-- What a call on a point is for. -/
def MulCall.value (c : MulCall) (Q : g.curve.Point) : Except SbanError CombPoint :=
  if c.m < 1 ∨ c.m ≥ g.N then .error .ecpInvalidKey else .ok (.ofPoint (affine (c.m • Q)))

/-- Whatever was called before, and with whatever random numbers it can use, a factor in
range multiplies its point, and another one is refused. -/
theorem mulRun_eq (h : Curve g B) {calls : List MulCall} {Qs : List g.curve.Point}
    (hcalls : List.Forall₂ (fun c Q => g.DrawOk c.draw ∧ Torsion Q ∧ c.P = affine Q)
      calls Qs) : g.mulRun none calls = List.zipWith MulCall.value calls Qs := by
  have hrun : ∀ grpT, CacheOk B grpT →
      g.mulRun grpT calls = List.zipWith MulCall.value calls Qs := by
    induction hcalls with
    | nil => exact fun _ _ => rfl
    | cons hc _ ih =>
        intro grpT hcache
        obtain ⟨hd, hQ, hP⟩ := hc
        obtain ⟨grpT', heq, hcache'⟩ := ecpMulKeeping_eq h hQ hcache _ _ hd
        rw [mulRun, List.zipWith_cons_cons, hP, heq]
        exact congrArg _ (ih grpT' hcache')
  exact hrun none (cacheOk_none B)

end EcpGroup

end LibSmoke
