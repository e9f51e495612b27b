import LibSmoke.Lib.Jacobian
import LibSmoke.Sban.Ecp

/-!
# The points of the curve as a group

Big numbers below the prime stand for the elements of its field, and what
`ecp_double_jac`, `ecp_add_mixed` and `ecp_normalize_jac` compute with them is
the group law, special cases included: for any coordinates of two points, the
results are coordinates of the sum.
-/

namespace LibSmoke

namespace EcpGroup

open WeierstrassCurve

variable (g : EcpGroup)

/-- The coefficient `A` of the curve. -/
def a : ZMod g.P := (g.A.getD (-3) : Int)

def curve [Fact g.P.Prime] : Affine (ZMod g.P) := Jacobian.curve g.a (g.B : ZMod g.P)

/-- The coordinates in the field. -/
def coords (p : EcpPoint) : Jacobian.Coords (ZMod g.P) := ⟨p.X, p.Y, p.Z⟩

/-- Each coordinate is below the prime. -/
def Reduced (p : EcpPoint) : Prop :=
  (0 ≤ p.X ∧ p.X < g.P) ∧ (0 ≤ p.Y ∧ p.Y < g.P) ∧ 0 ≤ p.Z ∧ p.Z < g.P

variable {g} [hP : Fact g.P.Prime]

/-- `p` holds coordinates of the point. -/
structure Holds (Q : g.curve.Point) (p : EcpPoint) : Prop where
  reduced : g.Reduced p
  stands : Jacobian.Stands Q (g.coords p)

theorem modulus_pos : (0 : Int) < g.P := by exact_mod_cast hP.out.pos

theorem reduced_mod (x : Int) : 0 ≤ x % g.P ∧ x % g.P < g.P :=
  ⟨Int.emod_nonneg _ modulus_pos.ne', Int.emod_lt_of_pos _ modulus_pos⟩

/-- A reduced number is zero where its element is. -/
theorem cast_eq_zero {x : Int} (h : 0 ≤ x ∧ x < g.P) : (x : ZMod g.P) = 0 ↔ x = 0 := by
  rw [ZMod.intCast_zmod_eq_zero_iff_dvd]
  constructor
  · exact fun hdvd => Int.eq_zero_of_dvd_of_nonneg_of_lt h.1 h.2 hdvd
  · intro hx
    rw [hx]
    exact Int.dvd_zero _

theorem mod_spec (x : Int) : ∃ y, x % g.P = y ∧ (0 ≤ y ∧ y < g.P) ∧ (y : ZMod g.P) = x :=
  ⟨x % g.P, rfl, reduced_mod x, ZMod.intCast_mod x g.P⟩

/-- A product that is not negative is reduced. -/
theorem modMul_spec {x : Int} (h : 0 ≤ x) :
    ∃ y, g.modMul x = .ok y ∧ (0 ≤ y ∧ y < g.P) ∧ (y : ZMod g.P) = x := by
  obtain ⟨y, hy, hred, hcast⟩ := mod_spec (g := g) x
  exact ⟨y, by rw [modMul_eq h, hy], hred, hcast⟩

theorem cast_inj {x y : Int} (hx : 0 ≤ x ∧ x < g.P) (hy : 0 ≤ y ∧ y < g.P)
    (h : (x : ZMod g.P) = y) : x = y := by
  have h := (ZMod.intCast_eq_intCast_iff' x y g.P).mp h
  rwa [Int.emod_eq_of_lt hx.1 hx.2, Int.emod_eq_of_lt hy.1 hy.2] at h

namespace Holds

variable {Q Q' : g.curve.Point} {p q : EcpPoint}

theorem zero_iff (h : Holds Q p) : Q = 0 ↔ p.Z = 0 :=
  h.stands.zero_iff.trans (cast_eq_zero h.reduced.2.2)

theorem nonneg (h : Holds Q p) : 0 ≤ p.X ∧ 0 ≤ p.Y := ⟨h.reduced.1.1, h.reduced.2.1.1⟩

theorem unique (h : Holds Q p) (h' : Holds Q' p) : Q = Q' := h.stands.unique h'.stands

theorem zero : Holds (0 : g.curve.Point) ecpZero := by
  have hP := hP.out.two_le
  refine ⟨⟨?_, ?_, ?_⟩, ?_⟩
  · exact ⟨by decide, by show (1 : Int) < g.P; omega⟩
  · exact ⟨by decide, by show (1 : Int) < g.P; omega⟩
  · exact ⟨by decide, by show (0 : Int) < g.P; omega⟩
  · show ((0 : Int) : ZMod g.P) = 0
    exact Int.cast_zero

theorem double (h2 : g.P ≠ 2) (h : Holds Q p) : Holds (Q + Q) (g.ecpDoubleJac p) := by
  refine ⟨⟨reduced_mod _, reduced_mod _, reduced_mod _⟩, ?_⟩
  have htwo : (2 : ZMod g.P) ≠ 0 := by
    intro h
    have hdvd := (ZMod.natCast_eq_zero_iff 2 g.P).mp (by exact_mod_cast h)
    have := Nat.le_of_dvd (by decide) hdvd
    have := hP.out.two_le
    omega
  have hcoords : g.coords (g.ecpDoubleJac p) = (g.coords p).double g.a := by
    cases hA : g.A with
    | none =>
        simp only [coords, ecpDoubleJac, hA, Jacobian.Coords.double, a, Option.getD,
          ZMod.intCast_mod, Int.cast_mul, Int.cast_add, Int.cast_sub, Int.cast_neg,
          Int.cast_ofNat, Jacobian.Coords.mk.injEq]
        refine ⟨?_, ?_, ?_⟩ <;> ring
    | some A =>
        simp only [coords, ecpDoubleJac, hA, Jacobian.Coords.double, a, Option.getD,
          ZMod.intCast_mod, Int.cast_mul, Int.cast_add, Int.cast_sub,
          Int.cast_ofNat, Jacobian.Coords.mk.injEq]
        refine ⟨?_, ?_, ?_⟩ <;> ring
  rw [hcoords]
  exact h.stands.double htwo

/-- The point coordinates with `Z` one stand for. -/
theorem exists_affine (h : Holds Q q) (hZ : q.Z = 1) :
    ∃ hxy : g.curve.Nonsingular (q.X : ZMod g.P) (q.Y : ZMod g.P),
      Q = .some (q.X : ZMod g.P) (q.Y : ZMod g.P) hxy := by
  have hone : (q.Z : ZMod g.P) = 1 := by rw [hZ, Int.cast_one]
  cases Q with
  | zero =>
      have hzero : (q.Z : ZMod g.P) = 0 := h.stands
      exact absurd (hone.symm.trans hzero) one_ne_zero
  | some x y hxy =>
      obtain ⟨-, hX, hY⟩ := Jacobian.stands_some.mp h.stands
      simp only [coords, hone, one_pow, mul_one] at hX hY
      subst hX hY
      exact ⟨hxy, rfl⟩

/-- What the two tests of `ecp_add_mixed` look at, and the sum after them. -/
theorem ecpAddMixed_tests (h : Holds Q p) (hp0 : p.Z ≠ 0) (hq1 : q.Z = 1)
    (hq : 0 ≤ q.X ∧ 0 ≤ q.Y)
    (hxy : g.curve.Nonsingular (q.X : ZMod g.P) (q.Y : ZMod g.P)) :
    ∃ (H R : Int) (r : EcpPoint),
      (H = 0 ↔ Q = .some (q.X : ZMod g.P) (q.Y : ZMod g.P) hxy ∨
        Q = -.some (q.X : ZMod g.P) (q.Y : ZMod g.P) hxy) ∧
      (H = 0 ∧ R = 0 ↔ Q = .some (q.X : ZMod g.P) (q.Y : ZMod g.P) hxy) ∧
      (H ≠ 0 → Holds (Q + .some (q.X : ZMod g.P) (q.Y : ZMod g.P) hxy) r) ∧
      g.ecpAddMixed p q = if H = 0 then
        if R = 0 then .ok (g.ecpDoubleJac p) else .ok ecpZero else .ok r := by
  have hQ : Q ≠ 0 := fun hQ => hp0 (h.zero_iff.mp hQ)
  obtain ⟨⟨hpX, -⟩, ⟨hpY, -⟩, hpZ, -⟩ := h.reduced
  -- the products in their order, none of them negative
  obtain ⟨ZZ, hZZ, hZZr, hZZc⟩ := modMul_spec (g := g) (mul_nonneg hpZ hpZ)
  obtain ⟨ZZZ, hZZZ, hZZZr, hZZZc⟩ := modMul_spec (g := g) (mul_nonneg hZZr.1 hpZ)
  obtain ⟨U, hU, -, hUc⟩ := modMul_spec (g := g) (mul_nonneg hZZr.1 hq.1)
  obtain ⟨S, hS, -, hSc⟩ := modMul_spec (g := g) (mul_nonneg hZZZr.1 hq.2)
  obtain ⟨H, hH, hHr, hHc⟩ := mod_spec (g := g) (U - p.X)
  obtain ⟨R, hR, hRr, hRc⟩ := mod_spec (g := g) (S - p.Y)
  obtain ⟨Z, hZ, hZr, hZc⟩ := modMul_spec (g := g) (mul_nonneg hpZ hHr.1)
  obtain ⟨HH, hHH, hHHr, hHHc⟩ := modMul_spec (g := g) (mul_nonneg hHr.1 hHr.1)
  obtain ⟨HHH, hHHH, hHHHr, hHHHc⟩ := modMul_spec (g := g) (mul_nonneg hHHr.1 hHr.1)
  obtain ⟨V, hV, hVr, hVc⟩ := modMul_spec (g := g) (mul_nonneg hHHr.1 hpX)
  obtain ⟨RR, hRR, -, hRRc⟩ := modMul_spec (g := g) (mul_nonneg hRr.1 hRr.1)
  obtain ⟨X, hX, hXr, hXc⟩ := mod_spec (g := g) ((RR - V * 2 % g.P) % g.P - HHH)
  obtain ⟨D, hD, hDr, hDc⟩ := mod_spec (g := g) (V - X)
  obtain ⟨DR, hDR, -, hDRc⟩ := modMul_spec (g := g) (mul_nonneg hDr.1 hRr.1)
  obtain ⟨YH, hYH, -, hYHc⟩ := modMul_spec (g := g) (mul_nonneg hHHHr.1 hpY)
  obtain ⟨Y, hY, hYr, hYc⟩ := mod_spec (g := g) (DR - YH)
  have hHc : (H : ZMod g.P) = q.X * (p.Z : ZMod g.P) ^ 2 - p.X := by
    rw [hHc, Int.cast_sub, hUc, Int.cast_mul, hZZc, Int.cast_mul]
    ring
  have hRc : (R : ZMod g.P) = q.Y * (p.Z : ZMod g.P) ^ 3 - p.Y := by
    rw [hRc, Int.cast_sub, hSc, Int.cast_mul, hZZZc, Int.cast_mul, hZZc, Int.cast_mul]
    ring
  have hH0 : H = 0 ↔ (q.X * (p.Z : ZMod g.P) ^ 2 - p.X = 0) := by
    rw [← hHc]
    exact (cast_eq_zero hHr).symm
  have hR0 : R = 0 ↔ (q.Y * (p.Z : ZMod g.P) ^ 3 - p.Y = 0) := by
    rw [← hRc]
    exact (cast_eq_zero hRr).symm
  refine ⟨H, R, ⟨X, Y, Z⟩, hH0.trans (h.stands.abscissa hQ), ?_, fun hx => ?_, ?_⟩
  · rw [hH0, hR0]
    exact (h.stands.eq_iff hQ).symm
  · refine ⟨⟨hXr, hYr, hZr⟩, ?_⟩
    have hXc : (X : ZMod g.P) = (R : ZMod g.P) ^ 2 - 2 * ((H : ZMod g.P) ^ 2 * p.X) -
        (H : ZMod g.P) ^ 3 := by
      simp only [hXc, ZMod.intCast_mod, Int.cast_sub, Int.cast_mul, Int.cast_ofNat, hRRc, hVc,
        hHHHc, hHHc]
      ring
    have hcoords : g.coords ⟨X, Y, Z⟩ = (g.coords p).addMixed q.X q.Y := by
      simp only [coords, Jacobian.Coords.addMixed, ← hHc, ← hRc, hXc, hYc, hZc, hDRc, hDc,
        hYHc, hHHHc, hHHc, hVc, Int.cast_mul, Int.cast_sub, Jacobian.Coords.mk.injEq]
      refine ⟨trivial, ?_, trivial⟩
      ring
    rw [hcoords]
    exact h.stands.addMixed hQ fun heq => hx (hH0.mpr heq)
  · rw [ecpAddMixed, if_neg hp0, if_neg (by rw [hq1]; decide), if_neg (not_not.mpr hq1)]
    simp only [hZZ, hZZZ, hU, hS, hH, hR, hZ, hHH, hHHH, hV, hRR, hX, hD, hDR, hYH, hY, bind,
      Except.bind]

/-- Mixed addition is the sum, in each of the special cases too. -/
theorem addMixed (h2 : g.P ≠ 2) (h : Holds Q p) (h' : Holds Q' q) (hq : q.Z = 0 ∨ q.Z = 1) :
    ∃ r, g.ecpAddMixed p q = .ok r ∧ Holds (Q + Q') r := by
  by_cases hp0 : p.Z = 0
  · refine ⟨q, by rw [ecpAddMixed, if_pos hp0], ?_⟩
    rw [h.zero_iff.mpr hp0, zero_add]
    exact h'
  by_cases hq0 : q.Z = 0
  · refine ⟨p, by rw [ecpAddMixed, if_neg hp0, if_pos hq0], ?_⟩
    rw [h'.zero_iff.mpr hq0, add_zero]
    exact h
  have hq1 : q.Z = 1 := hq.resolve_left hq0
  obtain ⟨hxy, rfl⟩ := h'.exists_affine hq1
  obtain ⟨H, R, r, hH, hHR, hr, heq⟩ := h.ecpAddMixed_tests hp0 hq1 h'.nonneg hxy
  rw [heq]
  by_cases hx : H = 0
  · rw [if_pos hx]
    by_cases hy : R = 0
    · rw [if_pos hy, ← hHR.mp ⟨hx, hy⟩]
      exact ⟨_, rfl, h.double h2⟩
    · have hneg := (hH.mp hx).resolve_left fun hsame => hy (hHR.mpr hsame).2
      rw [if_neg hy, hneg, neg_add_cancel]
      exact ⟨_, rfl, zero⟩
  · rw [if_neg hx]
    exact ⟨_, rfl, hr hx⟩

/-- Opposite points add to the zero point as `ecp_set_zero` writes it. -/
theorem addMixed_neg (h : Holds Q p) (h' : Holds (-Q) q) (hp0 : p.Z ≠ 0) (hq1 : q.Z = 1)
    (hne : Q ≠ -Q) : g.ecpAddMixed p q = .ok ecpZero := by
  obtain ⟨hxy, hq⟩ := h'.exists_affine hq1
  obtain ⟨H, R, r, hH, hHR, -, heq⟩ := h.ecpAddMixed_tests hp0 hq1 h'.nonneg hxy
  rw [← hq] at hH hHR
  have hx : H = 0 := hH.mpr (.inr (neg_neg Q).symm)
  rw [heq, if_pos hx, if_neg fun hy => hne (hHR.mp ⟨hx, hy⟩)]

end Holds

/-- The coordinates `ecp_normalize_jac` leaves a point in. -/
def affine : g.curve.Point → EcpPoint
  | .zero => ecpZero
  | .some x y _ => ⟨x.val, y.val, 1⟩

theorem cast_val (x : ZMod g.P) : (((x.val : Nat) : Int) : ZMod g.P) = x := by
  rw [Int.cast_natCast, ZMod.natCast_val, ZMod.cast_id', id]

theorem val_range (x : ZMod g.P) : (0 : Int) ≤ x.val ∧ (x.val : Int) < g.P := by
  have := ZMod.val_lt x
  omega

theorem val_cast {x : Int} (h : 0 ≤ x ∧ x < g.P) : (((x : ZMod g.P).val : Nat) : Int) = x :=
  cast_inj (val_range _) h (cast_val _)

theorem one_range : (0 : Int) ≤ 1 ∧ (1 : Int) < g.P := by
  have := hP.out.two_le
  omega

/-- What is not zero modulo the prime has an inverse. -/
theorem mpiInvMod_prime {z : Int} (hz : (z : ZMod g.P) ≠ 0) :
    ∃ e, mpiInvMod z g.P = .ok e ∧ 0 ≤ e ∧ (e : ZMod g.P) = (z : ZMod g.P)⁻¹ := by
  have hgcd : Int.gcd z g.P = 1 := by
    rw [Int.gcd_comm, ← Int.isCoprime_iff_gcd_eq_one]
    refine (Int.prime_iff_natAbs_prime.mpr (by simpa using hP.out)).coprime_iff_not_dvd.mpr ?_
    exact fun hdvd => hz ((ZMod.intCast_zmod_eq_zero_iff_dvd _ _).mpr hdvd)
  obtain ⟨e, he, h0, -, hinv⟩ := mpiInvMod_ok modulus_pos hgcd
  refine ⟨e, he, h0, eq_inv_of_mul_eq_one_right ?_⟩
  rw [← Int.cast_mul, ← Int.cast_one]
  exact (ZMod.intCast_eq_intCast_iff' _ _ _).mpr hinv

namespace Holds

variable {Q Q' : g.curve.Point} {p q : EcpPoint}

theorem affine (Q : g.curve.Point) : Holds Q (affine Q) := by
  cases Q with
  | zero => exact zero
  | some x y hxy =>
      refine ⟨⟨val_range x, val_range y, one_range⟩, ?_⟩
      have hcoords : g.coords (EcpGroup.affine (.some x y hxy)) = ⟨x, y, 1⟩ := by
        simp only [coords, EcpGroup.affine, cast_val, Int.cast_one]
      rw [hcoords]
      exact Jacobian.stands_affine hxy

/-- With `Z` one the coordinates are the affine ones. -/
theorem eq_affine (h : Holds Q p) (hZ : p.Z = 1) : p = EcpGroup.affine Q := by
  obtain ⟨hxy, rfl⟩ := h.exists_affine hZ
  obtain ⟨X, Y, Z⟩ := p
  dsimp only at hZ
  subst hZ
  show _ = EcpPoint.mk _ _ _
  rw [val_cast h.reduced.1, val_cast h.reduced.2.1]

/-- What `ecp_normalize_jac` makes of a point of which it has one over `Z`. -/
theorem scaled (h : Holds Q p) (hQ : Q ≠ 0) {e : Int}
    (he : (e : ZMod g.P) = (p.Z : ZMod g.P)⁻¹) :
    EcpPoint.mk (p.X * (e * e % g.P) % g.P) (p.Y * (e * e % g.P) % g.P * e % g.P) 1 =
      EcpGroup.affine Q := by
  cases Q with
  | zero => exact absurd rfl hQ
  | some x y hxy =>
      have hscale := h.stands.inv_scale
      simp only [coords, Jacobian.Coords.scale, Jacobian.Coords.mk.injEq, ← he] at hscale
      refine EcpPoint.mk.injEq .. ▸ ⟨?_, ?_, rfl⟩
      · refine cast_inj (reduced_mod _) (val_range x) ?_
        rw [cast_val, ← hscale.1]
        simp only [ZMod.intCast_mod, Int.cast_mul]
        ring
      · refine cast_inj (reduced_mod _) (val_range y) ?_
        rw [cast_val, ← hscale.2.1]
        simp only [ZMod.intCast_mod, Int.cast_mul]
        ring

/-- Normalizing makes the affine coordinates of a point that is not zero, and
leaves one that is. -/
theorem normalize (h : Holds Q p) :
    g.ecpNormalizeJac p = .ok (if Q = 0 then p else EcpGroup.affine Q) := by
  by_cases hZ : p.Z = 0
  · rw [ecpNormalizeJac, if_pos hZ, if_pos (h.zero_iff.mpr hZ)]
  have hQ : Q ≠ 0 := fun hQ => hZ (h.zero_iff.mp hQ)
  obtain ⟨e, he, he0, hinv⟩ :=
    mpiInvMod_prime fun h' => hZ ((cast_eq_zero h.reduced.2.2).mp h')
  have hsq := reduced_mod (g := g) (e * e)
  rw [ecpNormalizeJac, if_neg hZ, he, if_neg hQ, ← h.scaled hQ hinv]
  simp only [bind, Except.bind, modMul_eq (g := g) (mul_nonneg he0 he0),
    modMul_eq (g := g) (mul_nonneg h.nonneg.1 hsq.1),
    modMul_eq (g := g) (mul_nonneg h.nonneg.2 hsq.1),
    modMul_eq (g := g) (mul_nonneg (reduced_mod (g := g) _).1 he0)]

theorem opp (h : Holds Q p) : Holds (-Q) (g.ecpOpp p) := by
  unfold ecpOpp
  obtain ⟨⟨hX, hY, hZ⟩, hst⟩ := h
  split
  · next hne =>
      refine ⟨⟨hX, ⟨by show 0 ≤ (g.P : Int) - p.Y; omega,
        by show (g.P : Int) - p.Y < g.P; omega⟩, hZ⟩, ?_⟩
      have hcoords : g.coords { p with Y := g.P - p.Y } = (g.coords p).neg := by
        simp [coords, Jacobian.Coords.neg]
      rw [hcoords]
      exact hst.neg
  · next heq =>
      have heq : p.Y = 0 := not_not.mp heq
      refine ⟨⟨hX, hY, hZ⟩, ?_⟩
      have hcoords : g.coords p = (g.coords p).neg := by
        simp [coords, Jacobian.Coords.neg, heq]
      rw [hcoords]
      exact hst.neg

end Holds

end EcpGroup

end LibSmoke
