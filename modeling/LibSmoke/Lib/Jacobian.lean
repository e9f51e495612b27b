import Mathlib.AlgebraicGeometry.EllipticCurve.Affine.Point
import Mathlib.Tactic.FieldSimp
import Mathlib.Tactic.LinearCombination
import Mathlib.Tactic.Ring

/-!
# Jacobian coordinates of a short Weierstrass curve

Three coordinates stand for a point of `y² = x³ + a x + b`: for the affine point
they make when the first is divided by `Z²` and the second by `Z³`, and for the
point at infinity where `Z` is zero. A point has many coordinates, and what is
computed in them is a matter of the point they stand for: doubling
(`Stands.double`), adding an affine point (`Stands.addMixed`), negating and
scaling are the operations of the group, whichever coordinates they are given.
-/

namespace Jacobian

open WeierstrassCurve

-- so that the formulas below carry no proof of their own
local instance (priority := 2000) atLeastTwo_two : Nat.AtLeastTwo 2 := ⟨le_rfl⟩

variable {F : Type*} [Field F]

/-- The curve `y² = x³ + a x + b`. -/
def curve (a b : F) : Affine F := ⟨0, 0, 0, a, b⟩

@[ext] structure Coords (F : Type*) where
  X : F
  Y : F
  Z : F

namespace Coords

def double (a : F) (c : Coords F) : Coords F :=
  let S := 2 * ((c.X + c.Y ^ 2) ^ 2 - c.Y ^ 4 - c.X ^ 2)
  let M := 3 * c.X ^ 2 + a * c.Z ^ 4
  ⟨M ^ 2 - 2 * S, M * (S - (M ^ 2 - 2 * S)) - 8 * c.Y ^ 4,
    (c.Y + c.Z) ^ 2 - c.Y ^ 2 - c.Z ^ 2⟩

/-- The sum with the affine point `x`, `y`, of another abscissa. -/
def addMixed (c : Coords F) (x y : F) : Coords F :=
  let H := x * c.Z ^ 2 - c.X
  let R := y * c.Z ^ 3 - c.Y
  let X' := R ^ 2 - 2 * (H ^ 2 * c.X) - H ^ 3
  ⟨X', R * (H ^ 2 * c.X - X') - H ^ 3 * c.Y, c.Z * H⟩

def neg (c : Coords F) : Coords F := ⟨c.X, -c.Y, c.Z⟩

def scale (l : F) (c : Coords F) : Coords F := ⟨l ^ 2 * c.X, l ^ 3 * c.Y, l * c.Z⟩

end Coords

variable {a b : F} {c : Coords F} {Q Q' : (curve a b).Point} {x y : F}

def Stands : (curve a b).Point → Coords F → Prop
  | .zero, c => c.Z = 0
  | .some x y _, c => c.Z ≠ 0 ∧ c.X = x * c.Z ^ 2 ∧ c.Y = y * c.Z ^ 3

theorem stands_zero : Stands (0 : (curve a b).Point) c ↔ c.Z = 0 := Iff.rfl

theorem stands_some {h : (curve a b).Nonsingular x y} :
    Stands (.some x y h) c ↔ c.Z ≠ 0 ∧ c.X = x * c.Z ^ 2 ∧ c.Y = y * c.Z ^ 3 :=
  Iff.rfl

/-- The affine coordinates are the coordinates with `Z` one. -/
theorem stands_affine (h : (curve a b).Nonsingular x y) :
    Stands (.some x y h) ⟨x, y, 1⟩ := by
  rw [stands_some]
  exact ⟨one_ne_zero, by ring, by ring⟩

theorem Stands.zero_iff (h : Stands Q c) : Q = 0 ↔ c.Z = 0 := by
  cases Q with
  | zero => exact iff_of_true rfl h
  | some x y hxy => exact iff_of_false (Affine.Point.some_ne_zero hxy) h.1

/-- Coordinates stand for one point. -/
theorem Stands.unique (h : Stands Q c) (h' : Stands Q' c) : Q = Q' := by
  cases Q with
  | zero => exact ((h'.zero_iff).mpr h).symm
  | some x y hxy =>
      cases Q' with
      | zero => exact absurd h' h.1
      | some x' y' hxy' =>
          obtain ⟨hZ, hX, hY⟩ := h
          have hx : x = x' :=
            mul_right_cancel₀ (pow_ne_zero 2 hZ) (hX.symm.trans h'.2.1)
          have hy : y = y' :=
            mul_right_cancel₀ (pow_ne_zero 3 hZ) (hY.symm.trans h'.2.2)
          subst hx hy
          rfl

theorem Stands.neg (h : Stands Q c) : Stands (-Q) c.neg := by
  cases Q with
  | zero => exact h
  | some x y hxy =>
      obtain ⟨hZ, hX, hY⟩ := h
      refine ⟨hZ, hX, ?_⟩
      simp only [Coords.neg, hY, Affine.negY, curve]
      ring

theorem Stands.scale {l : F} (hl : l ≠ 0) (h : Stands Q c) : Stands Q (c.scale l) := by
  cases Q with
  | zero =>
      have hZ : c.Z = 0 := h
      show l * c.Z = 0
      rw [hZ, mul_zero]
  | some x y hxy =>
      obtain ⟨hZ, hX, hY⟩ := h
      refine ⟨mul_ne_zero hl hZ, ?_, ?_⟩
      · simp only [Coords.scale, hX]
        ring
      · simp only [Coords.scale, hY]
        ring

/-- Scaled back by `Z`, the coordinates are the affine ones. -/
theorem Stands.inv_scale {hxy : (curve a b).Nonsingular x y}
    (h : Stands (.some x y hxy) c) : c.scale c.Z⁻¹ = ⟨x, y, 1⟩ := by
  obtain ⟨hZ, hX, hY⟩ := h
  simp only [Coords.scale, hX, hY, Coords.mk.injEq]
  refine ⟨?_, ?_, ?_⟩ <;> field_simp

/-- Equal abscissas, as the coordinates are compared. -/
theorem Stands.abscissa {hxy : (curve a b).Nonsingular x y} (h : Stands Q c)
    (hQ : Q ≠ 0) : x * c.Z ^ 2 - c.X = 0 ↔ Q = .some x y hxy ∨ Q = -.some x y hxy := by
  cases Q with
  | zero => exact absurd rfl hQ
  | some x₁ y₁ hxy₁ =>
      obtain ⟨hZ, hX, -⟩ := h
      rw [← Affine.Point.X_eq_iff, hX, ← sub_mul, mul_eq_zero, sub_eq_zero]
      constructor
      · intro h
        rcases h with h | h
        · exact h.symm
        · exact absurd h (pow_ne_zero 2 hZ)
      · exact fun h => .inl h.symm

/-- Equal points, as the coordinates are compared. -/
theorem Stands.eq_iff {hxy : (curve a b).Nonsingular x y} (h : Stands Q c)
    (hQ : Q ≠ 0) : Q = .some x y hxy ↔ x * c.Z ^ 2 - c.X = 0 ∧ y * c.Z ^ 3 - c.Y = 0 := by
  cases Q with
  | zero => exact absurd rfl hQ
  | some x₁ y₁ hxy₁ =>
      obtain ⟨hZ, hX, hY⟩ := h
      rw [Affine.Point.some.injEq, hX, hY, ← sub_mul, ← sub_mul, mul_eq_zero,
        mul_eq_zero, sub_eq_zero, sub_eq_zero]
      have h2 := pow_ne_zero 2 hZ
      have h3 := pow_ne_zero 3 hZ
      constructor
      · exact fun h => ⟨.inl h.1.symm, .inl h.2.symm⟩
      · exact fun h => ⟨(h.1.resolve_right h2).symm, (h.2.resolve_right h3).symm⟩

variable [DecidableEq F]

theorem Stands.double (h2 : (2 : F) ≠ 0) (h : Stands Q c) :
    Stands (Q + Q) (c.double a) := by
  obtain ⟨X, Y, Z⟩ := c
  cases Q with
  | zero =>
      have hZ : Z = 0 := h
      show (Y + Z) ^ 2 - Y ^ 2 - Z ^ 2 = 0
      rw [hZ]
      ring
  | some x y hxy =>
      obtain ⟨hZ, hX, hY⟩ := h
      dsimp only at hZ hX hY
      subst hX hY
      have hdblZ : (y * Z ^ 3 + Z) ^ 2 - (y * Z ^ 3) ^ 2 - Z ^ 2 = 2 * y * Z ^ 4 := by
        ring
      by_cases hy : y = 0
      · -- a point that is its own opposite
        rw [Affine.Point.add_self_of_Y_eq (by simp [Affine.negY, curve, hy])]
        show (y * Z ^ 3 + Z) ^ 2 - (y * Z ^ 3) ^ 2 - Z ^ 2 = 0
        rw [hdblZ, hy]
        ring
      · have hne : y ≠ (curve a b).negY x y := by
          intro h
          simp only [Affine.negY, curve] at h
          exact mul_ne_zero h2 hy (by linear_combination h)
        have hslope : (curve a b).slope x x y y = (3 * x ^ 2 + a) / (2 * y) := by
          rw [Affine.slope_of_Y_ne rfl hne]
          simp only [Affine.negY, curve]
          congr 1 <;> ring
        rw [Affine.Point.add_self_of_Y_ne hne, stands_some]
        refine ⟨?_, ?_, ?_⟩
        · show (y * Z ^ 3 + Z) ^ 2 - (y * Z ^ 3) ^ 2 - Z ^ 2 ≠ 0
          rw [hdblZ]
          exact mul_ne_zero (mul_ne_zero h2 hy) (pow_ne_zero 4 hZ)
        · rw [hslope]
          simp only [Coords.double, Affine.addX, curve]
          field_simp
          ring
        · rw [hslope]
          simp only [Coords.double, Affine.addY, Affine.negAddY, Affine.addX,
            Affine.negY, curve]
          field_simp
          ring

theorem Stands.addMixed {hxy : (curve a b).Nonsingular x y} (h : Stands Q c)
    (hQ : Q ≠ 0) (hne : x * c.Z ^ 2 - c.X ≠ 0) :
    Stands (Q + .some x y hxy) (c.addMixed x y) := by
  obtain ⟨X, Y, Z⟩ := c
  cases Q with
  | zero => exact absurd rfl hQ
  | some x₁ y₁ hxy₁ =>
      obtain ⟨hZ, hX, hY⟩ := h
      dsimp only at hZ hX hY hne
      subst hX hY
      have hx : x - x₁ ≠ 0 := by
        intro h
        exact hne (by rw [← sub_mul, h, zero_mul])
      have hx' : x₁ - x ≠ 0 := by
        rw [← neg_sub]
        exact neg_ne_zero.mpr hx
      rw [Affine.Point.add_of_X_ne (sub_ne_zero.mp hx'), stands_some,
        Affine.slope_of_X_ne (sub_ne_zero.mp hx')]
      refine ⟨mul_ne_zero hZ hne, ?_, ?_⟩
      · simp only [Coords.addMixed, Affine.addX, curve]
        field_simp
        ring
      · simp only [Coords.addMixed, Affine.addY, Affine.negAddY, Affine.addX,
          Affine.negY, curve]
        field_simp
        ring

end Jacobian
