import Mathlib.Algebra.BigOperators.Ring.Finset
import Mathlib.Algebra.Order.Ring.Int
import Mathlib.Algebra.Ring.Parity
import Mathlib.Tactic.Ring
import Mathlib.Tactic.Linarith

/-!
# Signed binary digits

A number written with the digits `-1`, `0` and `1`, the least significant first.
What is read from the front of the digits is less than the power of two it stops
at, in either direction (`abs_value_lt`), so that the sign of the whole is the
sign of every tail, and no tail of digits that make a number above zero makes a
larger one (`value_drop_bounds`). A number all of whose digits are not zero is
odd.
-/

namespace Digits

def value : List Int → Int
  | [] => 0
  | s :: l => s + 2 * value l

@[simp] theorem value_nil : value [] = 0 := rfl

@[simp] theorem value_cons (s : Int) (l : List Int) : value (s :: l) = s + 2 * value l := rfl

theorem value_eq_zero {l : List Int} (h : ∀ s ∈ l, s = 0) : value l = 0 := by
  induction l with
  | nil => rfl
  | cons s l ih =>
      rw [value_cons, h s List.mem_cons_self, ih fun t ht => h t (List.mem_cons_of_mem _ ht)]
      rfl

/-- The digits are `-1`, `0` and `1`. -/
def Signed (l : List Int) : Prop := ∀ s ∈ l, -1 ≤ s ∧ s ≤ 1

theorem Signed.tail {s : Int} {l : List Int} (h : Signed (s :: l)) : Signed l :=
  fun t ht => h t (List.mem_cons_of_mem _ ht)

theorem value_append (k l : List Int) :
    value (k ++ l) = value k + 2 ^ k.length * value l := by
  induction k with
  | nil => simp
  | cons s k ih =>
      rw [List.cons_append, value_cons, value_cons, ih, List.length_cons, pow_succ]
      ring

theorem abs_value_lt {l : List Int} (h : Signed l) :
    -2 ^ l.length < value l ∧ value l < 2 ^ l.length := by
  induction l with
  | nil => simp
  | cons s l ih =>
      obtain ⟨hlo, hhi⟩ := ih h.tail
      have hs := h s List.mem_cons_self
      rw [value_cons, List.length_cons, pow_succ]
      omega

/-- A last digit that is not `-1` leaves less below zero. -/
theorem lt_value_concat {l : List Int} {s : Int} (h : Signed l) (hs : 0 ≤ s) :
    -2 ^ l.length < value (l ++ [s]) := by
  have hlo := (abs_value_lt h).1
  have hpos : (0 : Int) ≤ 2 ^ l.length * s := mul_nonneg (by positivity) hs
  rw [value_append, value_cons, value_nil, mul_zero, add_zero]
  omega

theorem value_drop_bounds {l : List Int} (h : Signed l) (h0 : 0 ≤ value l) (i : Nat) :
    0 ≤ value (l.drop i) ∧ value (l.drop i) ≤ value l := by
  have hfront := abs_value_lt (l := l.take i) fun s hs => h s (List.mem_of_mem_take hs)
  have hsplit := value_append (l.take i) (l.drop i)
  rw [List.take_append_drop] at hsplit
  have hpow : (1 : Int) ≤ 2 ^ (l.take i).length := one_le_pow₀ (by norm_num)
  generalize (2 : Int) ^ (l.take i).length = p at *
  generalize value (l.take i) = f at *
  generalize value (l.drop i) = v at *
  have hv : 0 ≤ v := by
    by_contra hneg
    nlinarith
  refine ⟨hv, ?_⟩
  rcases hv.eq_or_lt with hv | hv
  · omega
  · nlinarith

/-- Digits that are not zero make an odd number. -/
theorem odd_value {s : Int} {l : List Int} (hs : Odd s) : Odd (value (s :: l)) :=
  hs.add_even (even_two_mul _)

/-- Digits that are weighted sums make the weighted sum of the numbers. -/
theorem value_map_sum {α ι : Type*} (s : Finset ι) (w : ι → Int) (f : ι → α → Int)
    (l : List α) : value (l.map fun x => ∑ j ∈ s, w j * f j x) =
      ∑ j ∈ s, w j * value (l.map (f j)) := by
  induction l with
  | nil => simp
  | cons x l ih =>
      simp only [List.map_cons, value_cons, ih, Finset.mul_sum, ← Finset.sum_add_distrib]
      refine Finset.sum_congr rfl fun j _ => ?_
      ring

end Digits
