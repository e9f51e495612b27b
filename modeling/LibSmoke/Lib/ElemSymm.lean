import Mathlib.RingTheory.MvPolynomial.Symmetric.Defs
import Mathlib.Algebra.BigOperators.Ring.Finset
import Mathlib.Tactic.Ring

/-!
# Elementary symmetric polynomials of a family without one member

`elem a S r` is the `r`-th elementary symmetric polynomial in the values `a j`
for `j ∈ S`, as a computation in any commutative ring: Mathlib's
`Multiset.esymm` of those values. What a group protocol needs is how the
polynomial over all parties but one is reached from what the other parties can
compute, which are the polynomials over all parties but themselves.

Adjoining one member splits on whether a product uses it (`elem_insert`).
Summing `a j` times the polynomial without `j` counts each product once for
every factor (`sum_mul_elem_erase`). The two together give
`sum_mul_elem_erase_univ`: the sum over the others overshoots by `r` copies of
the party's own value.
-/

namespace ElemSymm

variable {ι R : Type} [CommRing R]

def elem (a : ι → R) (S : Finset ι) (r : Nat) : R :=
  (S.val.map a).esymm r

@[simp] theorem elem_zero (a : ι → R) (S : Finset ι) : elem a S 0 = 1 := by
  simp [elem, Multiset.esymm]

@[simp] theorem elem_empty_succ (a : ι → R) (r : Nat) :
    elem a ∅ (r + 1) = 0 := by
  simp [elem, Multiset.esymm, Multiset.powersetCard_zero_right]

theorem elem_card (a : ι → R) (S : Finset ι) :
    elem a S S.card = ∏ j ∈ S, a j := by
  unfold elem
  rw [Finset.esymm_map_val, Finset.powersetCard_self, Finset.sum_singleton]

variable [DecidableEq ι]

theorem elem_insert (a : ι → R) {S : Finset ι} {i : ι} (hi : i ∉ S)
    (r : Nat) :
    elem a (insert i S) (r + 1) = elem a S (r + 1) + a i * elem a S r := by
  unfold elem Multiset.esymm
  rw [Finset.insert_val_of_notMem hi, Multiset.map_cons,
    Multiset.powersetCard_cons, Multiset.map_add, Multiset.sum_add,
    Multiset.map_map]
  congr 1
  rw [← Multiset.sum_map_mul_left]
  simp only [Function.comp_def, Multiset.prod_cons]

theorem elem_erase_insert (a : ι → R) {S : Finset ι} {i : ι} (hi : i ∉ S)
    (r : Nat) :
    ∑ j ∈ S, a j * elem a ((insert i S).erase j) (r + 1) =
      (∑ j ∈ S, a j * elem a (S.erase j) (r + 1)) +
        a i * ∑ j ∈ S, a j * elem a (S.erase j) r := by
  rw [Finset.mul_sum, ← Finset.sum_add_distrib]
  refine Finset.sum_congr rfl fun j hj => ?_
  have hne : i ≠ j := fun h => hi (h ▸ hj)
  have hi' : i ∉ S.erase j := fun h => hi (Finset.mem_of_mem_erase h)
  rw [Finset.erase_insert_of_ne hne, elem_insert a hi']
  ring

/-- Every product of `r + 1` of the values is counted once for each of its
factors. -/
theorem sum_mul_elem_erase (a : ι → R) (S : Finset ι) (r : Nat) :
    ∑ j ∈ S, a j * elem a (S.erase j) r = (r + 1) * elem a S (r + 1) := by
  induction S using Finset.induction_on generalizing r with
  | empty => simp
  | insert i S hi ih =>
      rw [Finset.sum_insert hi, Finset.erase_insert hi, elem_insert a hi]
      cases r with
      | zero =>
          have h := ih 0
          simp only [elem_zero] at h ⊢
          rw [h]
          push_cast
          ring
      | succ r =>
          rw [elem_erase_insert a hi, ih (r + 1), ih r]
          push_cast
          ring

/-- The sum of what the other members compute, less `r` copies of the
member's own value, is `r + 1` times the next polynomial without it. -/
theorem sum_mul_elem_erase_univ [Fintype ι] (a : ι → R) (i : ι) (r : Nat) :
    ∑ j ∈ Finset.univ.erase i, a j * elem a (Finset.univ.erase j) r -
        r * (a i * elem a (Finset.univ.erase i) r) =
      (r + 1) * elem a (Finset.univ.erase i) (r + 1) := by
  have hi : i ∉ Finset.univ.erase i := Finset.notMem_erase i _
  have huniv : insert i (Finset.univ.erase i) = (Finset.univ : Finset ι) :=
    Finset.insert_erase (Finset.mem_univ i)
  cases r with
  | zero =>
      have h := sum_mul_elem_erase a (Finset.univ.erase i) 0
      simp only [elem_zero] at h ⊢
      rw [h]
      push_cast
      ring
  | succ r =>
      have h := elem_erase_insert a hi r
      rw [huniv] at h
      rw [h, sum_mul_elem_erase, sum_mul_elem_erase]
      push_cast
      ring

/-- The last polynomial without a member, times the member's own value, is
the product of all. -/
theorem mul_elem_erase_card [Fintype ι] (a : ι → R) (i : ι) :
    a i * elem a (Finset.univ.erase i) (Fintype.card ι - 1) =
      ∏ j, a j := by
  have hcard : (Finset.univ.erase i : Finset ι).card = Fintype.card ι - 1 := by
    rw [Finset.card_erase_of_mem (Finset.mem_univ i), Finset.card_univ]
  rw [← hcard, elem_card, Finset.mul_prod_erase _ _ (Finset.mem_univ i)]

end ElemSymm
