import Mathlib.Data.Finset.Card
import Mathlib.Data.List.Perm.Subperm

/-!
# One entry of each

A list of entries, each under some name, has as many entries as a roster has names.
This says nothing about whose they are. Where they come from three sources, and the
first is under one known name only, then the other names are covered once each by the
third source exactly if the second one has nothing under another name, the third has
only names of the roster and no other name twice, and the known name is used as often
as it is on the roster (`Clean`, `Clean.one_each` and `clean_of_one_each`).
-/

namespace Roster

variable {κ β : Type} [DecidableEq κ]

/-- The entries that are not under the name `id`. -/
def other (id : κ) (l : List (κ × β)) : List (κ × β) := l.filter (·.1 ≠ id)

theorem mem_other {id : κ} {l : List (κ × β)} {e : κ × β} :
    e ∈ other id l ↔ e ∈ l ∧ e.1 ≠ id := by
  simp [other]

theorem other_append (id : κ) (l l' : List (κ × β)) :
    other id (l ++ l') = other id l ++ other id l' :=
  List.filter_append ..

theorem other_eq_nil_iff {id : κ} {l : List (κ × β)} :
    other id l = [] ↔ ∀ e ∈ l, e.1 = id := by
  simp [other, List.filter_eq_nil_iff]

/-- An entry is under `id` or not. -/
theorem length_eq (id : κ) (l : List (κ × β)) :
    l.length = (other id l).length + (l.map Prod.fst).count id := by
  induction l with
  | nil => rfl
  | cons e l ih =>
      rw [List.length_cons, List.map_cons, List.count_cons, other, List.filter_cons, ih]
      by_cases h : e.1 = id
      · simp [h, other]
        omega
      · simp [h, other]
        omega

/-- What is asked of `own` entries that are there for the known name, of those that were
left, and of the new ones. -/
structure Clean (id : κ) (nodes : Finset κ) (own : Nat) (left new : List (κ × β)) :
    Prop where
  left_own : ∀ e ∈ left, e.1 = id
  member : ∀ e ∈ other id new, e.1 ∈ nodes
  once : ((other id new).map Prod.fst).Nodup
  own_once : own + left.length + (new.map Prod.fst).count id ≤
    if id ∈ nodes then 1 else 0

variable {id : κ} {nodes : Finset κ} {keys own left new : List (κ × β)}

theorem card_erase (id : κ) (nodes : Finset κ) :
    (nodes.erase id).card + (if id ∈ nodes then 1 else 0) = nodes.card := by
  split
  · next h => exact Finset.card_erase_add_one h
  · next h => rw [Finset.erase_eq_of_notMem h, Nat.add_zero]

section Sources

variable (hown : ∀ e ∈ own, e.1 = id) (hkeys : keys.Perm (own ++ (left ++ new)))

include hown hkeys

theorem other_keys : (other id keys).Perm (other id left ++ other id new) := by
  have hperm : (other id keys).Perm (other id (own ++ (left ++ new))) := hkeys.filter _
  rw [other_append, other_append, other_eq_nil_iff.mpr hown, List.nil_append] at hperm
  exact hperm

/-- The entries under other names are one of each, and all of them are new. -/
theorem Clean.one_each (h : Clean id nodes own.length left new)
    (hlen : keys.length = nodes.card) :
    (↑((other id keys).map Prod.fst) : Multiset κ) = (nodes.erase id).val ∧
    ∀ e ∈ other id keys, e ∈ new := by
  have hperm := other_keys hown hkeys
  rw [other_eq_nil_iff.mpr h.left_own, List.nil_append] at hperm
  have hsub : ((other id new).map Prod.fst).toFinset ⊆ nodes.erase id := by
    intro a ha
    obtain ⟨e, he, rfl⟩ := List.mem_map.mp (List.mem_toFinset.mp ha)
    exact Finset.mem_erase.mpr ⟨(mem_other.mp he).2, h.member e he⟩
  have hcard : (nodes.erase id).card ≤ ((other id new).map Prod.fst).toFinset.card := by
    have htotal := hkeys.length_eq
    rw [List.length_append, List.length_append, length_eq id new, hlen] at htotal
    rw [List.toFinset_card_of_nodup h.once, List.length_map]
    have := card_erase id nodes
    have := h.own_once
    omega
  refine ⟨?_, fun e he => (mem_other.mp (hperm.mem_iff.mp he)).1⟩
  rw [Multiset.coe_eq_coe.mpr (hperm.map Prod.fst),
    ← Finset.eq_of_subset_of_card_le hsub hcard, List.toFinset_val, h.once.dedup]

/-- Where entries that are new cover each other name once, and there are no more
entries under other names than that, the sources were clean. -/
theorem clean_of_one_each (hlen : keys.length = nodes.card) {vals : List (κ × β)}
    (hvals : (↑(vals.map Prod.fst) : Multiset κ) = (nodes.erase id).val)
    (hnew : ∀ e ∈ vals, e ∈ new) (hcount : vals.length = (other id keys).length) :
    Clean id nodes own.length left new := by
  have hnames : ∀ e ∈ vals, e.1 ∈ nodes.erase id := by
    intro e he
    rw [← Finset.mem_val, ← hvals, Multiset.mem_coe]
    exact List.mem_map_of_mem he
  have hnodup : (vals.map Prod.fst).Nodup := by
    rw [← Multiset.coe_nodup, hvals]
    exact (nodes.erase id).nodup
  have hsub : List.Subperm vals (other id new) :=
    List.subperm_of_subset hnodup.of_map fun e he =>
      mem_other.mpr ⟨hnew e he, (Finset.mem_erase.mp (hnames e he)).1⟩
  have hother := (other_keys hown hkeys).length_eq
  rw [List.length_append] at hother
  have hle := hsub.length_le
  have hleft : other id left = [] := List.eq_nil_of_length_eq_zero (by omega)
  have hperm : vals.Perm (other id new) := hsub.perm_of_length_le (by omega)
  refine ⟨other_eq_nil_iff.mp hleft, fun e he => ?_,
    (hperm.map Prod.fst).nodup_iff.mp hnodup, ?_⟩
  · exact (Finset.mem_erase.mp (hnames e (hperm.mem_iff.mpr he))).2
  · have htotal := hkeys.length_eq
    have hnewlen := length_eq id new
    have hvalslen := congrArg Multiset.card hvals
    rw [Multiset.coe_card, List.length_map, Finset.card_val] at hvalslen
    rw [List.length_append, List.length_append] at htotal
    have := hperm.length_eq
    have := card_erase id nodes
    omega

end Sources

end Roster
