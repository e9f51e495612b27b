import Mathlib.Data.Finset.Card
import Mathlib.Data.Set.Function
import Mathlib.Logic.Function.Iterate
import Mathlib.Order.Bounds.Basic

/-!
# The elements of an ordered set in a circle

Each element of a finite set has a rank, the number of those below it, and the
ranks are the numbers below the size of the set (`rank_bijOn`). The one
following `a` is the least of those above it, or the least of all where there is
none; its rank is that of `a` plus one, around the size (`Following.rank_eq`). A
function that takes each element to the one following it goes through all of
them in one circle (`iterate_reaches`), and the one preceding it leads back.
-/

namespace Circle

variable {α : Type*} [LinearOrder α] {s : Finset α} {a b c : α}

/-- How many of the set are below. -/
def rank (s : Finset α) (a : α) : Nat := (s.filter (· < a)).card

def Following (s : Finset α) (a b : α) : Prop :=
  IsLeast {c | c ∈ s ∧ a < c} b ∨ (∀ c ∈ s, c ≤ a) ∧ IsLeast {c | c ∈ s} b

def Preceding (s : Finset α) (a b : α) : Prop :=
  IsGreatest {c | c ∈ s ∧ c < a} b ∨ (∀ c ∈ s, a ≤ c) ∧ IsGreatest {c | c ∈ s} b

theorem Following.mem (h : Following s a b) : b ∈ s := by
  rcases h with h | ⟨-, h⟩
  · exact h.1.1
  · exact h.1

theorem Preceding.mem (h : Preceding s a b) : b ∈ s := by
  rcases h with h | ⟨-, h⟩
  · exact h.1.1
  · exact h.1

/-! ## Ranks -/

theorem rank_lt_rank (ha : a ∈ s) (hab : a < b) : rank s a < rank s b := by
  refine Finset.card_lt_card (Finset.ssubset_iff_of_subset ?_ |>.mpr ⟨a, ?_, ?_⟩)
  · intro c hc
    rw [Finset.mem_filter] at hc ⊢
    exact ⟨hc.1, hc.2.trans hab⟩
  · exact Finset.mem_filter.mpr ⟨ha, hab⟩
  · intro h
    exact lt_irrefl a (Finset.mem_filter.mp h).2

theorem rank_lt_card (ha : a ∈ s) : rank s a < s.card := by
  refine Finset.card_lt_card (Finset.ssubset_iff_of_subset ?_ |>.mpr ⟨a, ha, ?_⟩)
  · exact Finset.filter_subset _ _
  · intro h
    exact lt_irrefl a (Finset.mem_filter.mp h).2

theorem rank_injOn (s : Finset α) : Set.InjOn (rank s) {c | c ∈ s} := by
  intro a ha b hb hab
  rcases lt_trichotomy a b with hlt | heq | hlt
  · exact absurd hab (rank_lt_rank ha hlt).ne
  · exact heq
  · exact absurd hab (rank_lt_rank hb hlt).ne'

theorem rank_bijOn (s : Finset α) : Set.BijOn (rank s) {c | c ∈ s} (Set.Iio s.card) := by
  refine ⟨fun a ha => rank_lt_card ha, rank_injOn s, ?_⟩
  have himage : s.image (rank s) = Finset.range s.card := by
    refine Finset.eq_of_subset_of_card_le ?_ ?_
    · intro n hn
      obtain ⟨a, ha, rfl⟩ := Finset.mem_image.mp hn
      exact Finset.mem_range.mpr (rank_lt_card ha)
    · rw [Finset.card_range, Finset.card_image_of_injOn (rank_injOn s)]
  intro n hn
  obtain ⟨a, ha, rfl⟩ := Finset.mem_image.mp (himage ▸ Finset.mem_range.mpr hn)
  exact ⟨a, ha, rfl⟩

theorem rank_last (ha : a ∈ s) (hlast : ∀ c ∈ s, c ≤ a) : rank s a = s.card - 1 := by
  have hset : s.filter (· < a) = s.erase a := by
    ext c
    rw [Finset.mem_filter, Finset.mem_erase, and_comm]
    exact and_congr_left fun hc => ⟨ne_of_lt, (hlast c hc).lt_of_ne⟩
  rw [rank, hset, Finset.card_erase_of_mem ha]

/-! ## One after the other -/

theorem Following.rank_eq (ha : a ∈ s) (h : Following s a b) :
    rank s b = (rank s a + 1) % s.card := by
  rcases h with h | ⟨hlast, h⟩
  · have hset : s.filter (· < b) = insert a (s.filter (· < a)) := by
      ext c
      rw [Finset.mem_insert, Finset.mem_filter, Finset.mem_filter]
      constructor
      · rintro ⟨hc, hcb⟩
        rcases lt_trichotomy c a with hlt | heq | hlt
        · exact .inr ⟨hc, hlt⟩
        · exact .inl heq
        · exact absurd hcb (not_lt.mpr (h.2 ⟨hc, hlt⟩))
      · rintro (rfl | ⟨hc, hca⟩)
        · exact ⟨ha, h.1.2⟩
        · exact ⟨hc, hca.trans h.1.2⟩
    have hnot : a ∉ s.filter (· < a) := fun hmem =>
      lt_irrefl a (Finset.mem_filter.mp hmem).2
    have hrank : rank s b = rank s a + 1 := by
      rw [rank, hset, Finset.card_insert_of_notMem hnot, rank]
    have hlt := rank_lt_card h.1.1
    rw [hrank] at hlt ⊢
    rw [Nat.mod_eq_of_lt hlt]
  · have hnone : s.filter (· < b) = ∅ :=
      Finset.filter_eq_empty_iff.mpr fun c hc => not_lt.mpr (h.2 hc)
    have hcard := Finset.card_pos.mpr ⟨a, ha⟩
    rw [rank_last ha hlast, rank, hnone, Finset.card_empty, Nat.sub_add_cancel hcard,
      Nat.mod_self]

theorem Following.unique (h : Following s a b) (h' : Following s a c) : b = c := by
  rcases h with h | ⟨hlast, h⟩ <;> rcases h' with h' | ⟨hlast', h'⟩
  · exact h.unique h'
  · exact absurd h.1.2 (not_lt.mpr (hlast' b h.1.1))
  · exact absurd h'.1.2 (not_lt.mpr (hlast c h'.1.1))
  · exact h.unique h'

theorem Preceding.unique (h : Preceding s a b) (h' : Preceding s a c) : b = c := by
  rcases h with h | ⟨hfirst, h⟩ <;> rcases h' with h' | ⟨hfirst', h'⟩
  · exact h.unique h'
  · exact absurd h.1.2 (not_lt.mpr (hfirst' b h.1.1))
  · exact absurd h'.1.2 (not_lt.mpr (hfirst c h'.1.1))
  · exact h.unique h'

/-- Who is followed by one precedes it. -/
theorem Following.preceding (ha : a ∈ s) (h : Following s a b) : Preceding s b a := by
  rcases h with h | ⟨hlast, h⟩
  · refine .inl ⟨⟨ha, h.1.2⟩, fun c hc => ?_⟩
    by_contra hac
    exact absurd hc.2 (not_lt.mpr (h.2 ⟨hc.1, not_le.mp hac⟩))
  · exact .inr ⟨fun c hc => h.2 hc, ha, fun c hc => hlast c hc⟩

theorem Preceding.following (ha : a ∈ s) (h : Preceding s a b) : Following s b a := by
  rcases h with h | ⟨hfirst, h⟩
  · refine .inl ⟨⟨ha, h.1.2⟩, fun c hc => ?_⟩
    by_contra hac
    exact absurd hc.2 (not_lt.mpr (h.2 ⟨hc.1, not_le.mp hac⟩))
  · exact .inr ⟨fun c hc => h.2 hc, ha, fun c hc => hfirst c hc⟩

/-! ## Around -/

section Around

variable {next prev : α → α} (hnext : ∀ a ∈ s, Following s a (next a))

include hnext

theorem iterate_mem (ha : a ∈ s) (k : Nat) : next^[k] a ∈ s := by
  induction k with
  | zero => exact ha
  | succ k ih =>
      rw [Function.iterate_succ_apply']
      exact (hnext _ ih).mem

theorem rank_iterate (ha : a ∈ s) (k : Nat) :
    rank s (next^[k] a) = (rank s a + k) % s.card := by
  induction k with
  | zero => exact (Nat.mod_eq_of_lt (rank_lt_card ha)).symm
  | succ k ih =>
      have hmem := iterate_mem hnext ha k
      rw [Function.iterate_succ_apply', (hnext _ hmem).rank_eq hmem, ih,
        Nat.mod_add_mod, Nat.add_assoc]

/-- All are on one circle. -/
theorem iterate_reaches (ha : a ∈ s) (hb : b ∈ s) :
    ∃ k < s.card, next^[k] a = b := by
  have hlt := rank_lt_card hb
  have hcard : 0 < s.card := by omega
  refine ⟨(rank s b + (s.card - rank s a)) % s.card, Nat.mod_lt _ hcard, ?_⟩
  refine rank_injOn s (iterate_mem hnext ha _) hb ?_
  have hle := (rank_lt_card ha).le
  have hsum : rank s a + (rank s b + (s.card - rank s a)) = rank s b + s.card := by omega
  rw [rank_iterate hnext ha, Nat.add_mod_mod, hsum, Nat.add_mod_right,
    Nat.mod_eq_of_lt hlt]

/-- And it closes after as many steps as there are elements. -/
theorem iterate_card (ha : a ∈ s) : next^[s.card] a = a := by
  refine rank_injOn s (iterate_mem hnext ha _) ha ?_
  rw [rank_iterate hnext ha, Nat.add_mod_right, Nat.mod_eq_of_lt (rank_lt_card ha)]

variable (hprev : ∀ a ∈ s, Preceding s a (prev a))

include hprev

theorem prev_next (ha : a ∈ s) : prev (next a) = a :=
  (hprev _ (hnext a ha).mem).unique ((hnext a ha).preceding ha)

theorem next_prev (ha : a ∈ s) : next (prev a) = a :=
  (hnext _ (hprev a ha).mem).unique ((hprev a ha).following ha)

theorem bijOn_next : Set.BijOn next {c | c ∈ s} {c | c ∈ s} := by
  refine ⟨fun a ha => (hnext a ha).mem, fun a ha b hb hab => ?_, fun a ha => ?_⟩
  · rw [← prev_next hnext hprev ha, ← prev_next hnext hprev hb, hab]
  · exact ⟨prev a, (hprev a ha).mem, next_prev hnext hprev ha⟩

end Around

end Circle
