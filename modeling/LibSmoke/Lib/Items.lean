import Mathlib.Data.List.Basic

/-!
# Items on a stream

A stream of items of several kinds, told apart by how they begin. The front of
what is on hand is a whole item, or it may become one when more arrives, or it
is something no item begins with. A reader takes items off the front and stops
where there is none.

`scan` is this reader. `scan_flatten` says that it takes a list of items apart
again, `scan_append` that it does not see how the stream was cut. A stream is
`Clean` when nothing stray ever stands where an item should begin, and
`clean_iff` says that the reader finds out: what it stops at is then the
beginning of an item.
-/

namespace Items

/-- What a stream begins with: an item of the given length, what may become an
item, or what cannot. -/
inductive Front where
  | item (n : Nat)
  | more
  | stray
  deriving DecidableEq

/-- A code of items: what more bytes do not change is settled. -/
structure Code (α : Type) where
  front : List α → Front
  front_nil : front [] = .more
  item_bounds : ∀ {bs n}, front bs = .item n → 0 < n ∧ n ≤ bs.length
  item_append : ∀ {bs n} (cs : List α), front bs = .item n →
    front (bs ++ cs) = .item n
  item_take : ∀ {bs n}, front bs = .item n → front (bs.take n) = .item n
  stray_append : ∀ {bs} (cs : List α), front bs = .stray →
    front (bs ++ cs) = .stray

variable {α : Type} (C : Code α)

/-- The stream is one item, no more and no less. -/
def IsItem (i : List α) : Prop := C.front i = .item i.length

instance (i : List α) : Decidable (IsItem C i) :=
  inferInstanceAs (Decidable (_ = _))

/-- Take off at most `fuel` items. -/
def scanN : Nat → List α → List (List α) × List α
  | 0, bs => ([], bs)
  | fuel + 1, bs =>
      match C.front bs with
      | .item n => (bs.take n :: (scanN fuel (bs.drop n)).1, (scanN fuel (bs.drop n)).2)
      | .more => ([], bs)
      | .stray => ([], bs)

/-- Take off every item at the front; the second component is what is left. -/
def scan (bs : List α) : List (List α) × List α := scanN C bs.length bs

/-- Wherever the stream is whole items and then something else, this is not
stray. -/
def Clean (bs : List α) : Prop :=
  ∀ (is : List (List α)) rest, (∀ i ∈ is, IsItem C i) → bs = is.flatten ++ rest →
    C.front rest ≠ .stray

variable {C}

/-! ## The reader, unfolded -/

theorem scanN_of_not_item {bs : List α} (h : ∀ n, C.front bs ≠ .item n) (fuel : Nat) :
    scanN C fuel bs = ([], bs) := by
  cases fuel with
  | zero => rfl
  | succ fuel =>
      rw [scanN]
      cases hf : C.front bs with
      | item n => exact absurd hf (h n)
      | more => rfl
      | stray => rfl

theorem scanN_congr {fuel fuel' : Nat} {bs : List α} (h : bs.length ≤ fuel)
    (h' : bs.length ≤ fuel') : scanN C fuel bs = scanN C fuel' bs := by
  induction fuel generalizing fuel' bs with
  | zero =>
      have hnil : bs = [] := List.length_eq_zero_iff.mp (Nat.le_zero.mp h)
      have hmore : ∀ n, C.front bs ≠ .item n := by
        intro n hn
        rw [hnil, C.front_nil] at hn
        cases hn
      rw [scanN_of_not_item hmore, scanN_of_not_item hmore]
  | succ fuel ih =>
      cases hf : C.front bs with
      | item n =>
          obtain ⟨hpos, hle⟩ := C.item_bounds hf
          obtain ⟨fuel', rfl⟩ : ∃ k, fuel' = k + 1 := ⟨fuel' - 1, by omega⟩
          have hdrop : (bs.drop n).length = bs.length - n := List.length_drop
          rw [scanN, scanN, hf]
          have hrest : scanN C fuel (bs.drop n) = scanN C fuel' (bs.drop n) :=
            ih (by omega) (by omega)
          simp only []
          rw [hrest]
      | more =>
          have hmore : ∀ n, C.front bs ≠ .item n := by simp [hf]
          rw [scanN_of_not_item hmore, scanN_of_not_item hmore]
      | stray =>
          have hstray : ∀ n, C.front bs ≠ .item n := by simp [hf]
          rw [scanN_of_not_item hstray, scanN_of_not_item hstray]

theorem scan_of_not_item {bs : List α} (h : ∀ n, C.front bs ≠ .item n) :
    scan C bs = ([], bs) :=
  scanN_of_not_item h _

theorem scan_of_item {bs : List α} {n : Nat} (h : C.front bs = .item n) :
    scan C bs = (bs.take n :: (scan C (bs.drop n)).1, (scan C (bs.drop n)).2) := by
  obtain ⟨hpos, hle⟩ := C.item_bounds h
  have hdrop : (bs.drop n).length = bs.length - n := List.length_drop
  obtain ⟨fuel, hfuel⟩ : ∃ k, bs.length = k + 1 := ⟨bs.length - 1, by omega⟩
  have hrest : scanN C fuel (bs.drop n) = scan C (bs.drop n) :=
    scanN_congr (by omega) (Nat.le_refl _)
  rw [scan, hfuel, scanN, h]
  simp only []
  rw [hrest]

theorem scan_nil : scan C ([] : List α) = ([], []) := rfl

/-! ## What the reader gives back -/

/-- An induction along the items of a stream. -/
theorem scan_induction {motive : List α → Prop}
    (stop : ∀ bs, (∀ n, C.front bs ≠ .item n) → motive bs)
    (item : ∀ bs n, C.front bs = .item n → motive (bs.drop n) → motive bs) :
    ∀ bs, motive bs := by
  intro bs
  induction hlen : bs.length using Nat.strongRecOn generalizing bs with
  | ind len ih =>
      by_cases h : ∃ n, C.front bs = .item n
      · obtain ⟨n, hn⟩ := h
        obtain ⟨hpos, hle⟩ := C.item_bounds hn
        refine item bs n hn (ih _ ?_ _ rfl)
        rw [List.length_drop]
        omega
      · exact stop bs fun n hn => h ⟨n, hn⟩

theorem IsItem.take {bs : List α} {n : Nat} (h : C.front bs = .item n) :
    IsItem C (bs.take n) := by
  show C.front (bs.take n) = .item (bs.take n).length
  rw [List.length_take, Nat.min_eq_left (C.item_bounds h).2]
  exact C.item_take h

theorem scan_item_append {i : List α} (h : IsItem C i) (bs : List α) :
    scan C (i ++ bs) = (i :: (scan C bs).1, (scan C bs).2) := by
  rw [scan_of_item (C.item_append bs h), List.take_left, List.drop_left]

/-- A stream of items is taken apart into these, and what follows them is read
on its own. -/
theorem scan_flatten {is : List (List α)} (h : ∀ i ∈ is, IsItem C i) (bs : List α) :
    scan C (is.flatten ++ bs) = (is ++ (scan C bs).1, (scan C bs).2) := by
  induction is with
  | nil => rfl
  | cons i is ih =>
      rw [List.flatten_cons, List.append_assoc, scan_item_append (h i (by simp)),
        ih fun j hj => h j (by simp [hj])]
      rfl

theorem flatten_scan (bs : List α) : (scan C bs).1.flatten ++ (scan C bs).2 = bs := by
  induction bs using scan_induction (C := C) with
  | stop bs h => rw [scan_of_not_item h]; rfl
  | item bs n h ih =>
      rw [scan_of_item h, List.flatten_cons, List.append_assoc, ih, List.take_append_drop]

theorem isItem_of_mem_scan {bs i : List α} (h : i ∈ (scan C bs).1) : IsItem C i := by
  induction bs using scan_induction (C := C) with
  | stop bs hstop => rw [scan_of_not_item hstop] at h; cases h
  | item bs n hn ih =>
      rw [scan_of_item hn] at h
      rcases List.mem_cons.mp h with rfl | hmem
      · exact IsItem.take hn
      · exact ih hmem

/-- What is left does not begin with an item. -/
theorem front_rest (bs : List α) (n : Nat) : C.front (scan C bs).2 ≠ .item n := by
  induction bs using scan_induction (C := C) with
  | stop bs h => rw [scan_of_not_item h]; exact h n
  | item bs m h ih => rw [scan_of_item h]; exact ih

/-- The reader does not see where the stream was cut. -/
theorem scan_append (bs cs : List α) :
    scan C (bs ++ cs) = ((scan C bs).1 ++ (scan C ((scan C bs).2 ++ cs)).1,
      (scan C ((scan C bs).2 ++ cs)).2) := by
  conv_lhs => rw [← flatten_scan (C := C) bs, List.append_assoc]
  exact scan_flatten (fun i hi => isItem_of_mem_scan hi) _

/-! ## Clean streams -/

theorem clean_iff {bs : List α} : Clean C bs ↔ C.front (scan C bs).2 = .more := by
  constructor
  · intro h
    have hrest := h (scan C bs).1 (scan C bs).2 (fun i hi => isItem_of_mem_scan hi)
      (flatten_scan bs).symm
    cases hf : C.front (scan C bs).2 with
    | item n => exact absurd hf (front_rest bs n)
    | more => rfl
    | stray => exact absurd hf hrest
  · intro h is rest his hbs hstray
    have hstop : scan C rest = ([], rest) := scan_of_not_item (by simp [hstray])
    rw [hbs, scan_flatten his, hstop] at h
    rw [hstray] at h
    cases h

/-- A stream of whole items is clean, and nothing of it is left. -/
theorem clean_flatten {is : List (List α)} (h : ∀ i ∈ is, IsItem C i) :
    Clean C is.flatten := by
  have hscan := scan_flatten h []
  rw [List.append_nil, scan_nil] at hscan
  rw [clean_iff, hscan]
  exact C.front_nil

theorem clean_of_more {bs : List α} (h : C.front bs = .more) : Clean C bs := by
  rw [clean_iff, scan_of_not_item (by simp [h])]
  exact h

theorem Clean.front_ne {bs : List α} (h : Clean C bs) : C.front bs ≠ .stray :=
  h [] bs (fun i hi => by cases hi) rfl

/-- An item at the front makes no difference. -/
theorem clean_drop {bs : List α} {n : Nat} (hn : C.front bs = .item n) :
    Clean C (bs.drop n) ↔ Clean C bs := by
  rw [clean_iff, clean_iff, scan_of_item hn]

/-- What comes first in a clean stream is clean. -/
theorem Clean.left {bs cs : List α} (h : Clean C (bs ++ cs)) : Clean C bs := by
  intro is rest his hbs hstray
  refine h is (rest ++ cs) his ?_ (C.stray_append cs hstray)
  rw [hbs, List.append_assoc]

end Items
