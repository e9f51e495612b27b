import LibSmoke.Knx.Agreement
import Mathlib.Data.List.OfFn
import Mathlib.Data.List.Sort

/-!
# Who is next to whom

The nodes of an exchange stand in a ring by their ids. A node finds its place in
the ring by going once through the set, without ever looking at two ids other
than its own at a time, and what it finds are the two next to it, the first and
the last, and its position (`NetworkT.of_ids`).

`around i j` is the node `j` places after `i`. A queue of all nodes that is
turned so that it begins behind `i` holds the nodes around `i` (`turned`).
-/

namespace LibSmoke

/-- `network_t`. -/
structure NetworkT where
  id : UInt16
  prev : UInt16
  next : UInt16
  first : UInt16
  last : UInt16
  pos : UInt16
  deriving DecidableEq

/-- The ids of a set in the order an iterator meets them. -/
def ascending (nodes : Finset UInt16) : List UInt16 :=
  Quotient.liftOn nodes.val (List.insertionSort (· ≤ ·)) fun a b h =>
    List.Perm.eq_of_pairwise (fun _ _ _ _ => UInt16.le_antisymm)
      (List.pairwise_insertionSort _ a) (List.pairwise_insertionSort _ b)
      ((List.perm_insertionSort _ a).trans (h.trans (List.perm_insertionSort _ b).symm))

/-- What is sorted and has the ids of the set is what an iterator meets. -/
theorem ascending_eq {nodes : Finset UInt16} {l : List UInt16}
    (h : (l : Multiset UInt16) = nodes.val) (hl : l.Pairwise (· ≤ ·)) :
    ascending nodes = l := by
  rw [ascending, ← h]
  exact List.Pairwise.insertionSort_eq hl

theorem coe_ascending (nodes : Finset UInt16) :
    (ascending nodes : Multiset UInt16) = nodes.val := by
  obtain ⟨⟨l⟩, hnodup⟩ := nodes
  exact Multiset.coe_eq_coe.mpr (List.perm_insertionSort _ l)

theorem mem_ascending {nodes : Finset UInt16} {j : UInt16} :
    j ∈ ascending nodes ↔ j ∈ nodes := by
  rw [← Multiset.mem_coe, coe_ascending]
  rfl

theorem pairwise_ascending (nodes : Finset UInt16) :
    (ascending nodes).Pairwise (· ≤ ·) := by
  obtain ⟨⟨l⟩, hnodup⟩ := nodes
  exact List.pairwise_insertionSort _ l

namespace NetworkT

/-- The body of the loop of its constructor. -/
def visit (net : NetworkT) (i : UInt16) : NetworkT where
  id := net.id
  prev := if (net.prev = net.id ∨ net.prev < net.id ∧ i > net.prev) ∧ i < net.id
    then i else net.prev
  next := if (net.next = net.id ∨ net.next ≥ net.id ∧ i < net.next) ∧ i > net.id
    then i else net.next
  first := if i < net.first then i else net.first
  last := if i > net.last then i else net.last
  pos := if i < net.id then net.pos + 1 else net.pos

/-- The constructor, on the device with the given id. -/
def of (id : UInt16) (nodes : Finset UInt16) : NetworkT :=
  let net := (ascending nodes).foldl visit ⟨id, id, id, id, id, 1⟩
  { net with
    prev := if net.prev = id then net.last else net.prev
    next := if net.next = id then net.first else net.next }

end NetworkT

/-! ## A queue with an entry of each -/

/-- As many different entries as there are nodes are one of each. -/
theorem perm_ofFn {α : Type} {n : Nat} {f : Fin n → α} {l : List α} (hl : l.Nodup)
    (hsub : ∀ e ∈ l, ∃ k, e = f k) (hlen : l.length = n) : l.Perm (List.ofFn f) := by
  refine (List.subperm_of_subset hl fun e he => ?_).perm_of_length_le ?_
  · obtain ⟨k, rfl⟩ := hsub e he
    exact List.mem_ofFn.mpr ⟨k, rfl⟩
  · rw [List.length_ofFn, hlen]

/-- A queue that takes the smallest id first has the entries in their order. -/
theorem queue_eq_ofFn {β : Type} {n : Nat} {f : Fin n → UInt16 × β}
    (hf : ∀ k l, k < l → (f k).1 < (f l).1) {q : List (UInt16 × β)}
    (hq : q.Pairwise fun a b => a.1 ≤ b.1) (hperm : q.Perm (List.ofFn f)) :
    q = List.ofFn f := by
  refine hperm.eq_of_pairwise ?_ hq ?_
  · intro a b ha hb hab hba
    obtain ⟨k, rfl⟩ := List.mem_ofFn.mp (hperm.mem_iff.mp ha)
    obtain ⟨l, rfl⟩ := List.mem_ofFn.mp hb
    rcases lt_trichotomy k l with hlt | rfl | hlt
    · exact absurd (hf k l hlt) (UInt16.not_lt.mpr hba)
    · rfl
    · exact absurd (hf l k hlt) (UInt16.not_lt.mpr hab)
  · rw [List.pairwise_ofFn]
    exact fun k l hkl => UInt16.le_of_lt (hf k l hkl)

/-! ## The ring -/

theorem range_filter_behind {i n : Nat} (hi : i + 1 ≤ n) :
    (List.range n).filter (i < ·) = (List.range (n - (i + 1))).map (i + 1 + ·) := by
  rw [← Nat.add_sub_of_le hi, List.range_add, List.filter_append,
    List.filter_eq_nil_iff.mpr, List.nil_append, List.filter_eq_self.mpr,
    Nat.add_sub_cancel_left]
  · intro a ha
    obtain ⟨b, -, rfl⟩ := List.mem_map.mp ha
    simp only [decide_eq_true_eq]
    omega
  · intro a ha
    have := List.mem_range.mp ha
    simp only [decide_eq_true_eq]
    omega

theorem range_filter_before {i n : Nat} (hi : i ≤ n) :
    (List.range n).filter (· < i) = List.range i := by
  rw [← Nat.add_sub_of_le hi, List.range_add, List.filter_append,
    List.filter_eq_self.mpr, List.filter_eq_nil_iff.mpr, List.append_nil]
  · intro a ha
    obtain ⟨b, -, rfl⟩ := List.mem_map.mp ha
    simp only [decide_eq_true_eq]
    omega
  · intro a ha
    have := List.mem_range.mp ha
    simp only [decide_eq_true_eq]
    omega

section Ids

variable {m : Nat}

theorem neZero_add_two (m : Nat) : @NeZero Nat Zero.ofOfNat0 (m + 2) :=
  ⟨Nat.succ_ne_zero _⟩

theorem neZero_three : @NeZero Nat Zero.ofOfNat0 3 := neZero_add_two 1

/-- The node `j` places after `i`. -/
def around (i : Fin (m + 2)) (j : Nat) : Fin (m + 2) := Fin.ofNat (m + 2) (i.val + j)

@[simp] theorem around_val (i : Fin (m + 2)) (j : Nat) :
    (around i j).val = (i.val + j) % (m + 2) := rfl

@[simp] theorem around_zero (i : Fin (m + 2)) : around i 0 = i :=
  Fin.ext (Nat.mod_eq_of_lt i.isLt)

theorem around_around (i : Fin (m + 2)) (j k : Nat) :
    around (around i j) k = around i (j + k) := by
  ext
  simp only [around_val, Nat.mod_add_mod, Nat.add_assoc]

theorem around_full (i : Fin (m + 2)) (j : Nat) :
    around i (m + 2 + j) = around i j := by
  ext
  simp only [around_val]
  rw [show i.val + (m + 2 + j) = i.val + j + (m + 2) by omega, Nat.add_mod_right]

theorem add_one_eq_around (i : Fin (m + 2)) : i + 1 = around i 1 := by
  ext
  rw [around_val, Fin.val_add]
  rfl

variable {ids : Fin (m + 2) → UInt16} (hids : ∀ i j, i < j → ids i < ids j)

include hids

theorem ids_lt_iff {i j : Fin (m + 2)} : ids i < ids j ↔ i < j := by
  refine ⟨fun h => ?_, hids i j⟩
  by_contra hle
  rcases lt_or_eq_of_le (not_lt.mp hle) with hlt | heq
  · exact absurd (hids j i hlt) (UInt16.lt_asymm h)
  · rw [heq] at h
    exact UInt16.lt_irrefl _ h

theorem ids_injective : Function.Injective ids := by
  intro i j h
  rcases lt_trichotomy i j with hlt | heq | hlt
  · have := hids i j hlt
    rw [h] at this
    exact absurd this (UInt16.lt_irrefl _)
  · exact heq
  · have := hids j i hlt
    rw [h] at this
    exact absurd this (UInt16.lt_irrefl _)

/-- The loop over the set meets the nodes one after the other. -/
theorem ascending_nodeset : ascending (Agreement.nodeset ids) = List.ofFn ids := by
  refine ascending_eq ?_ ?_
  · have hnodup : (List.ofFn ids).Nodup := List.nodup_ofFn.mpr (ids_injective hids)
    have hset : (List.ofFn ids).toFinset = Agreement.nodeset ids := by
      ext a
      rw [List.mem_toFinset, List.mem_ofFn, Agreement.nodeset, Finset.mem_image]
      simp
    rw [← hset, List.toFinset_val, hnodup.dedup]
  · rw [List.pairwise_ofFn]
    exact fun i j h => UInt16.le_of_lt (hids i j h)

/-- The id of the node with the given number. -/
def idOf (ids : Fin (m + 2) → UInt16) (j : Nat) : UInt16 := ids (Fin.ofNat (m + 2) j)

theorem idOf_lt_iff {j k : Nat} (hj : j < m + 2) (hk : k < m + 2) :
    idOf ids j < idOf ids k ↔ j < k := by
  rw [idOf, idOf, ids_lt_iff hids, Fin.lt_def, Fin.val_ofNat, Fin.val_ofNat,
    Nat.mod_eq_of_lt hj, Nat.mod_eq_of_lt hk]

theorem idOf_inj {j k : Nat} (hj : j < m + 2) (hk : k < m + 2) :
    idOf ids j = idOf ids k ↔ j = k := by
  refine ⟨fun h => ?_, fun h => h ▸ rfl⟩
  have := congrArg Fin.val (ids_injective hids h)
  rwa [Fin.val_ofNat, Fin.val_ofNat, Nat.mod_eq_of_lt hj, Nat.mod_eq_of_lt hk] at this

/-- What the loop has found after the first `t` nodes. -/
def foundAfter (ids : Fin (m + 2) → UInt16) (i t : Nat) : NetworkT where
  id := idOf ids i
  prev := idOf ids (if min t i = 0 then i else min t i - 1)
  next := idOf ids (if t ≤ i + 1 then i else i + 1)
  first := idOf ids (if t = 0 then i else 0)
  last := idOf ids (max i (t - 1))
  pos := UInt16.ofNat (min t i + 1)

theorem visit_foundAfter {i t : Nat} (hi : i < m + 2) (ht : t < m + 2) :
    (foundAfter ids i t).visit (idOf ids t) = foundAfter ids i (t + 1) := by
  have hlt := fun j k => idOf_lt_iff (j := j) (k := k) hids
  have hinj := fun j k => idOf_inj (j := j) (k := k) hids
  have hprev : (if min t i = 0 then i else min t i - 1) < m + 2 := by
    split <;> omega
  have hnext : (if t ≤ i + 1 then i else i + 1) < m + 2 := by
    split <;> omega
  have hfirst : (if t = 0 then i else 0) < m + 2 := by
    split <;> omega
  have hlast : max i (t - 1) < m + 2 := by omega
  simp only [NetworkT.visit, foundAfter, NetworkT.mk.injEq, true_and, gt_iff_lt,
    ge_iff_le]
  refine ⟨?_, ?_, ?_, ?_, ?_⟩
  · simp only [hinj _ _ hprev hi, hlt _ _ hprev hi, hlt _ _ hprev ht, hlt _ _ ht hi]
    rw [← apply_ite (idOf ids)]
    refine congrArg _ ?_
    split_ifs <;> omega
  · simp only [hinj _ _ hnext hi, ← UInt16.not_lt, hlt _ _ hnext hi,
      hlt _ _ ht hnext, hlt _ _ hi ht]
    rw [← apply_ite (idOf ids)]
    refine congrArg _ ?_
    split_ifs <;> omega
  · simp only [hlt _ _ ht hfirst]
    rw [← apply_ite (idOf ids), if_neg (Nat.succ_ne_zero t)]
    refine congrArg _ ?_
    by_cases h0 : t = 0
    · simp only [if_pos h0]
      split <;> omega
    · simp only [if_neg h0]
      split <;> omega
  · simp only [hlt _ _ hlast ht]
    rw [← apply_ite (idOf ids)]
    refine congrArg _ ?_
    split_ifs <;> omega
  · simp only [hlt _ _ ht hi]
    split
    · rw [← UInt16.ofNat_one, ← UInt16.ofNat_add]
      refine congrArg _ ?_
      omega
    · refine congrArg _ ?_
      omega

theorem foldl_visit {i : Nat} (hi : i < m + 2) :
    (List.ofFn ids).foldl NetworkT.visit (foundAfter ids i 0) =
      foundAfter ids i (m + 2) := by
  have hpart : ∀ t ≤ m + 2, ((List.ofFn ids).take t).foldl NetworkT.visit
      (foundAfter ids i 0) = foundAfter ids i t := by
    intro t ht
    induction t with
    | zero => rfl
    | succ t ih =>
        have hlen : t < (List.ofFn ids).length := by
          rw [List.length_ofFn]
          exact ht
        have hget : (List.ofFn ids)[t] = idOf ids t := by
          rw [List.getElem_ofFn, idOf]
          congr 1
          ext
          rw [Fin.val_ofNat, Nat.mod_eq_of_lt ht]
        rw [← List.take_append_getElem hlen, List.foldl_append, ih (by omega), hget]
        exact visit_foundAfter hids hi ht
  have hall := hpart (m + 2) (Nat.le_refl _)
  rwa [List.take_of_length_le (by rw [List.length_ofFn])] at hall

/-- What a node finds out about its place. -/
theorem NetworkT.of_ids (i : Fin (m + 2)) :
    NetworkT.of (ids i) (Agreement.nodeset ids) =
      ⟨ids i, ids (around i (m + 1)), ids (around i 1), ids 0,
        ids (Fin.last (m + 1)), UInt16.ofNat (i.val + 1)⟩ := by
  have hself : idOf ids i.val = ids i := congrArg ids (Fin.ext (Nat.mod_eq_of_lt i.isLt))
  have hzero : foundAfter ids i.val 0 = ⟨ids i, ids i, ids i, ids i, ids i, 1⟩ := by
    simp only [foundAfter, hself, Nat.zero_min, if_true, Nat.zero_le, Nat.zero_add,
      Nat.zero_sub, Nat.max_zero]
    rfl
  have hi := i.isLt
  have hfold := foldl_visit hids hi
  have hmin : min (m + 2) i.val = i.val := by omega
  have hsub : m + 2 - 1 = m + 1 := rfl
  rw [NetworkT.of, ascending_nodeset hids, ← hzero, hfold]
  simp only [foundAfter, hmin, hsub, NetworkT.mk.injEq, hself, true_and]
  have hlast : idOf ids (max i.val (m + 1)) = ids (Fin.last (m + 1)) := by
    refine congrArg ids (Fin.ext ?_)
    rw [Fin.val_ofNat, Fin.val_last, Nat.max_eq_right (by omega),
      Nat.mod_eq_of_lt (by omega)]
  refine ⟨?_, ?_, rfl, hlast, trivial⟩
  · rw [hlast, ← hself]
    by_cases h0 : i.val = 0
    · rw [if_pos h0, if_pos rfl]
      refine congrArg ids (Fin.ext ?_)
      rw [around_val, h0, Nat.zero_add, Fin.val_last, Nat.mod_eq_of_lt (by omega)]
    · rw [if_neg h0, if_neg (by rw [idOf_inj hids] <;> omega)]
      refine congrArg ids (Fin.ext ?_)
      rw [around_val, Fin.val_ofNat, Nat.mod_eq_of_lt (by omega),
        show i.val + (m + 1) = i.val - 1 + (m + 2) by omega, Nat.add_mod_right,
        Nat.mod_eq_of_lt (by omega)]
  · rw [← hself]
    by_cases hl : m + 2 ≤ i.val + 1
    · simp only [if_pos hl, if_true, Nat.succ_ne_zero, if_false]
      refine congrArg ids (Fin.ext ?_)
      rw [around_val, Fin.val_ofNat, show i.val + 1 = m + 2 by omega, Nat.mod_self,
        Nat.zero_mod]
    · rw [if_neg hl, if_neg (by rw [idOf_inj hids] <;> omega)]
      rfl

omit hids in
/-- Those behind `i` and then those before it, in the order of the numbers. -/
theorem turned (i : Fin (m + 2)) :
    (List.finRange (m + 2)).filter (i < ·) ++ (List.finRange (m + 2)).filter (· < i) =
      (List.range (m + 1)).map fun j => around i (j + 1) := by
  have hi := i.isLt
  refine (List.map_injective_iff.mpr Fin.val_injective) ?_
  have hmap : ∀ f : Nat → Bool,
      ((List.finRange (m + 2)).filter fun j => f j.val).map Fin.val =
        (List.range (m + 2)).filter f := by
    intro f
    rw [← List.map_coe_finRange_eq_range, List.filter_map]
    rfl
  rw [List.map_append]
  refine Eq.trans (congrArg₂ _ (hmap (i.val < ·)) (hmap (· < i.val))) ?_
  rw [range_filter_behind (by omega), range_filter_before (by omega), List.map_map]
  refine List.ext_getElem (by simp; omega) fun t h1 h2 => ?_
  rw [List.length_map, List.length_range] at h2
  rw [List.getElem_append]
  split
  · next ht =>
      rw [List.length_map, List.length_range] at ht
      simp only [List.getElem_map, List.getElem_range, Function.comp_apply, around_val]
      rw [Nat.mod_eq_of_lt (by omega)]
      omega
  · next ht =>
      rw [List.length_map, List.length_range] at ht
      simp only [List.getElem_map, List.getElem_range, Function.comp_apply, around_val,
        List.length_map, List.length_range]
      rw [show i.val + (t + 1) = t - (m + 2 - (i.val + 1)) + (m + 2) by omega,
        Nat.add_mod_right, Nat.mod_eq_of_lt (by omega)]

end Ids

end LibSmoke
