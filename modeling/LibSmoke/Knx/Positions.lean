import LibSmoke.Lib.Circle
import LibSmoke.Knx.Bd1KeyExchange

/-!
# The place of a node in any set

Both exchanges that need a ring find the neighbours of a node in one pass over
the set. While the pass goes on, the own id stands for a neighbour that is not
found yet, and who has none on one side gets the one at the other end when it is
over. What has been found after any ids in any order is told by `Found`: `prev`
is the greatest smaller id among them, or still the own one, and so on for the
rest. So at the end a node has the ids before and after its own on the circle of
all ids (`placed`), and the circle is that of the library.

The position is a number of 16 bits. It is one more than the number of smaller
ids as long as there is an id that the set lacks; in the set of all ids the
largest one counts itself round to zero.
-/

namespace LibSmoke

/-- The order of the ids, that of the machine. -/
local instance idOrder : LinearOrder UInt16 where
  le_refl := UInt16.le_refl
  le_trans _ _ _ := UInt16.le_trans
  lt_iff_le_not_ge a b := by grind
  le_antisymm _ _ := UInt16.le_antisymm
  le_total := UInt16.le_total
  toDecidableLE := inferInstance
  toDecidableEq := inferInstance
  toDecidableLT := inferInstance

/-! ## The loop of the cyclic exchange -/

/-- What the loop of `_get_prev_next_nodes` writes. -/
structure PrevNext where
  prev : UInt16
  next : UInt16
  first : UInt16
  last : UInt16

namespace PrevNext

/-- The body of the loop. -/
def visit (id : UInt16) (s : PrevNext) (i : UInt16) : PrevNext where
  first := if i < s.first then i else s.first
  last := if i > s.last then i else s.last
  prev := if (s.prev = id ∨ s.prev < id ∧ i > s.prev) ∧ i < id then i else s.prev
  next := if (s.next = id ∨ s.next ≥ id ∧ i < s.next) ∧ i > id then i else s.next

/-- The loop, and what is patched in behind it. -/
def of (id : UInt16) (nodes : Finset UInt16) : PrevNext :=
  let s := (ascending nodes).foldl (visit id) ⟨id, id, id, id⟩
  let s := { s with prev := if s.prev = id then s.last else s.prev }
  { s with next := if s.next = id then s.first else s.next }

/-- Without the position. -/
def ofNetwork (net : NetworkT) : PrevNext := ⟨net.prev, net.next, net.first, net.last⟩

theorem foldl_visit (l : List UInt16) (net : NetworkT) :
    l.foldl (visit net.id) (ofNetwork net) =
      ofNetwork (l.foldl NetworkT.visit net) := by
  induction l generalizing net with
  | nil => rfl
  | cons i l ih => exact ih (net.visit i)

/-- The two loops find the same. -/
theorem of_eq (id : UInt16) (nodes : Finset UInt16) :
    of id nodes = ofNetwork (NetworkT.of id nodes) := by
  have hloop := foldl_visit (ascending nodes) ⟨id, id, id, id, id, 1⟩
  simp only [ofNetwork] at hloop
  simp only [of, NetworkT.of, ofNetwork, hloop]

end PrevNext

/-- `_get_prev_next_nodes`, with its own loop. -/
def Bd1KeyExchange.getPrevNextNodesLoop (id : UInt16) (m : Bd1KeyExchange) :
    Bd1KeyExchange :=
  let s := PrevNext.of id m.nodes
  { m with prev := s.prev, next := s.next }

/-- It is what the session calls. -/
theorem Bd1KeyExchange.getPrevNextNodesLoop_eq (id : UInt16) (m : Bd1KeyExchange) :
    getPrevNextNodesLoop id m = getPrevNextNodes id m := by
  rw [getPrevNextNodesLoop, PrevNext.of_eq]
  rfl

/-! ## What one pass finds -/

/-- What has been found when the ids of a list were met. -/
structure Found (id : UInt16) (seen : List UInt16) (net : NetworkT) : Prop where
  self : net.id = id
  prev : (net.prev = id ∧ ∀ j ∈ seen, id ≤ j) ∨ IsGreatest {j | j ∈ seen ∧ j < id} net.prev
  next : (net.next = id ∧ ∀ j ∈ seen, j ≤ id) ∨ IsLeast {j | j ∈ seen ∧ id < j} net.next
  first : IsLeast {j | j = id ∨ j ∈ seen} net.first
  last : IsGreatest {j | j = id ∨ j ∈ seen} net.last
  pos : net.pos = UInt16.ofNat (1 + seen.countP (· < id))

namespace Found

variable {id i : UInt16} {seen : List UInt16} {net : NetworkT}

theorem start (id : UInt16) : Found id [] ⟨id, id, id, id, id, 1⟩ where
  self := rfl
  prev := .inl ⟨rfl, nofun⟩
  next := .inl ⟨rfl, nofun⟩
  first := ⟨.inl rfl, by rintro j (rfl | h); exacts [le_refl j, nomatch h]⟩
  last := ⟨.inl rfl, by rintro j (rfl | h); exacts [le_refl j, nomatch h]⟩
  pos := rfl

theorem mem_append_pos (P : UInt16 → Prop) (hi : P i) :
    {j | j ∈ seen ++ [i] ∧ P j} = insert i {j | j ∈ seen ∧ P j} := by
  ext j
  simp only [Set.mem_insert_iff, Set.mem_ofPred_eq, List.mem_append, List.mem_singleton]
  grind

theorem mem_append_neg (P : UInt16 → Prop) (hi : ¬P i) :
    {j | j ∈ seen ++ [i] ∧ P j} = {j | j ∈ seen ∧ P j} := by
  ext j
  simp only [Set.mem_ofPred_eq, List.mem_append, List.mem_singleton]
  grind

theorem own_append (id i : UInt16) (seen : List UInt16) :
    {j | j = id ∨ j ∈ seen ++ [i]} = insert i {j | j = id ∨ j ∈ seen} := by
  ext j
  simp only [Set.mem_insert_iff, Set.mem_ofPred_eq, List.mem_append, List.mem_singleton]
  grind

theorem prev_visit (h : Found id seen net) (i : UInt16) :
    ((net.visit i).prev = id ∧ ∀ j ∈ seen ++ [i], id ≤ j) ∨
      IsGreatest {j | j ∈ seen ++ [i] ∧ j < id} (net.visit i).prev := by
  simp only [NetworkT.visit, h.self, gt_iff_lt]
  by_cases hi : i < id
  · rw [mem_append_pos (· < id) hi]
    rcases h.prev with ⟨hself, hnone⟩ | hprev
    · -- it is the first smaller one
      have hempty : {j | j ∈ seen ∧ j < id} = ∅ :=
        Set.eq_empty_of_forall_notMem fun j hj => not_lt.mpr (hnone j hj.1) hj.2
      rw [if_pos ⟨.inl hself, hi⟩, hempty]
      exact .inr (by simp)
    · have hlt : net.prev < id := hprev.1.2
      have hmax := hprev.insert i
      rw [max_comm, max_def_lt] at hmax
      simp only [hlt, hlt.ne, hi, false_or, true_and, and_true]
      exact .inr hmax
  · rw [if_neg (fun hc => hi hc.2), mem_append_neg (· < id) hi]
    rcases h.prev with ⟨hself, hnone⟩ | hprev
    · rw [List.forall_mem_append, List.forall_mem_singleton]
      exact .inl ⟨hself, hnone, not_lt.mp hi⟩
    · exact .inr hprev

theorem next_visit (h : Found id seen net) (i : UInt16) :
    ((net.visit i).next = id ∧ ∀ j ∈ seen ++ [i], j ≤ id) ∨
      IsLeast {j | j ∈ seen ++ [i] ∧ id < j} (net.visit i).next := by
  simp only [NetworkT.visit, h.self, gt_iff_lt, ge_iff_le]
  by_cases hi : id < i
  · rw [mem_append_pos (id < ·) hi]
    rcases h.next with ⟨hself, hnone⟩ | hnext
    · have hempty : {j | j ∈ seen ∧ id < j} = ∅ :=
        Set.eq_empty_of_forall_notMem fun j hj => not_lt.mpr (hnone j hj.1) hj.2
      rw [if_pos ⟨.inl hself, hi⟩, hempty]
      exact .inr (by simp)
    · have hlt : id < net.next := hnext.1.2
      have hmin := hnext.insert i
      rw [min_def_lt] at hmin
      simp only [hlt.le, hlt.ne', hi, false_or, true_and, and_true]
      exact .inr hmin
  · rw [if_neg (fun hc => hi hc.2), mem_append_neg (id < ·) hi]
    rcases h.next with ⟨hself, hnone⟩ | hnext
    · rw [List.forall_mem_append, List.forall_mem_singleton]
      exact .inl ⟨hself, hnone, not_lt.mp hi⟩
    · exact .inr hnext

/-- One more id. -/
theorem visit (h : Found id seen net) (i : UInt16) :
    Found id (seen ++ [i]) (net.visit i) where
  self := h.self
  prev := h.prev_visit i
  next := h.next_visit i
  first := by
    have hfirst := h.first.insert i
    rw [min_def_lt] at hfirst
    rw [own_append]
    exact hfirst
  last := by
    have hlast := h.last.insert i
    rw [max_comm, max_def_lt] at hlast
    rw [own_append]
    exact hlast
  pos := by
    simp only [NetworkT.visit, h.self, h.pos, List.countP_append, List.countP_singleton,
      decide_eq_true_eq]
    split
    · rw [← Nat.add_assoc, UInt16.ofNat_add _ 1, UInt16.ofNat_one]
    · rfl

/-- And any number of them. -/
theorem foldl (h : Found id seen net) (l : List UInt16) :
    Found id (seen ++ l) (l.foldl NetworkT.visit net) := by
  induction l generalizing seen net with
  | nil => rwa [List.append_nil]
  | cons i l ih => simpa using ih (h.visit i)

end Found

/-! ## The ids of a set -/

theorem countP_ascending (nodes : Finset UInt16) (id : UInt16) :
    (ascending nodes).countP (· < id) = Circle.rank nodes id := by
  rw [← Multiset.coe_countP, coe_ascending, Multiset.countP_eq_card_filter]
  rfl

/-- The place of an id among those of a set. -/
structure Placed (nodes : Finset UInt16) (id : UInt16) (net : NetworkT) : Prop where
  self : net.id = id
  prev : Circle.Preceding nodes id net.prev
  next : Circle.Following nodes id net.next
  first : IsLeast {j | j ∈ nodes} net.first
  last : IsGreatest {j | j ∈ nodes} net.last
  pos : net.pos.toNat = (1 + Circle.rank nodes id) % 2 ^ 16

/-- What a node finds out about its place, in any set. -/
theorem placed {nodes : Finset UInt16} {id : UInt16} (hid : id ∈ nodes) :
    Placed nodes id (NetworkT.of id nodes) := by
  have h := (Found.start id).foldl (ascending nodes)
  rw [List.nil_append] at h
  have hset : {j | j = id ∨ j ∈ ascending nodes} = {j | j ∈ nodes} := by
    ext j
    simp only [Set.mem_ofPred_eq, mem_ascending]
    exact or_iff_right_of_imp fun hj => hj ▸ hid
  have hfirst := h.first
  have hlast := h.last
  have hprev := h.prev
  have hnext := h.next
  rw [hset] at hfirst hlast
  simp only [mem_ascending] at hprev hnext
  refine ⟨h.self, ?_, ?_, hfirst, hlast, ?_⟩
  · simp only [NetworkT.of]
    rcases hprev with ⟨hself, hnone⟩ | hprev
    · rw [if_pos hself]
      exact .inr ⟨hnone, hlast⟩
    · rw [if_neg hprev.1.2.ne]
      exact .inl hprev
  · simp only [NetworkT.of]
    rcases hnext with ⟨hself, hnone⟩ | hnext
    · rw [if_pos hself]
      exact .inr ⟨hnone, hfirst⟩
    · rw [if_neg hnext.1.2.ne']
      exact .inl hnext
  · rw [← countP_ascending, ← UInt16.toNat_ofNat']
    exact congrArg UInt16.toNat h.pos

/-! ## The circle of all nodes -/

/-- The id that the node with the given one takes for the next. -/
def nextOf (nodes : Finset UInt16) (id : UInt16) : UInt16 := (NetworkT.of id nodes).next

def prevOf (nodes : Finset UInt16) (id : UInt16) : UInt16 := (NetworkT.of id nodes).prev

def posOf (nodes : Finset UInt16) (id : UInt16) : Nat := (NetworkT.of id nodes).pos.toNat

/-- As long as an id is missing the positions are the numbers from one on. -/
theorem posOf_eq {nodes : Finset UInt16} (hcard : nodes.card < 2 ^ 16) {id : UInt16}
    (hid : id ∈ nodes) : posOf nodes id = 1 + Circle.rank nodes id := by
  have hlt := Circle.rank_lt_card hid
  rw [posOf, (placed hid).pos, Nat.mod_eq_of_lt (by omega)]

theorem bijOn_posOf {nodes : Finset UInt16} (hcard : nodes.card < 2 ^ 16) :
    Set.BijOn (posOf nodes) {j | j ∈ nodes} (Set.Icc 1 nodes.card) := by
  obtain ⟨hmaps, hinj, hsurj⟩ := Circle.rank_bijOn nodes
  refine ⟨fun i hi => ?_, fun i hi j hj hij => ?_, fun n hn => ?_⟩
  · have hlt := hmaps hi
    rw [Set.mem_Iio] at hlt
    rw [Set.mem_Icc, posOf_eq hcard hi]
    omega
  · rw [posOf_eq hcard hi, posOf_eq hcard hj] at hij
    exact hinj hi hj (Nat.add_left_cancel hij)
  · rw [Set.mem_Icc] at hn
    obtain ⟨i, hi, hrank⟩ := hsurj (Set.mem_Iio.mpr (show n - 1 < nodes.card by omega))
    refine ⟨i, hi, ?_⟩
    rw [posOf_eq hcard hi, hrank]
    omega

/-- Who has all other ids below is at position zero. -/
theorem posOf_of_rank {nodes : Finset UInt16} {id : UInt16} (hid : id ∈ nodes)
    (hrank : Circle.rank nodes id = 2 ^ 16 - 1) : posOf nodes id = 0 := by
  rw [posOf, (placed hid).pos, hrank]
  rfl

/-- Which is none of those from one on. -/
theorem not_bijOn_posOf {nodes : Finset UInt16} {id : UInt16} (hid : id ∈ nodes)
    (hpos : posOf nodes id = 0) :
    ¬Set.BijOn (posOf nodes) {j | j ∈ nodes} (Set.Icc 1 nodes.card) := by
  intro h
  have hrange := h.mapsTo hid
  rw [Set.mem_Icc, hpos] at hrange
  omega

/-- Every node of a set finds its place on one circle, whichever loop it runs. -/
theorem places_on_one_circle (nodes : Finset UInt16) :
    (∀ id ∈ nodes, Placed nodes id (NetworkT.of id nodes) ∧
      ∀ m : Bd1KeyExchange, m.nodes = nodes →
        (m.getPrevNextNodesLoop id).prev = prevOf nodes id ∧
          (m.getPrevNextNodesLoop id).next = nextOf nodes id) ∧
    (Set.BijOn (nextOf nodes) {j | j ∈ nodes} {j | j ∈ nodes} ∧
      (∀ i ∈ nodes, ∀ j ∈ nodes, ∃ k < nodes.card, (nextOf nodes)^[k] i = j) ∧
      ∀ i ∈ nodes, (nextOf nodes)^[nodes.card] i = i) ∧
    (∀ i ∈ nodes, prevOf nodes (nextOf nodes i) = i ∧
      nextOf nodes (prevOf nodes i) = i) ∧
    (nodes.card < 2 ^ 16 →
      (∀ i ∈ nodes, posOf nodes i = 1 + (nodes.filter (· < i)).card) ∧
        Set.BijOn (posOf nodes) {j | j ∈ nodes} (Set.Icc 1 nodes.card)) := by
  have hnext : ∀ i ∈ nodes, Circle.Following nodes i (nextOf nodes i) :=
    fun i hi => (placed hi).next
  have hprev : ∀ i ∈ nodes, Circle.Preceding nodes i (prevOf nodes i) :=
    fun i hi => (placed hi).prev
  refine ⟨fun id hid => ⟨placed hid, ?_⟩, ⟨Circle.bijOn_next hnext hprev, ?_, ?_⟩, ?_, ?_⟩
  · rintro m rfl
    rw [Bd1KeyExchange.getPrevNextNodesLoop_eq]
    exact ⟨rfl, rfl⟩
  · exact fun i hi j hj => Circle.iterate_reaches hnext hi hj
  · exact fun i hi => Circle.iterate_card hnext hi
  · exact fun i hi => ⟨Circle.prev_next hnext hprev hi, Circle.next_prev hnext hprev hi⟩
  · exact fun hcard => ⟨fun i hi => posOf_eq hcard hi, bijOn_posOf hcard⟩

/-- Of three nodes the last one goes back to the first. -/
theorem three_on_one_circle :
    nextOf {3, 7, 0x1005} 0x1005 = 3 ∧ prevOf {3, 7, 0x1005} 3 = 0x1005 ∧
      (∃ k < 3, (nextOf {3, 7, 0x1005})^[k] 7 = 3) ∧
      Set.BijOn (posOf {3, 7, 0x1005}) {j | j ∈ ({3, 7, 0x1005} : Finset UInt16)}
        (Set.Icc 1 3) := by
  obtain ⟨-, ⟨-, hreach, -⟩, hback, hpos⟩ := places_on_one_circle {3, 7, 0x1005}
  have hnext : nextOf {3, 7, 0x1005} 0x1005 = 3 := by decide +kernel
  refine ⟨hnext, ?_, hreach 7 (by decide) 3 (by decide), (hpos (by decide)).2⟩
  rw [← hnext]
  exact (hback 0x1005 (by decide)).1

/-- The set that lacks no id. -/
def everyId : Finset UInt16 := (Finset.univ : Finset (Fin (2 ^ 16))).image UInt16.ofFin

theorem mem_everyId (id : UInt16) : id ∈ everyId :=
  Finset.mem_image.mpr ⟨id.toFin, Finset.mem_univ _, rfl⟩

theorem card_everyId : everyId.card = 2 ^ 16 := by
  have hinj : Function.Injective UInt16.ofFin := fun i j h => congrArg UInt16.toFin h
  rw [everyId, Finset.card_image_of_injective _ hinj, Finset.card_univ]
  exact Fintype.card_fin _

/-- In the set of all ids the last one is at position zero. -/
theorem last_of_every_id :
    2 ≤ everyId.card ∧ 0xFFFF ∈ everyId ∧ posOf everyId 0xFFFF = 0 ∧
      (everyId.filter (· < 0xFFFF)).card = 2 ^ 16 - 1 ∧
      ¬Set.BijOn (posOf everyId) {j | j ∈ everyId} (Set.Icc 1 everyId.card) := by
  have hmem := mem_everyId 0xFFFF
  have hrank : Circle.rank everyId 0xFFFF = 2 ^ 16 - 1 := by
    rw [← card_everyId]
    refine Circle.rank_last hmem fun j _ => ?_
    have hj := j.toNat_lt
    have hlast : (0xFFFF : UInt16).toNat = 65535 := rfl
    rw [UInt16.le_iff_toNat_le, hlast]
    omega
  have hpos := posOf_of_rank hmem hrank
  have htwo : 2 ≤ everyId.card := by
    rw [card_everyId]
    decide
  exact ⟨htwo, hmem, hpos, hrank, not_bijOn_posOf hmem hpos⟩

end LibSmoke
