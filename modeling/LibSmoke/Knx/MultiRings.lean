import LibSmoke.Knx.RingBuffer
import Mathlib.Data.List.Nodup
import Mathlib.Data.List.Perm.Subperm
import Mathlib.Data.UInt

/-!
# The table of rings

`MultiRings` keeps one ring per sender in a fixed number of slots: `get` hands
out the ring of an id, takes a free slot for a new one, and frees the empty
rings when there is no slot left. A slot is either free or holds an id and its
ring; what the source leaves in the other fields of a free slot is never read.

`get` calls itself again after a collection that freed something, and nothing
in the table itself bounds how often: it runs on fuel here, and `none` is a call
still running when the fuel is spent. The table a packet layer owns only ever
went through `get` and writes to the rings it handed out, and `Rings` carries
what these keep up: the free counter is exact, no id has two slots, every ring
has the capacity it was created with. On such a table `get` needs one collection
at most (`IsTable.get_isSome`), so `Rings.get` is total.

The argument above this file is about `Rings.bytes`, the bytes buffered for an
id. `bytes_get` says that `get` changes them for nobody, whatever it collected,
and `bytes_put` that writing a ring back changes them for its own id alone.
-/

namespace LibSmoke

/-- `size_t` increments and decrements wrap. -/
def sizeInc (n : Nat) : Nat := (n + 1) % 2 ^ 64
def sizeDec (n : Nat) : Nat := (n + (2 ^ 64 - 1)) % 2 ^ 64

/-- The capacity `get` gives a new ring. -/
def ringCapacity : Nat := 1024

/-- A slot in use carries its id and its ring. -/
abbrev Slot (ι : Type) := Option (ι × RingBuffer)

structure MultiRings (ι : Type) where
  slots : List (Slot ι)
  numFree : Nat

namespace MultiRings

variable {ι : Type}

def maxRings (m : MultiRings ι) : Nat := m.slots.length

/-- The constructor: every slot free. -/
def new (max : Nat) : MultiRings ι := ⟨List.replicate max none, max⟩

/-- `deallocate`: free slot `i`, unless it is free already or its ring still
holds something. -/
def deallocate (m : MultiRings ι) (i : Nat) : MultiRings ι :=
  match m.slots[i]? with
  | some (some (_, r)) =>
      if r.size = 0 then ⟨m.slots.set i none, sizeInc m.numFree⟩ else m
  | _ => m

/-- `deallocateAll`: free every slot. The counter stays where it was. -/
def deallocateAll (m : MultiRings ι) : MultiRings ι :=
  { m with slots := m.slots.map fun _ => none }

/-- `garbage_collect`. -/
def garbageCollect (m : MultiRings ι) : MultiRings ι :=
  if m.numFree = m.maxRings then m
  else (List.range m.maxRings).foldl deallocate m

/-- Put a new ring for `id` into slot `i`. -/
def allocate (m : MultiRings ι) (i : Nat) (id : ι) : MultiRings ι :=
  ⟨m.slots.set i (some (id, RingBuffer.new ringCapacity (by decide))),
    sizeDec m.numFree⟩

section Get

variable [DecidableEq ι]

/-- The search of `get`: the slot of `id`, and the first free slot passed on
the way. -/
def search (id : ι) : List (Slot ι) → Nat → Option Nat →
    Option Nat × Option Nat
  | [], _, firstFree => (none, firstFree)
  | s :: ss, i, firstFree =>
      let firstFree := if s.isNone && firstFree.isNone then some i else firstFree
      if (s.map Prod.fst) = some id then (some i, firstFree)
      else search id ss (i + 1) firstFree

/-- `get`: the table afterwards and the slot whose ring is handed out. -/
def get : Nat → MultiRings ι → ι → Option (MultiRings ι × Option Nat)
  | 0, _, _ => none
  | fuel + 1, m, id =>
      match search id m.slots 0 none with
      | (some i, _) => some (m, some i)
      | (none, some i) => some (m.allocate i id, some i)
      | (none, none) =>
          let m := m.garbageCollect
          if m.numFree = 0 then some (m, none) else get fuel m id

/-! ## What the search finds -/

theorem search_hit {id : ι} : ∀ {ss : List (Slot ι)} {i : Nat}
    {firstFree : Option Nat} {j : Nat},
    (search id ss i firstFree).1 = some j →
    i ≤ j ∧ ∃ r, ss[j - i]? = some (some (id, r)) := by
  intro ss
  induction ss with
  | nil => intro i firstFree j h; simp [search] at h
  | cons s ss ih =>
      intro i firstFree j h
      simp only [search] at h
      split at h
      · next hs =>
          simp only [Option.some.injEq] at h
          subst h
          obtain ⟨⟨id', r⟩, hsome, rfl⟩ := Option.map_eq_some_iff.mp hs
          exact ⟨Nat.le_refl _, r, by simp [hsome]⟩
      · obtain ⟨hle, r, hr⟩ := ih h
        refine ⟨by omega, r, ?_⟩
        rw [← hr, show j - i = (j - (i + 1)) + 1 by omega,
          List.getElem?_cons_succ]

theorem search_miss {id : ι} : ∀ {ss : List (Slot ι)} {i : Nat}
    {firstFree : Option Nat},
    (search id ss i firstFree).1 = none → ∀ r, some (id, r) ∉ ss := by
  intro ss
  induction ss with
  | nil => intro _ _ _ r h; cases h
  | cons s ss ih =>
      intro i firstFree h r hmem
      simp only [search] at h
      split at h
      · cases h
      · next hs =>
          rcases List.mem_cons.mp hmem with rfl | hmem
          · exact hs rfl
          · exact ih h r hmem

/-- With nothing passed before, a missed search reports the first free slot. -/
theorem search_free {id : ι} : ∀ {ss : List (Slot ι)} {i : Nat},
    (search id ss i none).1 = none →
    (∃ j, (search id ss i none).2 = some (i + j) ∧ ss[j]? = some none) ∨
      ((search id ss i none).2 = none ∧ none ∉ ss) := by
  have hkeep : ∀ {ss : List (Slot ι)} {i k : Nat},
      (search id ss i (some k)).2 = some k := by
    intro ss
    induction ss with
    | nil => intro i k; rfl
    | cons s ss ih =>
        intro i k
        simp only [search, Option.isNone_some, Bool.and_false]
        split
        · rfl
        · exact ih
  intro ss
  induction ss with
  | nil => intro i _; exact Or.inr ⟨rfl, by simp⟩
  | cons s ss ih =>
      intro i h
      simp only [search] at h ⊢
      split at h
      · cases h
      · next hs =>
          rw [if_neg hs]
          cases s with
          | none => exact Or.inl ⟨0, hkeep, rfl⟩
          | some p =>
              rcases ih h with ⟨j, hj, hget⟩ | ⟨hnone, hmem⟩
              · refine Or.inl ⟨j + 1, ?_, by rw [List.getElem?_cons_succ, hget]⟩
                rw [show i + (j + 1) = i + 1 + j by omega]
                exact hj
              · exact Or.inr ⟨hnone, by simpa using hmem⟩

end Get

/-! ## What a collection frees -/

/-- A slot after a collection. -/
def collected : Slot ι → Slot ι
  | some (id, r) => if r.size = 0 then none else some (id, r)
  | none => none

def countFree (m : MultiRings ι) : Nat := m.slots.countP Option.isNone

/-- The counter of free slots is exact, and fits its type. -/
def Exact (m : MultiRings ι) : Prop :=
  m.numFree = m.countFree ∧ m.slots.length < 2 ^ 64

theorem countFree_set {ss : List (Slot ι)} {i : Nat} {s : Slot ι}
    (s' : Slot ι) (h : ss[i]? = some s) :
    (ss.set i s').countP Option.isNone + (if s.isNone then 1 else 0) =
      ss.countP Option.isNone + (if s'.isNone then 1 else 0) := by
  obtain ⟨hi, hs⟩ := List.getElem?_eq_some_iff.mp h
  have hpos : s.isNone = true → 0 < ss.countP Option.isNone := fun hn =>
    List.countP_pos_iff.mpr ⟨s, List.mem_of_getElem? h, hn⟩
  rw [List.countP_set hi, hs]
  split <;> split <;> simp_all

theorem deallocate_slots (m : MultiRings ι) (i : Nat) :
    (m.deallocate i).slots =
      m.slots.set i (collected ((m.slots[i]?).getD none)) := by
  have hsame : ∀ s, m.slots[i]? = some s → m.slots.set i s = m.slots := by
    intro s hs
    obtain ⟨hi, rfl⟩ := List.getElem?_eq_some_iff.mp hs
    exact List.set_getElem_self hi
  rw [deallocate]
  split
  · next id r hs =>
      rw [hs]
      simp only [Option.getD_some, collected]
      split
      · rfl
      · exact (hsame _ hs).symm
  · next hs =>
      cases hget : m.slots[i]? with
      | none =>
          rw [List.set_eq_of_length_le (List.getElem?_eq_none_iff.mp hget)]
      | some s =>
          cases s with
          | none => exact (hsame _ hget).symm
          | some p => exact absurd hget (hs p.1 p.2)

theorem deallocate_exact {m : MultiRings ι} (h : m.Exact) (i : Nat) :
    (m.deallocate i).Exact := by
  obtain ⟨hfree, hlen⟩ := h
  rw [deallocate]
  split
  · next id r hs =>
      split
      · have hcount := countFree_set none hs
        simp only [Option.isNone_some, Option.isNone_none,
          Bool.false_eq_true, if_false, if_true] at hcount
        have hle : (m.slots.set i none).countP Option.isNone ≤
            (m.slots.set i none).length := List.countP_le_length
        rw [List.length_set] at hle
        refine ⟨?_, by rwa [List.length_set]⟩
        rw [countFree] at hfree
        simp only [countFree, sizeInc]
        rw [hfree, Nat.mod_eq_of_lt (by omega)]
        omega
      · exact ⟨hfree, hlen⟩
  · exact ⟨hfree, hlen⟩

theorem foldl_deallocate (m : MultiRings ι) (k : Nat) (hk : k ≤ m.slots.length) :
    ((List.range k).foldl deallocate m).slots =
      (m.slots.take k).map collected ++ m.slots.drop k := by
  induction k with
  | zero => simp
  | succ k ih =>
      have hlt : k < m.slots.length := hk
      have hmap : ((m.slots.take k).map collected).length = k := by
        rw [List.length_map, List.length_take]; omega
      rw [List.range_succ, List.foldl_append, List.foldl_cons, List.foldl_nil,
        deallocate_slots, ih (by omega),
        List.getElem?_append_right (Nat.le_of_eq hmap),
        List.set_append_right _ _ (Nat.le_of_eq hmap), hmap, Nat.sub_self,
        List.getElem?_drop, Nat.add_zero, List.getElem?_eq_getElem hlt,
        Option.getD_some, List.drop_eq_getElem_cons hlt, List.set_cons_zero,
        List.take_add_one, List.getElem?_eq_getElem hlt, List.map_append,
        List.append_assoc]
      rfl

theorem foldl_deallocate_exact {m : MultiRings ι} (h : m.Exact)
    (is : List Nat) : (is.foldl deallocate m).Exact := by
  induction is generalizing m with
  | nil => exact h
  | cons i is ih => exact ih (deallocate_exact h i)

/-- A collection frees the empty rings, no others. -/
theorem garbageCollect_slots {m : MultiRings ι} (h : m.Exact) :
    m.garbageCollect.slots = m.slots.map collected := by
  rw [garbageCollect]
  split
  · next hall =>
      have hfree : ∀ s ∈ m.slots, s.isNone = true :=
        List.countP_eq_length.mp (h.1.symm.trans hall)
      symm
      refine (List.map_congr_left fun s hs => ?_).trans (List.map_id _)
      rw [Option.isNone_iff_eq_none.mp (hfree s hs)]
      rfl
  · rw [maxRings, foldl_deallocate m _ (Nat.le_refl _), List.take_length,
      List.drop_length, List.append_nil]

theorem garbageCollect_exact {m : MultiRings ι} (h : m.Exact) :
    m.garbageCollect.Exact := by
  rw [garbageCollect]
  split
  · exact h
  · exact foldl_deallocate_exact h _

theorem allocate_exact {m : MultiRings ι} (h : m.Exact) {i : Nat}
    (hi : m.slots[i]? = some none) (id : ι) : (m.allocate i id).Exact := by
  obtain ⟨hfree, hlen⟩ := h
  have hcount := countFree_set
    (some (id, RingBuffer.new ringCapacity (by decide))) hi
  simp only [Option.isNone_some, Option.isNone_none, Bool.false_eq_true,
    if_false, if_true] at hcount
  have hle : m.slots.countP Option.isNone ≤ m.slots.length :=
    List.countP_le_length
  refine ⟨?_, by rw [allocate, List.length_set]; exact hlen⟩
  rw [countFree] at hfree
  simp only [countFree, allocate, sizeDec]
  omega

/-! ## What `get` keeps up

No id has two slots, and every ring has the capacity it was created with. -/

/-- A collection only ever takes slots out of use. -/
theorem getElem?_garbageCollect {m : MultiRings ι} (h : m.Exact) {i : Nat}
    {id : ι} {r : RingBuffer} :
    m.garbageCollect.slots[i]? = some (some (id, r)) ↔
      m.slots[i]? = some (some (id, r)) ∧ r.size ≠ 0 := by
  rw [garbageCollect_slots h, List.getElem?_map]
  constructor
  · intro hi
    obtain ⟨s, hs, hcol⟩ := Option.map_eq_some_iff.mp hi
    cases s with
    | none => cases hcol
    | some p =>
        rw [collected] at hcol
        split at hcol
        · cases hcol
        · next hne =>
            cases hcol
            exact ⟨hs, hne⟩
  · rintro ⟨hs, hne⟩
    rw [hs, Option.map_some, collected, if_neg hne]

/-- What a table keeps up that was only used through `get`. -/
structure IsTable (m : MultiRings ι) : Prop where
  exact : m.Exact
  unique : ∀ {i j : Nat} {id : ι} {r r' : RingBuffer},
    m.slots[i]? = some (some (id, r)) → m.slots[j]? = some (some (id, r')) →
    i = j
  capacity : ∀ {i : Nat} {id : ι} {r : RingBuffer},
    m.slots[i]? = some (some (id, r)) → r.bufsize = ringCapacity

namespace IsTable

variable {m : MultiRings ι}

theorem new {max : Nat} (h : max < 2 ^ 64) :
    (MultiRings.new max : MultiRings ι).IsTable := by
  have hfree : ∀ {i : Nat} {p : ι × RingBuffer},
      (MultiRings.new max : MultiRings ι).slots[i]? ≠ some (some p) := by
    intro i p hi
    rw [MultiRings.new, List.getElem?_replicate] at hi
    split at hi <;> cases hi
  refine ⟨⟨?_, by simpa [MultiRings.new]⟩, fun hi _ => absurd hi hfree,
    fun hi => absurd hi hfree⟩
  simp [MultiRings.new, countFree, List.countP_replicate]

theorem garbageCollect (h : m.IsTable) : m.garbageCollect.IsTable where
  exact := garbageCollect_exact h.exact
  unique := fun hi hj =>
    h.unique ((getElem?_garbageCollect h.exact).mp hi).1
      ((getElem?_garbageCollect h.exact).mp hj).1
  capacity := fun hi => h.capacity ((getElem?_garbageCollect h.exact).mp hi).1

/-- Writing a slot keeps the table one, as long as no other slot has its id. -/
theorem set {i : Nat} {id : ι} {r : RingBuffer} {n : Nat} (h : m.IsTable)
    (hexact : (⟨m.slots.set i (some (id, r)), n⟩ : MultiRings ι).Exact)
    (hid : ∀ j q, m.slots[j]? = some (some (id, q)) → i = j)
    (hcap : r.bufsize = ringCapacity) :
    (⟨m.slots.set i (some (id, r)), n⟩ : MultiRings ι).IsTable := by
  have hcases : ∀ {j : Nat} {id' : ι} {q : RingBuffer},
      (m.slots.set i (some (id, r)))[j]? = some (some (id', q)) →
      (i = j ∧ id' = id ∧ q = r) ∨
        (i ≠ j ∧ m.slots[j]? = some (some (id', q))) := by
    intro j id' q hj
    rw [List.getElem?_set] at hj
    split at hj
    · next hij =>
        split at hj
        · cases hj
          exact Or.inl ⟨hij, rfl, rfl⟩
        · cases hj
    · next hij => exact Or.inr ⟨hij, hj⟩
  refine ⟨hexact, ?_, ?_⟩
  · intro j k id' q q' hj hk
    rcases hcases hj with ⟨rfl, rfl, rfl⟩ | ⟨hij, hj'⟩
    · rcases hcases hk with ⟨rfl, -, -⟩ | ⟨-, hk'⟩
      · rfl
      · exact hid k _ hk'
    · rcases hcases hk with ⟨rfl, rfl, rfl⟩ | ⟨-, hk'⟩
      · exact absurd (hid j _ hj') hij
      · exact h.unique hj' hk'
  · intro j id' q hj
    rcases hcases hj with ⟨-, -, rfl⟩ | ⟨-, hj'⟩
    · exact hcap
    · exact h.capacity hj'

theorem allocate (h : m.IsTable) {i : Nat} {id : ι}
    (hi : m.slots[i]? = some none) (hid : ∀ r, some (id, r) ∉ m.slots) :
    (m.allocate i id).IsTable :=
  h.set (allocate_exact h.exact hi id)
    (fun _ q hq => absurd (List.mem_of_getElem? hq) (hid q)) rfl

end IsTable

/-! ## One call of `get` -/

section Calls

variable [DecidableEq ι]

/-- Everything one call can do on a table whose counter is exact: it finds the
id, or takes a free slot, or collects and then takes a free slot, or collects in
vain. -/
theorem get_cases {m : MultiRings ι} (h : m.Exact) (id : ι) :
    (∃ i r, m.slots[i]? = some (some (id, r)) ∧
      get 2 m id = some (m, some i)) ∨
    ((∀ r, some (id, r) ∉ m.slots) ∧ ∃ i : Nat, m.slots[i]? = some none ∧
      get 2 m id = some (m.allocate i id, some i)) ∨
    ((∀ r, some (id, r) ∉ m.slots) ∧ none ∉ m.slots ∧
      none ∉ m.garbageCollect.slots ∧
      get 2 m id = some (m.garbageCollect, none)) ∨
    ((∀ r, some (id, r) ∉ m.slots) ∧ none ∉ m.slots ∧
      ∃ i, m.garbageCollect.slots[i]? = some none ∧
        get 2 m id = some (m.garbageCollect.allocate i id, some i)) := by
  rcases hs : search id m.slots 0 none with ⟨_ | i, ff⟩
  · have hmiss : ∀ r, some (id, r) ∉ m.slots :=
      search_miss (by rw [hs])
    refine Or.inr ?_
    rcases search_free (show (search id m.slots 0 none).1 = none by rw [hs]) with
      ⟨i, hi, hget⟩ | ⟨hnone, hfull⟩
    · rw [hs, Nat.zero_add] at hi
      simp only [] at hi
      subst hi
      exact Or.inl ⟨hmiss, i, hget, by rw [get, hs]⟩
    · rw [hs] at hnone
      simp only [] at hnone
      subst hnone
      refine Or.inr ?_
      obtain ⟨hfree, hlen⟩ := garbageCollect_exact h
      by_cases hzero : m.garbageCollect.numFree = 0
      · refine Or.inl ⟨hmiss, hfull, ?_, ?_⟩
        · rw [hfree, countFree, List.countP_eq_zero] at hzero
          exact fun hmem => hzero none hmem rfl
        · rw [get, hs]
          simp only []
          rw [if_pos hzero]
      · have hmiss' : (search id m.garbageCollect.slots 0 none).1 = none := by
          cases hs' : (search id m.garbageCollect.slots 0 none).1 with
          | none => rfl
          | some j =>
              obtain ⟨_, r, hr⟩ := search_hit hs'
              have hmem := List.mem_of_getElem? hr
              rw [garbageCollect_slots h] at hmem
              obtain ⟨s, hs, hcol⟩ := List.mem_map.mp hmem
              cases s with
              | none => cases hcol
              | some p =>
                  rw [collected] at hcol
                  split at hcol
                  · cases hcol
                  · rw [hcol] at hs
                    exact absurd hs (hmiss r)
        refine Or.inr ⟨hmiss, hfull, ?_⟩
        rcases search_free hmiss' with ⟨i, hi, hget⟩ | ⟨-, hfull'⟩
        · rw [Nat.zero_add] at hi
          refine ⟨i, hget, ?_⟩
          rw [get, hs]
          simp only []
          rw [if_neg hzero, get,
            show search id m.garbageCollect.slots 0 none = (none, some i) from
              Prod.ext hmiss' hi]
        · rw [hfree, countFree] at hzero
          obtain ⟨s, hs, hn⟩ := List.countP_pos_iff.mp (Nat.pos_of_ne_zero hzero)
          rw [Option.isNone_iff_eq_none.mp hn] at hs
          exact absurd hs hfull'
  · obtain ⟨-, r, hr⟩ := search_hit
      (show (search id m.slots 0 none).1 = some i by rw [hs])
    exact Or.inl ⟨i, r, hr, by rw [get, hs]⟩

namespace IsTable

variable {m : MultiRings ι}

/-- One collection is enough: a call of `get` on a table returns. -/
theorem get_isSome (h : m.IsTable) (id : ι) :
    ∃ m' res, MultiRings.get 2 m id = some (m', res) := by
  rcases get_cases h.exact id with ⟨i, r, -, hget⟩ | ⟨-, i, -, hget⟩ |
    ⟨-, -, -, hget⟩ | ⟨-, -, i, -, hget⟩ <;> exact ⟨_, _, hget⟩

/-- The table `get` leaves, and what it says about the slot handed out. -/
theorem get (h : m.IsTable) {id : ι} {m' : MultiRings ι} {res : Option Nat}
    (hget : MultiRings.get 2 m id = some (m', res)) :
    m'.IsTable ∧
      ∀ i, res = some i → ∃ r, m'.slots[i]? = some (some (id, r)) := by
  have halloc : ∀ {m : MultiRings ι} {i : Nat}, m.slots[i]? = some none →
      ∃ r, (m.allocate i id).slots[i]? = some (some (id, r)) := by
    intro m i hi
    obtain ⟨hlt, -⟩ := List.getElem?_eq_some_iff.mp hi
    exact ⟨_, List.getElem?_set_self hlt⟩
  rcases get_cases h.exact id with ⟨i, r, hi, hc⟩ | ⟨hmiss, i, hi, hc⟩ |
    ⟨hmiss, -, -, hc⟩ | ⟨hmiss, -, i, hi, hc⟩
  · rw [hc] at hget
    cases hget
    exact ⟨h, fun j hj => by cases hj; exact ⟨_, hi⟩⟩
  · rw [hc] at hget
    cases hget
    exact ⟨h.allocate hi hmiss, fun j hj => by cases hj; exact halloc hi⟩
  · rw [hc] at hget
    cases hget
    exact ⟨h.garbageCollect, fun j hj => by cases hj⟩
  · rw [hc] at hget
    cases hget
    refine ⟨h.garbageCollect.allocate hi fun q hq => ?_,
      fun j hj => by cases hj; exact halloc hi⟩
    obtain ⟨k, hk⟩ := List.getElem?_of_mem hq
    exact hmiss q (List.mem_of_getElem?
      ((getElem?_garbageCollect h.exact).mp hk).1)

end IsTable

/-! ## The bytes buffered for an id -/

/-- The ring in use for an id. -/
def ringOf (m : MultiRings ι) (id : ι) : Option RingBuffer :=
  m.slots.findSome? fun s =>
    s.bind fun p => if p.1 = id then some p.2 else none

/-- The bytes buffered for an id; nothing when it has no ring. -/
def bytes (m : MultiRings ι) (id : ι) : List UInt8 :=
  ((m.ringOf id).map RingBuffer.contents).getD []

theorem ringOf_eq_some {m : MultiRings ι} (h : m.IsTable) {id : ι}
    {r : RingBuffer} :
    m.ringOf id = some r ↔ ∃ i : Nat, m.slots[i]? = some (some (id, r)) := by
  have hread : ∀ {s : Slot ι} {q : RingBuffer},
      (s.bind fun p => if p.1 = id then some p.2 else none) = some q →
      s = some (id, q) := by
    intro s q hs
    obtain ⟨p, rfl, hp⟩ := Option.bind_eq_some_iff.mp hs
    split at hp
    · next hid => cases hp; rw [← hid]
    · cases hp
  constructor
  · intro hr
    obtain ⟨s, hs, hq⟩ := List.exists_of_findSome?_eq_some hr
    obtain ⟨i, hi⟩ := List.getElem?_of_mem hs
    exact ⟨i, by rw [hi, hread hq]⟩
  · rintro ⟨i, hi⟩
    cases hr : m.ringOf id with
    | none =>
        have := List.findSome?_eq_none_iff.mp hr _ (List.mem_of_getElem? hi)
        simp at this
    | some q =>
        obtain ⟨s, hs, hq⟩ := List.exists_of_findSome?_eq_some hr
        obtain ⟨j, hj⟩ := List.getElem?_of_mem hs
        rw [hread hq] at hj
        have hij := h.unique hi hj
        subst hij
        rw [hi] at hj
        cases hj
        rfl

theorem bytes_of_slot {m : MultiRings ι} (h : m.IsTable) {id : ι} {i : Nat}
    {r : RingBuffer} (hi : m.slots[i]? = some (some (id, r))) :
    m.bytes id = r.contents := by
  rw [bytes, (ringOf_eq_some h).mpr ⟨i, hi⟩]
  rfl

theorem bytes_of_missing {m : MultiRings ι} (h : m.IsTable) {id : ι}
    (hid : ∀ r, some (id, r) ∉ m.slots) : m.bytes id = [] := by
  rw [bytes]
  cases hr : m.ringOf id with
  | none => rfl
  | some r =>
      obtain ⟨i, hi⟩ := (ringOf_eq_some h).mp hr
      exact absurd (List.mem_of_getElem? hi) (hid r)

/-- Two tables buffer the same bytes for an id when their rings with data for
it are the same. -/
theorem bytes_congr {m m' : MultiRings ι} (h : m.IsTable) (h' : m'.IsTable)
    {id : ι} (hsame : ∀ r, r.size ≠ 0 →
      ((∃ i : Nat, m.slots[i]? = some (some (id, r))) ↔
        ∃ i : Nat, m'.slots[i]? = some (some (id, r)))) :
    m'.bytes id = m.bytes id := by
  have hnil : ∀ {n : MultiRings ι}, n.IsTable →
      (∀ r, r.size ≠ 0 → ¬ ∃ i : Nat, n.slots[i]? = some (some (id, r))) →
      n.bytes id = [] := by
    intro n hn hnone
    rw [bytes]
    cases hr : n.ringOf id with
    | none => rfl
    | some r =>
        obtain ⟨i, hi⟩ := (ringOf_eq_some hn).mp hr
        have hzero : r.size = 0 := by
          by_contra hne
          exact hnone r hne ⟨i, hi⟩
        exact RingBuffer.contents_eq_nil_iff.mpr hzero
  by_cases hany : ∃ r, r.size ≠ 0 ∧ ∃ i : Nat, m.slots[i]? = some (some (id, r))
  · obtain ⟨r, hne, i, hi⟩ := hany
    obtain ⟨j, hj⟩ := (hsame r hne).mp ⟨i, hi⟩
    rw [bytes_of_slot h hi, bytes_of_slot h' hj]
  · rw [hnil h fun r hne hex => hany ⟨r, hne, hex⟩,
      hnil h' fun r hne hex => hany ⟨r, hne, (hsame r hne).mpr hex⟩]

theorem bytes_garbageCollect {m : MultiRings ι} (h : m.IsTable) (id : ι) :
    m.garbageCollect.bytes id = m.bytes id :=
  bytes_congr h h.garbageCollect fun _ hne =>
    ⟨fun ⟨i, hi⟩ => ⟨i, (getElem?_garbageCollect h.exact).mpr ⟨hi, hne⟩⟩,
      fun ⟨i, hi⟩ => ⟨i, ((getElem?_garbageCollect h.exact).mp hi).1⟩⟩

/-- Writing one slot changes the bytes of its own id alone. -/
theorem bytes_set_other {m m' : MultiRings ι} (h : m.IsTable)
    (h' : m'.IsTable) {i : Nat} {s s' : Slot ι} {id : ι}
    (hslots : m'.slots = m.slots.set i s') (hi : m.slots[i]? = some s)
    (hs : ∀ r, s ≠ some (id, r)) (hs' : ∀ r, s' ≠ some (id, r)) :
    m'.bytes id = m.bytes id := by
  have hlt := (List.getElem?_eq_some_iff.mp hi).1
  refine bytes_congr h h' fun _ _ => exists_congr fun j => ?_
  rw [hslots, List.getElem?_set]
  by_cases hij : i = j
  · subst hij
    rw [if_pos rfl, if_pos hlt, hi]
    exact ⟨fun e => absurd (Option.some.inj e) (hs _),
      fun e => absurd (Option.some.inj e) (hs' _)⟩
  · rw [if_neg hij]

theorem bytes_allocate {m : MultiRings ι} (h : m.IsTable) {i : Nat} {id : ι}
    (hi : m.slots[i]? = some none) (hid : ∀ r, some (id, r) ∉ m.slots)
    (id' : ι) : (m.allocate i id).bytes id' = m.bytes id' := by
  have hlt := (List.getElem?_eq_some_iff.mp hi).1
  by_cases heq : id' = id
  · subst heq
    rw [bytes_of_missing h hid,
      bytes_of_slot (h.allocate hi hid) (List.getElem?_set_self hlt),
      RingBuffer.contents_new]
  · exact bytes_set_other h (h.allocate hi hid) rfl hi (fun _ hs => nomatch hs)
      fun _ hs => heq (congrArg Prod.fst (Option.some.inj hs)).symm

/-- `get` changes the bytes buffered for nobody, whatever it collected. -/
theorem bytes_get {m : MultiRings ι} (h : m.IsTable) {id : ι}
    {m' : MultiRings ι} {res : Option Nat}
    (hget : get 2 m id = some (m', res)) (id' : ι) :
    m'.bytes id' = m.bytes id' := by
  rcases get_cases h.exact id with ⟨i, r, hi, hc⟩ | ⟨hmiss, i, hi, hc⟩ |
    ⟨hmiss, -, -, hc⟩ | ⟨hmiss, -, i, hi, hc⟩
  · rw [hc] at hget
    cases hget
    rfl
  · rw [hc] at hget
    cases hget
    exact bytes_allocate h hi hmiss id'
  · rw [hc] at hget
    cases hget
    exact bytes_garbageCollect h id'
  · rw [hc] at hget
    cases hget
    have hmiss' : ∀ q, some (id, q) ∉ m.garbageCollect.slots := by
      intro q hq
      obtain ⟨k, hk⟩ := List.getElem?_of_mem hq
      exact hmiss q (List.mem_of_getElem?
        ((getElem?_garbageCollect h.exact).mp hk).1)
    rw [bytes_allocate h.garbageCollect hi hmiss', bytes_garbageCollect h]

end Calls

end MultiRings

/-! ## The table of a packet layer -/

/-- A table that only `get` and writes to the rings it handed out have touched. -/
structure Rings (ι : Type) extends MultiRings ι where
  table : toMultiRings.IsTable

namespace Rings

open MultiRings

variable {ι : Type}

def new (max : Nat) (h : max < 2 ^ 64) : Rings ι := ⟨_, IsTable.new h⟩

/-- The ring a slot in use points to. -/
structure Ptr (R : Rings ι) (id : ι) where
  slot : Nat
  ring : RingBuffer
  points : R.slots[slot]? = some (some (id, ring))

/-- What `get` hands out: the table, and a pointer to the ring or `NULL`. -/
structure Got (id : ι) where
  rings : Rings ι
  ptr : Option (Ptr rings id)

/-- The pointer to slot `i`, if that is where `id` has its ring. -/
def ptrAt [DecidableEq ι] (R : Rings ι) (id : ι) (i : Nat) :
    Option (Ptr R id) :=
  match h : R.slots[i]? with
  | some (some (id', r)) =>
      if heq : id' = id then some ⟨i, r, by rw [h, heq]⟩ else none
  | _ => none

theorem ptrAt_slot [DecidableEq ι] {R : Rings ι} {id : ι} {i : Nat}
    {r : RingBuffer} (h : R.slots[i]? = some (some (id, r))) :
    (R.ptrAt id i).map Ptr.slot = some i := by
  rw [ptrAt]
  split
  · next id' r' h' =>
      rw [h] at h'
      cases h'
      rw [dif_pos rfl]
      rfl
  · next hne => exact absurd h (hne id r)

/-- `get`, total on a table: its fuel is enough. -/
def get [DecidableEq ι] (R : Rings ι) (id : ι) : Got id :=
  let res := (MultiRings.get 2 R.toMultiRings id).get (by
    obtain ⟨m, i, h⟩ := R.table.get_isSome id
    rw [h]
    rfl)
  let rings : Rings ι := ⟨res.1, (R.table.get (Option.some_get _).symm).1⟩
  ⟨rings, res.2.bind (rings.ptrAt id)⟩

/-- Store a ring back through the pointer `get` handed out. -/
def put {id : ι} (R : Rings ι) (p : Ptr R id) (r : RingBuffer)
    (h : r.bufsize = p.ring.bufsize) : Rings ι :=
  ⟨⟨R.slots.set p.slot (some (id, r)), R.numFree⟩,
    R.table.set
      (by
        have hcount := countFree_set (some (id, r)) p.points
        simp only [Option.isNone_some, Bool.false_eq_true, if_false] at hcount
        refine ⟨?_, by rw [List.length_set]; exact R.table.exact.2⟩
        exact R.table.exact.1.trans hcount.symm)
      (fun _ _ hj => R.table.unique p.points hj)
      (h.trans (R.table.capacity p.points))⟩

/-- The ids that have a ring. -/
def ids (R : Rings ι) : List ι := R.slots.filterMap (Option.map Prod.fst)

variable [DecidableEq ι]

/-- The bytes buffered for an id. -/
def bytes (R : Rings ι) (id : ι) : List UInt8 := R.toMultiRings.bytes id

@[simp] theorem bytes_new {max : Nat} (h : max < 2 ^ 64) (id : ι) :
    (new max h).bytes id = [] := by
  refine bytes_of_missing (IsTable.new h) fun r hr => ?_
  have := List.eq_of_mem_replicate hr
  cases this

theorem bytes_ptr {R : Rings ι} {id : ι} (p : Ptr R id) :
    p.ring.contents = R.bytes id :=
  (bytes_of_slot R.table p.points).symm

omit [DecidableEq ι] in
theorem bufsize_ptr {R : Rings ι} {id : ι} (p : Ptr R id) :
    p.ring.bufsize = ringCapacity :=
  R.table.capacity p.points

/-- Writing a ring back changes the bytes of its own id alone. -/
theorem bytes_put {R : Rings ι} {id : ι} (p : Ptr R id) (r : RingBuffer)
    (h : r.bufsize = p.ring.bufsize) (id' : ι) :
    (R.put p r h).bytes id' = if id' = id then r.contents else R.bytes id' := by
  have hlt := (List.getElem?_eq_some_iff.mp p.points).1
  split
  · next heq =>
      subst heq
      exact bytes_of_slot (R.put p r h).table (List.getElem?_set_self hlt)
  · next hne =>
      exact bytes_set_other R.table (R.put p r h).table rfl p.points
        (fun _ hs => hne (congrArg Prod.fst (Option.some.inj hs)).symm)
        fun _ hs => hne (congrArg Prod.fst (Option.some.inj hs)).symm

/-- What `get` did, in terms of the call on the bare table. -/
theorem get_eq (R : Rings ι) (id : ι) :
    MultiRings.get 2 R.toMultiRings id =
      some ((R.get id).rings.toMultiRings, (R.get id).ptr.map Ptr.slot) := by
  obtain ⟨m, res, h⟩ := R.table.get_isSome id
  have hm : (R.get id).rings.toMultiRings = m := by
    simp only [get, h, Option.get_some]
  have hptr : (R.get id).ptr.map Ptr.slot = res := by
    cases res with
    | none => simp only [get, h, Option.get_some, Option.bind_none]; rfl
    | some i =>
        obtain ⟨q, hq⟩ := (R.table.get h).2 i rfl
        have hslot : (R.get id).rings.slots[i]? = some (some (id, q)) := by
          rw [hm]; exact hq
        have hat : (R.get id).ptr = (R.get id).rings.ptrAt id i := by
          simp only [get, h, Option.get_some, Option.bind_some]
        rw [hat, ptrAt_slot hslot]
  rw [hm, hptr, h]

/-- `get` changes the bytes buffered for nobody. -/
theorem bytes_get (R : Rings ι) (id id' : ι) :
    (R.get id).rings.bytes id' = R.bytes id' :=
  MultiRings.bytes_get R.table (R.get_eq id) id'

omit [DecidableEq ι] in
theorem mem_ids {R : Rings ι} {id : ι} :
    id ∈ R.ids ↔ ∃ r, some (id, r) ∈ R.slots := by
  rw [ids, List.mem_filterMap]
  constructor
  · rintro ⟨s, hs, hid⟩
    obtain ⟨p, rfl, rfl⟩ := Option.map_eq_some_iff.mp hid
    exact ⟨p.2, hs⟩
  · rintro ⟨r, hr⟩
    exact ⟨_, hr, rfl⟩

omit [DecidableEq ι] in
theorem ids_nodup (R : Rings ι) : R.ids.Nodup := by
  refine List.pairwise_filterMap.mpr (List.pairwise_iff_getElem.mpr ?_)
  intro i j hi hj hlt b hb b' hb' heq
  obtain ⟨p, hp, rfl⟩ := Option.map_eq_some_iff.mp hb
  obtain ⟨q, hq, rfl⟩ := Option.map_eq_some_iff.mp hb'
  have hi' : R.slots[i]? = some (some (p.1, p.2)) := by
    rw [List.getElem?_eq_getElem hi, hp]
  have hj' : R.slots[j]? = some (some (p.1, q.2)) := by
    rw [List.getElem?_eq_getElem hj, hq, heq]
  exact absurd (R.table.unique hi' hj') (Nat.ne_of_lt hlt)

/-- `NULL` means that every slot is taken by somebody else, whose ring holds
something. -/
theorem get_null {R : Rings ι} {id : ι} (h : (R.get id).ptr = none) :
    (∀ r, some (id, r) ∉ R.slots) ∧
      ∀ s ∈ R.slots, ∃ id' r, s = some (id', r) ∧ id' ≠ id ∧ r.size ≠ 0 := by
  have hget := R.get_eq id
  rw [h, Option.map_none] at hget
  rcases get_cases R.table.exact id with ⟨i, r, hi, hc⟩ | ⟨hmiss, i, hi, hc⟩ |
    ⟨hmiss, hfull, hgc, hc⟩ | ⟨hmiss, -, i, hi, hc⟩
  · rw [hc] at hget; simp at hget
  · rw [hc] at hget; simp at hget
  · refine ⟨hmiss, fun s hs => ?_⟩
    cases s with
    | none => exact absurd hs hfull
    | some p =>
        refine ⟨p.1, p.2, rfl, fun heq => hmiss p.2 (heq ▸ hs), fun hzero => ?_⟩
        rw [garbageCollect_slots R.table.exact] at hgc
        exact hgc (List.mem_map.mpr ⟨_, hs, by rw [collected, if_pos hzero]⟩)
  · rw [hc] at hget; simp at hget

/-- `get` gives a ring to the id it was called for, to nobody else. -/
theorem ids_get (R : Rings ι) (id : ι) {id' : ι}
    (h : id' ∈ (R.get id).rings.ids) : id' ∈ R.ids ∨ id' = id := by
  have halloc : ∀ {m : MultiRings ι} {i : Nat} {r : RingBuffer},
      some (id', r) ∈ (m.allocate i id).slots →
      some (id', r) ∈ m.slots ∨ id' = id := by
    intro m i r hr
    rcases List.mem_or_eq_of_mem_set hr with hr | heq
    · exact Or.inl hr
    · exact Or.inr (congrArg Prod.fst (Option.some.inj heq))
  have hgc : ∀ {r : RingBuffer}, some (id', r) ∈ R.garbageCollect.slots →
      some (id', r) ∈ R.slots := by
    intro r hr
    obtain ⟨k, hk⟩ := List.getElem?_of_mem hr
    exact List.mem_of_getElem? ((getElem?_garbageCollect R.table.exact).mp hk).1
  obtain ⟨r, hr⟩ := mem_ids.mp h
  have hget := R.get_eq id
  have hrings : ∀ {m : MultiRings ι} {res : Option Nat},
      MultiRings.get 2 R.toMultiRings id = some (m, res) →
      some (id', r) ∈ m.slots := by
    intro m res hm
    rw [hm, Option.some.injEq, Prod.mk.injEq] at hget
    rw [hget.1]
    exact hr
  rcases get_cases R.table.exact id with ⟨i, q, -, hc⟩ | ⟨-, i, -, hc⟩ |
    ⟨-, -, -, hc⟩ | ⟨-, -, i, -, hc⟩
  · exact Or.inl (mem_ids.mpr ⟨r, hrings hc⟩)
  · exact (halloc (hrings hc)).imp_left fun hr => mem_ids.mpr ⟨r, hr⟩
  · exact Or.inl (mem_ids.mpr ⟨r, hgc (hrings hc)⟩)
  · exact (halloc (hrings hc)).imp_left fun hr => mem_ids.mpr ⟨r, hgc hr⟩

theorem maxRings_get (R : Rings ι) (id : ι) :
    (R.get id).rings.maxRings = R.maxRings := by
  have hgc : R.garbageCollect.slots.length = R.slots.length := by
    rw [garbageCollect_slots R.table.exact, List.length_map]
  have hget := R.get_eq id
  rcases get_cases R.table.exact id with ⟨i, q, -, hc⟩ | ⟨-, i, -, hc⟩ |
    ⟨-, -, -, hc⟩ | ⟨-, -, i, -, hc⟩ <;>
    rw [hc, Option.some.injEq, Prod.mk.injEq] at hget <;>
    rw [← hget.1] <;>
    simp only [maxRings, MultiRings.allocate, List.length_set, hgc]

omit [DecidableEq ι] in
theorem ids_put {R : Rings ι} {id id' : ι} {p : Ptr R id} {r : RingBuffer}
    (h : r.bufsize = p.ring.bufsize)
    (hid : id' ∈ (R.put p r h).ids) : id' ∈ R.ids := by
  obtain ⟨q, hq⟩ := mem_ids.mp hid
  rcases List.mem_or_eq_of_mem_set hq with hq | heq
  · exact mem_ids.mpr ⟨q, hq⟩
  · cases heq
    exact mem_ids.mpr ⟨_, List.mem_of_getElem? p.points⟩

omit [DecidableEq ι] in
theorem maxRings_put {R : Rings ι} {id : ι} (p : Ptr R id) (r : RingBuffer)
    (h : r.bufsize = p.ring.bufsize) : (R.put p r h).maxRings = R.maxRings :=
  List.length_set

/-- A table with a slot for everybody never runs out: as long as the ids that
have a ring are among the members of `S`, and `S` is no larger than the table,
every member gets its ring. -/
theorem get_ne_null {R : Rings ι} {S : List ι} (hsize : S.length ≤ R.maxRings)
    (hids : ∀ id ∈ R.ids, id ∈ S) {id : ι} (hid : id ∈ S) :
    ∃ p, (R.get id).ptr = some p := by
  cases hptr : (R.get id).ptr with
  | some p => exact ⟨p, rfl⟩
  | none =>
      exfalso
      obtain ⟨hmiss, hall⟩ := get_null hptr
      have hlen : R.ids.length = R.maxRings := by
        rw [ids, List.length_filterMap_eq_countP, maxRings]
        refine List.countP_eq_length.mpr fun s hs => ?_
        obtain ⟨id', r, rfl, -, -⟩ := hall s hs
        rfl
      have hcons : (id :: R.ids).Nodup := by
        refine List.nodup_cons.mpr ⟨fun hmem => ?_, R.ids_nodup⟩
        obtain ⟨r, hr⟩ := mem_ids.mp hmem
        exact hmiss r hr
      have hsub : (id :: R.ids) ⊆ S := by
        intro x hx
        rcases List.mem_cons.mp hx with rfl | hx
        · exact hid
        · exact hids x hx
      have := (hcons.subperm hsub).length_le
      simp only [List.length_cons] at this
      omega

end Rings

end LibSmoke
