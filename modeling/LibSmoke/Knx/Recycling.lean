import LibSmoke.Lib.Keyed
import LibSmoke.Lib.Runs
import LibSmoke.Knx.MultiRings
import LibSmoke.Knx.RingWords

/-!
# Using the table of rings

Two ways to use `MultiRings`. `Op` are its public functions, with rings that hold
whatever they hold: the counter of free slots is exact as long as `deallocateAll` finds
every slot free (`counter_exact_iff`). `Use` are calls of `get` and of the rings they
returned: as long as nobody uses a ring that a collection has deleted since, the table
is a byte queue for every id (`recycled`).
-/

namespace LibSmoke

open Runs

namespace MultiRings

variable {ι : Type} [DecidableEq ι]

/-! ## The public functions -/

/-- How many collections a call of `get` makes. -/
def collections : Nat → MultiRings ι → ι → Nat
  | 0, _, _ => 0
  | fuel + 1, m, id =>
      match search id m.slots 0 none with
      | (none, none) =>
          1 + if m.garbageCollect.numFree = 0 then 0
            else collections fuel m.garbageCollect id
      | _ => 0

/-- A call of `get` returns, after one collection at most. -/
def Ends (m : MultiRings ι) (id : ι) : Prop :=
  ∃ fuel res, get fuel m id = some res ∧ collections fuel m id ≤ 1

/-- A call of a public function; `fill` is whatever is done to a ring in use. -/
inductive Op (ι : Type)
  | get (id : ι)
  | deallocate (i : Nat)
  | deallocateAll
  | fill (i : Nat) (r : RingBuffer)

/-- The ring in slot `i` comes to hold what `r` does. -/
def fill (m : MultiRings ι) (i : Nat) (r : RingBuffer) : MultiRings ι :=
  match m.slots[i]? with
  | some (some (id, _)) => { m with slots := m.slots.set i (some (id, r)) }
  | _ => m

/-- One call; there is no table after a call that does not return. -/
def call (m : Option (MultiRings ι)) (op : Op ι) : Option (MultiRings ι) :=
  m.bind fun m =>
    match op with
    | .get id => (get 2 m id).map Prod.fst
    | .deallocate i => some (m.deallocate i)
    | .deallocateAll => some m.deallocateAll
    | .fill i r => some (m.fill i r)

/-- All calls have returned, the counter is exact, and so is every call of `get` going
to return. -/
def Sound (m : Option (MultiRings ι)) : Prop :=
  ∃ m', m = some m' ∧ m'.numFree = m'.countFree ∧ ∀ id, m'.Ends id

/-- `deallocateAll` has nothing to free. -/
def AllFree (m : Option (MultiRings ι)) (op : Op ι) : Prop :=
  match op with
  | .deallocateAll => ∀ m' ∈ m, m'.countFree = m'.maxRings
  | _ => True

/-! ## How a call of `get` ends -/

omit [DecidableEq ι] in
/-- A collection that leaves no slot free has not changed anything. -/
theorem garbageCollect_full {m : MultiRings ι} (h : none ∉ m.garbageCollect.slots) :
    m.garbageCollect = m := by
  by_cases hall : m.numFree = m.maxRings
  · rw [garbageCollect, if_pos hall]
  · rw [garbageCollect, if_neg hall] at h ⊢
    have hslots := foldl_deallocate m m.maxRings (Nat.le_refl _)
    rw [maxRings, List.take_length, List.drop_length, List.append_nil] at hslots
    rw [maxRings, hslots] at h
    have hkeep : ∀ i, m.deallocate i = m := by
      intro i
      rw [deallocate]
      split
      · next id r hi =>
          refine if_neg fun hempty => h (List.mem_map.mpr ⟨_, List.mem_of_getElem? hi, ?_⟩)
          rw [collected, if_pos hempty]
      · rfl
    generalize List.range m.maxRings = is
    induction is with
    | nil => rfl
    | cons i is ih => rw [List.foldl_cons, hkeep, ih]

theorem search_full {m : MultiRings ι} {id : ι}
    (h : search id m.slots 0 none = (none, none)) : none ∉ m.slots := by
  rcases search_free (congrArg Prod.fst h) with ⟨i, hi, -⟩ | ⟨-, hfull⟩
  · rw [h] at hi
    cases hi
  · exact hfull

/-- A call that does not return after one collection finds everything as it was. -/
theorem get_none {m : MultiRings ι} {id : ι} (h : get 2 m id = none) :
    search id m.slots 0 none = (none, none) ∧ m.garbageCollect = m ∧ m.numFree ≠ 0 := by
  rw [get] at h
  split at h
  · cases h
  · cases h
  · next hsearch =>
      simp only [] at h
      split at h
      · cases h
      · next hfree =>
          rw [get] at h
          split at h
          · cases h
          · cases h
          · next hagain =>
              have hsame := garbageCollect_full (search_full hagain)
              rw [hsame] at hfree
              exact ⟨hsearch, hsame, hfree⟩

/-- Where a collection changes nothing, a call that finds nothing goes on for ever. -/
theorem get_again {m : MultiRings ι} {id : ι} (hsearch : search id m.slots 0 none = (none, none))
    (hsame : m.garbageCollect = m) (hfree : m.numFree ≠ 0) (fuel : Nat) :
    get fuel m id = none := by
  induction fuel with
  | zero => rfl
  | succ fuel ih =>
      rw [get, hsearch]
      simp only [hsame]
      rw [if_neg hfree, ih]

/-- Such a call never returns. -/
theorem get_forever {m : MultiRings ι} {id : ι} (h : get 2 m id = none) (fuel : Nat) :
    get fuel m id = none := by
  obtain ⟨hsearch, hsame, hfree⟩ := get_none h
  exact get_again hsearch hsame hfree fuel

theorem ends_of_get {m : MultiRings ι} {id : ι} {res : MultiRings ι × Option Nat}
    (h : get 2 m id = some res) : m.Ends id := by
  refine ⟨2, res, h, ?_⟩
  rw [collections]
  split
  · next hsearch =>
      split
      · exact Nat.le_refl 1
      · next hfree =>
          rw [collections]
          split
          · next hagain =>
              have hsame := garbageCollect_full (search_full hagain)
              rw [hsame] at hfree
              rw [get_again hsearch hsame hfree] at h
              cases h
          · exact Nat.le_refl 1
  · exact Nat.zero_le 1

/-! ## The counter -/

theorem Exact.ends {m : MultiRings ι} (h : m.Exact) (id : ι) : m.Ends id := by
  rcases get_cases h id with ⟨i, r, -, hget⟩ | ⟨-, i, -, hget⟩ | ⟨-, -, -, hget⟩ |
    ⟨-, -, i, -, hget⟩ <;> exact ends_of_get hget

theorem Exact.get {m : MultiRings ι} (h : m.Exact) (id : ι) :
    ∃ m' res, MultiRings.get 2 m id = some (m', res) ∧ m'.Exact := by
  rcases get_cases h id with ⟨i, r, -, hget⟩ | ⟨-, i, hi, hget⟩ | ⟨-, -, -, hget⟩ |
    ⟨-, -, i, hi, hget⟩
  · exact ⟨_, _, hget, h⟩
  · exact ⟨_, _, hget, allocate_exact h hi id⟩
  · exact ⟨_, _, hget, garbageCollect_exact h⟩
  · exact ⟨_, _, hget, allocate_exact (garbageCollect_exact h) hi id⟩

omit [DecidableEq ι] in
theorem Exact.fill {m : MultiRings ι} (h : m.Exact) (i : Nat) (r : RingBuffer) :
    (m.fill i r).Exact := by
  rw [MultiRings.fill]
  split
  · next id r' hi =>
      have hcount := countFree_set (some (id, r)) hi
      simp only [Option.isNone_some, Bool.false_eq_true, if_false] at hcount
      exact ⟨h.1.trans hcount.symm, (List.length_set ..).trans_lt h.2⟩
  · exact h

omit [DecidableEq ι] in
theorem countFree_deallocateAll (m : MultiRings ι) :
    m.deallocateAll.countFree = m.maxRings := by
  rw [countFree, deallocateAll, List.countP_map, maxRings]
  exact List.countP_eq_length.mpr fun s _ => rfl

theorem Exact.call {m : MultiRings ι} (h : m.Exact) {op : Op ι}
    (hop : AllFree (some m) op) :
    ∃ m', MultiRings.call (some m) op = some m' ∧ m'.Exact := by
  cases op with
  | get id =>
      obtain ⟨m', res, hget, hm'⟩ := h.get id
      exact ⟨m', congrArg (Option.map Prod.fst) hget, hm'⟩
  | deallocate i => exact ⟨_, rfl, deallocate_exact h i⟩
  | deallocateAll =>
      refine ⟨_, rfl, ?_, (List.length_map _).trans_lt h.2⟩
      rw [countFree_deallocateAll]
      exact h.1.trans (hop m rfl)
  | fill i r => exact ⟨_, rfl, h.fill i r⟩

/-- In every run of calls, every call returns and the counter of free slots stays exact
exactly if `deallocateAll` was only called when every slot was free; and a call of `get`
makes one collection at most then. -/
theorem counter_exact_iff {max : Nat} (h : max < 2 ^ 64) (ops : List (Op ι)) :
    (∀ n, Sound (run call (some (new max)) (ops.take n))) ↔
      Meets call AllFree (some (new max)) ops := by
  refine Meets.always_iff (I := fun m => ∃ m', m = some m' ∧ m'.Exact) ?_ ?_ ?_
    ⟨_, rfl, (IsTable.new h).exact⟩ ops
  · rintro m ⟨m', rfl, hm'⟩
    exact ⟨m', rfl, hm'.1, hm'.ends⟩
  · rintro m op ⟨m', rfl, hm'⟩ hop
    exact hm'.call hop
  · rintro m op ⟨m', rfl, hm'⟩ hop ⟨m'', hres, hexact, -⟩
    cases op with
    | deallocateAll =>
        obtain rfl : m'.deallocateAll = m'' := Option.some.inj hres
        rw [countFree_deallocateAll] at hexact
        refine hop fun x hx => ?_
        cases hx
        exact hm'.1.symm.trans hexact
    | get id => exact hop trivial
    | deallocate i => exact hop trivial
    | fill i r => exact hop trivial

/-- A slot that is taken, filled and freed. -/
def takenOnce : List (Op Nat) :=
  [.get 5, .fill 0 (RingBuffer.new 1 Nat.one_pos), .deallocate 0]

theorem exact_of_get : Meets call AllFree (some (new 1)) takenOnce ∧
    ∀ n, Sound (run call (some (new 1)) (takenOnce.take n)) := by
  have hmeets : Meets call AllFree (some (new 1)) takenOnce :=
    ⟨trivial, trivial, trivial, trivial⟩
  exact ⟨hmeets, (counter_exact_iff (show 1 < 2 ^ 64 by decide) takenOnce).mpr hmeets⟩

/-- A ring of one byte that holds it. -/
def fullRing : RingBuffer := ((RingBuffer.new 1 Nat.one_pos).write [7]).1

/-- The slot is taken, freed by `deallocateAll`, and taken again. -/
def takenTwice : List (Op Nat) := [.get 1, .deallocateAll, .get 2, .fill 0 fullRing]

/-- The counter is wrong after `deallocateAll`; and it wraps when the slot is taken
again, so that `get` keeps calling itself. -/
theorem deallocateAll_drifts :
    (¬ ∀ (max : Nat) (ops : List (Op Nat)), max < 2 ^ 64 →
      ∃ m, run call (some (new max)) ops = some m ∧ m.numFree = m.countFree) ∧
    ∃ m, run call (some (new 1)) takenTwice = some m ∧ ∀ fuel, get fuel m 3 = none := by
  constructor
  · intro h
    obtain ⟨m, hm, hexact⟩ := h 1 [.get 1, .deallocateAll] (by decide)
    have hdrift : (run call (some (new 1)) [Op.get 1, .deallocateAll]).map
        (fun m => m.numFree == m.countFree) = some false := by decide
    rw [hm, Option.map_some, beq_iff_eq.mpr hexact] at hdrift
    cases hdrift
  · have hsome : ((run call (some (new 1)) takenTwice).map
        fun m => (get 2 m 3).isNone) = some true := by decide
    obtain ⟨m, hm, hnone⟩ := Option.map_eq_some_iff.mp hsome
    exact ⟨m, hm, get_forever (Option.isNone_iff_eq_none.mp hnone)⟩

/-! ## The rings that `get` returns -/

/-- A use of the table: a call of `get`, or a call of the ring that the `k`-th call of
`get` returned. -/
inductive Use (ι : Type)
  | get (id : ι)
  | on (k : Nat) (c : RingWords.Call)

/-- A table with what its users have: for every call of `get` its id and the slot of the
ring it returned, if it returned one and that has not been deleted since. `log` are the
calls of rings, each with the id its ring was returned for, and `shown` what they
showed. -/
structure Held (ι : Type) where
  table : MultiRings ι
  given : List (ι × Option Nat)
  log : List (ι × Fifo.Op UInt8)
  shown : List (Fifo.Result UInt8)

def Held.start (max : Nat) : Held ι := ⟨new max, [], [], []⟩

/-- The collection of a call of `get` deletes the ring of slot `i`. -/
def deletes (m : MultiRings ι) (id : ι) (i : Nat) : Prop :=
  search id m.slots 0 none = (none, none) ∧ m.garbageCollect.slots[i]? = some none

instance (m : MultiRings ι) (id : ι) (i : Nat) : Decidable (m.deletes id i) :=
  inferInstanceAs (Decidable (_ ∧ _))

/-- One use. A ring that has been deleted has no calls any more, and neither has one
after a call that leaves its buffer. -/
def Held.use (s : Held ι) : Use ι → Option (Held ι)
  | .get id =>
      (MultiRings.get 2 s.table id).map fun res =>
        { s with
          table := res.1
          given := s.given.map (fun p => (p.1, p.2.filter fun i => ¬ s.table.deletes id i)) ++
            [(id, res.2)] }
  | .on k c =>
      match s.given[k]? with
      | some (id, some i) =>
          match s.table.slots[i]? with
          | some (some (id', r)) =>
              if RingWords.Counts r.contents c then
                some { s with
                  table := { s.table with
                    slots := s.table.slots.set i (some (id', (r.call c.op).1)) }
                  log := s.log ++ [(id, c.op)]
                  shown := s.shown ++ [(r.call c.op).2] }
              else none
          | _ => none
      | _ => none

def Held.next (s : Option (Held ι)) (u : Use ι) : Option (Held ι) := s.bind (·.use u)

/-- A queue for every id. -/
def queues : Keyed.Machine ι (ι × Fifo.Op UInt8) (List UInt8) (Fifo.Result UInt8) where
  key := Prod.fst
  lane q x := ((Fifo.step ringCapacity q x.2).1, [(Fifo.step ringCapacity q x.2).2])

/-- What holds of a table and its users. -/
structure Held.Kept (s : Held ι) : Prop where
  table : s.table.IsTable
  alive : ∀ id i, (id, some i) ∈ s.given → ∃ r, s.table.slots[i]? = some (some (id, r))
  bytes : s.table.bytes = (Keyed.run queues (fun _ => []) s.log).1
  shown : s.shown = (Keyed.run queues (fun _ => []) s.log).2

theorem Held.kept_start {max : Nat} (h : max < 2 ^ 64) :
    (Held.start max : Held ι).Kept where
  table := IsTable.new h
  alive := fun id i hp => (by cases hp)
  bytes := funext fun id => bytes_of_missing (IsTable.new h) fun r hr => (by
    cases List.eq_of_mem_replicate hr)
  shown := rfl

/-- A ring that a call of `get` does not delete stays where it is. -/
theorem IsTable.survives {m m' : MultiRings ι} (h : m.IsTable) {id id' : ι}
    {res : Option Nat} (hget : MultiRings.get 2 m id = some (m', res)) {i : Nat}
    {r : RingBuffer} (hi : m.slots[i]? = some (some (id', r))) (hkeep : ¬ m.deletes id i) :
    ∃ r', m'.slots[i]? = some (some (id', r')) := by
  have hset : ∀ {n : MultiRings ι} {j : Nat}, n.slots[i]? = some (some (id', r)) →
      n.slots[j]? = some none → (n.allocate j id).slots[i]? = some (some (id', r)) := by
    intro n j hn hj
    have hne : j ≠ i := fun hji => by
      rw [hji, hn] at hj
      cases hj
    rw [MultiRings.allocate, List.getElem?_set_ne hne]
    exact hn
  have hcollect : (∀ r, some (id, r) ∉ m.slots) → none ∉ m.slots →
      m.garbageCollect.slots[i]? = some (some (id', r)) := by
    intro hmiss hfull
    have hsearch : search id m.slots 0 none = (none, none) := by
      cases hfst : (search id m.slots 0 none).1 with
      | some j =>
          obtain ⟨-, q, hq⟩ := search_hit hfst
          exact absurd (List.mem_of_getElem? hq) (hmiss q)
      | none =>
          rcases search_free hfst with ⟨j, -, hj⟩ | ⟨hsnd, -⟩
          · exact absurd (List.mem_of_getElem? hj) hfull
          · exact Prod.ext hfst hsnd
    refine (getElem?_garbageCollect h.exact).mpr ⟨hi, fun hempty => hkeep ⟨hsearch, ?_⟩⟩
    rw [garbageCollect_slots h.exact, List.getElem?_map, hi, Option.map_some, collected,
      if_pos hempty]
  rcases get_cases h.exact id with ⟨j, q, -, hc⟩ | ⟨-, j, hj, hc⟩ |
    ⟨hmiss, hfull, -, hc⟩ | ⟨hmiss, hfull, j, hj, hc⟩ <;> rw [hc] at hget <;> cases hget
  · exact ⟨r, hi⟩
  · exact ⟨r, hset hi hj⟩
  · exact ⟨r, hcollect hmiss hfull⟩
  · exact ⟨r, hset (hcollect hmiss hfull) hj⟩

theorem Held.Kept.get {s s' : Held ι} (h : s.Kept) {id : ι}
    (hs : s.use (.get id) = some s') : s'.Kept := by
  obtain ⟨⟨m', res⟩, hget, rfl⟩ := Option.map_eq_some_iff.mp hs
  obtain ⟨hm', hslot⟩ := h.table.get hget
  refine ⟨hm', ?_, (funext fun id' => bytes_get h.table hget id').trans h.bytes, h.shown⟩
  intro id' i hp
  rcases List.mem_append.mp hp with hp | hp
  · obtain ⟨⟨id'', slot⟩, hold, heq⟩ := List.mem_map.mp hp
    obtain ⟨rfl, hslot'⟩ := Prod.mk.inj heq
    obtain ⟨rfl, hkeep⟩ := Option.filter_eq_some_iff.mp hslot'
    obtain ⟨r, hr⟩ := h.alive id'' i hold
    exact h.table.survives hget hr (of_decide_eq_true hkeep)
  · obtain ⟨rfl, rfl⟩ := Prod.mk.inj (List.mem_singleton.mp hp)
    exact hslot i rfl

theorem Held.Kept.on {s s' : Held ι} (h : s.Kept) {k : Nat} {c : RingWords.Call}
    (hs : s.use (.on k c) = some s') : s'.Kept := by
  rw [Held.use] at hs
  split at hs
  · next id i hgiven =>
      split at hs
      · next id' r hi =>
          obtain ⟨q, hq⟩ := h.alive id i (List.mem_of_getElem? hgiven)
          rw [hi] at hq
          cases hq
          split at hs
          · cases hs
            obtain ⟨hbytes, hshown, hcap⟩ := r.call_fifo c.op
            rw [h.table.capacity hi] at hbytes hshown
            let R : Rings ι := ⟨s.table, h.table⟩
            let p : R.Ptr id := ⟨i, r, hi⟩
            have hheld : r.contents = (Keyed.run queues (fun _ => []) s.log).1 id :=
              (bytes_of_slot h.table hi).symm.trans (congrFun h.bytes id)
            rw [hheld] at hbytes hshown
            refine ⟨(R.put p _ hcap).table, ?_, ?_, ?_⟩
            · intro id' j hj
              obtain ⟨q, hq⟩ := h.alive id' j hj
              by_cases hij : i = j
              · subst hij
                rw [hi] at hq
                cases hq
                exact ⟨_, List.getElem?_set_self (List.getElem?_eq_some_iff.mp hi).1⟩
              · exact ⟨q, (List.getElem?_set_ne hij).trans hq⟩
            · rw [Keyed.run_append]
              funext id'
              refine (Rings.bytes_put p _ hcap id').trans ?_
              by_cases hid : id' = id
              · subst hid
                rw [if_pos rfl, hbytes]
                exact (Keyed.step_self queues _ (id', c.op)).symm
              · rw [if_neg hid]
                refine (congrFun h.bytes id').trans ?_
                exact (Keyed.step_other queues _ fun heq => hid heq.symm).symm
            · rw [Keyed.run_append, h.shown, hshown]
              rfl
          · cases hs
      · cases hs
  · cases hs

/-- In every run of uses no two slots have one id; the bytes buffered for an id are what
the calls of the rings that were returned for it do to a queue; and `get` always
returns, with nothing only if every slot has another id and a ring that is not empty. -/
theorem recycled {max : Nat} (hmax : max < 2 ^ 64) (uses : List (Use ι)) {s : Held ι}
    (hs : run Held.next (some (Held.start max)) uses = some s) :
    (∀ (i j : Nat) id r r', s.table.slots[i]? = some (some (id, r)) →
      s.table.slots[j]? = some (some (id, r')) → i = j) ∧
    (∀ id, s.table.bytes id =
      (Keyed.laneRun queues [] (Keyed.only queues id s.log)).1) ∧
    s.shown = (Keyed.run queues (fun _ => []) s.log).2 ∧
    ∀ id, ∃ m' res, MultiRings.get 2 s.table id = some (m', res) ∧
      (res = none → ∀ x ∈ s.table.slots,
        ∃ id' r, x = some (id', r) ∧ id' ≠ id ∧ r.size ≠ 0) := by
  have hstep : ∀ (o : Option (Held ι)) (u : Use ι), (∀ s ∈ o, Held.Kept s) →
      ∀ s ∈ Held.next o u, Held.Kept s := by
    intro o u ho s' hs'
    obtain ⟨s, hs, hu⟩ := Option.bind_eq_some_iff.mp hs'
    cases u with
    | get id => exact (ho s hs).get hu
    | on k c => exact (ho s hs).on hu
  have hkept : s.Kept := run_inv (I := fun o => ∀ s ∈ o, Held.Kept s) hstep
    (fun s hs => (Option.some.inj hs) ▸ Held.kept_start hmax) uses s hs
  refine ⟨fun i j id r r' => hkept.table.unique, fun id => ?_, hkept.shown, fun id => ?_⟩
  · rw [hkept.bytes, Keyed.run_lane]
  · obtain ⟨m', res, hget⟩ := hkept.table.get_isSome id
    refine ⟨m', res, hget, fun hnull => ?_⟩
    let R : Rings ι := ⟨s.table, hkept.table⟩
    have hptr := congrArg Prod.snd (Option.some.inj ((R.get_eq id).symm.trans hget))
    rw [hnull] at hptr
    exact (Rings.get_null (Option.map_eq_none_iff.mp hptr)).2

/-- A byte written to the ring that the `k`-th call of `get` returned. -/
def writeTo (k : Nat) : Use Nat := .on k (.write (fun _ => 7) 1)

theorem recycled_one : ∃ s, run Held.next (some (Held.start 1)) [.get 1, writeTo 0, .get 2] =
    some s ∧ ∀ id, s.table.bytes id =
      (Keyed.laneRun queues [] (Keyed.only queues id s.log)).1 := by
  have hsome : (run Held.next (some (Held.start 1)) [.get 1, writeTo 0, .get 2]).isSome =
      true := by decide +kernel
  obtain ⟨s, hs⟩ := Option.isSome_iff_exists.mp hsome
  exact ⟨s, hs, (recycled (show 1 < 2 ^ 64 by decide) _ hs).2.1⟩

/-- A ring that was returned is not there any more: the table has deleted it for another
id. -/
theorem ring_deleted : ¬ ∀ (max : Nat) (uses : List (Use Nat)) (k n : Nat) (s : Held Nat),
    max < 2 ^ 64 → run Held.next (some (Held.start max)) (uses.take n) = some s →
    (∃ id i, s.given[k]? = some (id, some i)) →
    ∃ s', run Held.next (some (Held.start max)) (uses ++ [writeTo k]) = some s' := by
  intro h
  have hgiven : ((Held.start 1).use (.get 1)).map Held.given = some [(1, some 0)] := by
    decide
  obtain ⟨s, hs, hring⟩ := Option.map_eq_some_iff.mp hgiven
  obtain ⟨s', hs'⟩ := h 1 [.get 1, .get 2] 0 1 s (by decide) hs ⟨1, 0, by rw [hring]; rfl⟩
  have hnone : run Held.next (some (Held.start 1)) [.get 1, .get 2, writeTo 0] = none := by
    decide +kernel
  rw [List.cons_append, List.cons_append, List.nil_append, hnone] at hs'
  cases hs'

end MultiRings

end LibSmoke
