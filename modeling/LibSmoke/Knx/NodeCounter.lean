import LibSmoke.Knx.PktWrapper
import Mathlib.Data.Finset.Card

/-!
# Counting the nodes

The objects on top of the packet layer read packets from its queue and write
packets to it. A call of one of them is an `Act`: the state it leaves, what is
left of the queue, and what it wrote.

`DummyNodeCounter` announces itself in every eighth call and takes packets off
the queue while it knows fewer nodes than it was told to expect. What it takes
it never gives back: a packet that is no announcement is lost. With all nodes
found it stays for sixty-four more calls, so that the others hear of it.
-/

namespace LibSmoke

/-- A call of an object that reads from and writes to the packet layer. -/
structure Act (σ : Type) where
  state : σ
  rest : List Pkt
  wrote : List Outgoing
  ok : Bool

/-- The packets a call took off the queue. -/
def Act.taken {σ : Type} (a : Act σ) (q : List Pkt) : List Pkt :=
  q.take (q.length - a.rest.length)

theorem Act.taken_append {σ : Type} {a : Act σ} {q : List Pkt}
    (h : a.rest <:+ q) : a.taken q ++ a.rest = q := by
  obtain ⟨t, rfl⟩ := h
  rw [Act.taken, List.length_append, Nat.add_sub_cancel, List.take_left]

theorem Act.taken_of_rest {σ : Type} {a : Act σ} {q : List Pkt}
    (h : a.rest = q) : a.taken q = [] := by
  rw [Act.taken, h, Nat.sub_self, List.take_zero]

theorem Act.taken_cons {σ : Type} {a : Act σ} {q : List Pkt}
    (h : a.rest <:+ q) (p : Pkt) : a.taken (p :: q) = p :: a.taken q := by
  have := h.length_le
  rw [Act.taken, Act.taken, List.length_cons, Nat.succ_sub this,
    List.take_succ_cons]

/-- A write with no receiver named and no data. -/
def Outgoing.bare (cmd : UInt8) : Outgoing :=
  ⟨broadcastAddr, cmd, [], by decide⟩

/-- `CMD_NODECOUNTER_THATSME`. -/
def thatsMe : UInt8 := 0x10

inductive CounterStatus
  | offline
  | counting
  | completed
  deriving DecidableEq

structure DummyNodeCounter where
  status : CounterStatus
  nodes : Finset UInt16
  myid : UInt16
  cnt : UInt8
  updateLoopsRemaining : UInt8

namespace DummyNodeCounter

/-- The constructor; it does not write `_myid`. -/
def new : DummyNodeCounter := ⟨.offline, ∅, 0, 0, 0⟩

/-- `init`, on the device with the given id. -/
def init (id : UInt16) (c : DummyNodeCounter) : DummyNodeCounter :=
  { c with myid := id, nodes := {id}, status := .counting }

def shutdown (c : DummyNodeCounter) : DummyNodeCounter :=
  { c with status := .offline }

/-- The reading loop of `update`. -/
def collect (N : UInt8) : Finset UInt16 → List Pkt → Finset UInt16 × List Pkt
  | nodes, [] => (nodes, [])
  | nodes, p :: q =>
      if nodes.card < N.toNat then
        if p.cmd ≠ thatsMe then collect N nodes q
        else if p.src ∉ nodes then collect N (insert p.src nodes) q
        else collect N nodes q
      else (nodes, p :: q)

/-- `update`, with `N` nodes expected. -/
def update (N : UInt8) (q : List Pkt) (c : DummyNodeCounter) :
    Act DummyNodeCounter :=
  if c.status ≠ .counting then ⟨c, q, [], false⟩
  else
    let wrote := if c.cnt % 8 = 0 then [.bare thatsMe] else []
    let got := collect N c.nodes q
    let c := { c with cnt := c.cnt + 1, nodes := got.1 }
    let c :=
      if c.updateLoopsRemaining > 0 then
        let left := c.updateLoopsRemaining - 1
        { c with
          updateLoopsRemaining := left
          status := if left = 0 then .completed else c.status }
      else if c.nodes.card = N.toNat then { c with updateLoopsRemaining := 64 }
      else c
    ⟨c, got.2, wrote, true⟩

/-! ## What a call does -/

theorem collect_suffix (N : UInt8) (nodes : Finset UInt16) (q : List Pkt) :
    (collect N nodes q).2 <:+ q := by
  induction q generalizing nodes with
  | nil => exact List.suffix_refl _
  | cons p q ih =>
      rw [collect]
      split
      · split
        · exact (ih _).trans (List.suffix_cons p q)
        · split
          · exact (ih _).trans (List.suffix_cons p q)
          · exact (ih _).trans (List.suffix_cons p q)
      · exact List.suffix_refl _

theorem subset_collect (N : UInt8) (nodes : Finset UInt16) (q : List Pkt) :
    nodes ⊆ (collect N nodes q).1 := by
  induction q generalizing nodes with
  | nil => exact Finset.Subset.refl _
  | cons p q ih =>
      rw [collect]
      split
      · split
        · exact ih _
        · split
          · exact (Finset.subset_insert _ _).trans (ih _)
          · exact ih _
      · exact Finset.Subset.refl _

/-- The nodes found are those known before and the sources of announcements. -/
theorem mem_collect {N : UInt8} {nodes : Finset UInt16} {q : List Pkt}
    {x : UInt16} (hx : x ∈ (collect N nodes q).1) :
    x ∈ nodes ∨ ∃ p ∈ q, p.src = x ∧ p.cmd = thatsMe := by
  induction q generalizing nodes with
  | nil => exact .inl hx
  | cons p q ih =>
      have hq : ∀ {nodes : Finset UInt16}, x ∈ (collect N nodes q).1 →
          x ∈ nodes ∨ ∃ p' ∈ p :: q, p'.src = x ∧ p'.cmd = thatsMe := by
        intro nodes hx
        rcases ih hx with h | ⟨p', hp', h⟩
        · exact .inl h
        · exact .inr ⟨p', List.mem_cons_of_mem p hp', h⟩
      rw [collect] at hx
      split at hx
      · split at hx
        · exact hq hx
        · next hcmd =>
            split at hx
            · rcases hq hx with h | h
              · rcases Finset.mem_insert.mp h with rfl | h
                · exact .inr ⟨p, List.mem_cons_self, rfl, not_not.mp hcmd⟩
                · exact .inl h
              · exact .inr h
            · exact hq hx
      · exact .inl hx

/-- With enough nodes known nothing is read. -/
theorem collect_full {N : UInt8} {nodes : Finset UInt16}
    (h : ¬ nodes.card < N.toNat) (q : List Pkt) :
    collect N nodes q = (nodes, q) := by
  cases q with
  | nil => rfl
  | cons p q => rw [collect, if_neg h]

theorem update_counting {N : UInt8} {q : List Pkt} {c : DummyNodeCounter}
    (hc : c.status = .counting) :
    (update N q c).rest = (collect N c.nodes q).2 ∧
    (update N q c).state.nodes = (collect N c.nodes q).1 ∧
    (update N q c).wrote = (if c.cnt % 8 = 0 then [.bare thatsMe] else []) ∧
    (update N q c).ok = true := by
  rw [update, if_neg (by simp [hc])]
  refine ⟨rfl, ?_, rfl, rfl⟩
  simp only []
  split
  · rfl
  · split <;> rfl

/-- All nodes are found when the waiting begins, and so when counting ends. -/
theorem update_found {N : UInt8} {q : List Pkt} {c : DummyNodeCounter}
    (hc : c.status = .counting)
    (hfound : c.updateLoopsRemaining > 0 → c.nodes.card = N.toNat)
    (h : (update N q c).state.updateLoopsRemaining > 0 ∨
      (update N q c).state.status ≠ .counting) :
    (update N q c).state.nodes.card = N.toNat := by
  obtain ⟨-, hnodes, -⟩ := update_counting (N := N) (q := q) hc
  rw [hnodes]
  rw [update, if_neg (by simp [hc])] at h
  simp only [] at h
  split at h
  · next hloops =>
      rw [collect_full (by rw [hfound hloops]; exact Nat.lt_irrefl _)]
      exact hfound hloops
  · next hloops =>
      split at h
      · next hcard => exact hcard
      · rcases h with h | h
        · exact absurd h hloops
        · exact absurd hc h

/-- A counter that runs does not go offline by itself. -/
theorem update_ne_offline {N : UInt8} {q : List Pkt} {c : DummyNodeCounter}
    (h : c.status ≠ .offline) : (update N q c).state.status ≠ .offline := by
  rw [update]
  split
  · exact h
  · simp only []
    split
    · simp only []
      split
      · decide
      · exact h
    · split <;> exact h

end DummyNodeCounter

end LibSmoke
