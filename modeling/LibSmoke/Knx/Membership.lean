import LibSmoke.Lib.Runs
import LibSmoke.Knx.Sknx
import Mathlib.Data.Fintype.Card
import Mathlib.Data.Finset.Image

/-!
# Whom the counters find

Nodes that count over a link on which a telegram can be lost, be late or come again: at
every update a node is handed any telegrams that were ever sent. What its counter finds
are sources of telegrams, whatever the packets put together from them say, and it finds
no more than it was told to expect. So a counter that has found as many as there are has
found exactly these (`membership_agrees`).
-/

namespace LibSmoke

open Runs

/-! ## What a counter can find -/

namespace DummyNodeCounter

theorem card_collect {N : UInt8} {nodes : Finset UInt16} (h : nodes.card ≤ N.toNat)
    (q : List Pkt) : (collect N nodes q).1.card ≤ N.toNat := by
  induction q generalizing nodes with
  | nil => exact h
  | cons p q ih =>
      rw [collect]
      split
      · next hlt =>
          split
          · exact ih h
          · split
            · next hnew => exact ih ((Finset.card_insert_of_notMem hnew).trans_le hlt)
            · exact ih h
      · exact h

end DummyNodeCounter

namespace PktWrapper

theorem src_recomposeLoop (src dest : UInt16) (fuel : Nat) (r : RingBuffer) :
    ∀ p ∈ (recomposeLoop src dest fuel r).2, p.src = src := by
  induction fuel generalizing r with
  | zero => exact fun p hp => (by cases hp)
  | succ fuel ih =>
      rw [recomposeLoop]
      split
      · simp only []
        split
        · exact fun p hp => (by cases hp)
        · intro p hp
          rcases List.mem_cons.mp hp with rfl | hp
          · rfl
          · exact ih _ p hp
      · exact fun p hp => (by cases hp)

/-- The packets that a telegram completes have its source. -/
theorem recvOne_src (id : UInt16) (w : PktWrapper) (t : Telegram) :
    (w.recvOne id t).outQ = w.outQ ∧
    ∀ p ∈ (w.recvOne id t).inQ, p ∈ w.inQ ∨ p.src = t.src := by
  have hsame : w.outQ = w.outQ ∧ ∀ p ∈ w.inQ, p ∈ w.inQ ∨ p.src = t.src :=
    ⟨rfl, fun p hp => .inl hp⟩
  rw [recvOne]
  split
  · rw [recompose]
    split
    · exact hsame
    · split
      · exact hsame
      · simp only []
        split
        · exact hsame
        · refine ⟨rfl, fun p hp => ?_⟩
          rcases List.mem_append.mp hp with hp | hp
          · exact .inl hp
          · exact .inr (src_recomposeLoop _ _ _ _ p hp)
  · exact hsame

theorem recvAll_src (id : UInt16) (w : PktWrapper) (ts : List Telegram) :
    (w.recvAll id ts).outQ = w.outQ ∧
    ∀ p ∈ (w.recvAll id ts).inQ, p ∈ w.inQ ∨ ∃ t ∈ ts, p.src = t.src := by
  induction ts generalizing w with
  | nil => exact ⟨rfl, fun p hp => .inl hp⟩
  | cons t ts ih =>
      obtain ⟨hout, hin⟩ := ih (w.recvOne id t)
      obtain ⟨hout', hin'⟩ := recvOne_src id w t
      refine ⟨hout.trans hout', fun p hp => ?_⟩
      rcases hin p hp with hp | ⟨t', ht', hsrc⟩
      · rcases hin' p hp with hp | hsrc
        · exact .inl hp
        · exact .inr ⟨t, List.mem_cons_self, hsrc⟩
      · exact .inr ⟨t', List.mem_cons_of_mem t ht', hsrc⟩

theorem updated_src (id : UInt16) (w : PktWrapper) (ts : List Telegram) :
    (w.updated id ts).outQ = [] ∧
    ∀ p ∈ (w.updated id ts).inQ, p ∈ w.inQ ∨ ∃ t ∈ ts, p.src = t.src :=
  recvAll_src id { w with outQ := [] } ts

theorem src_telegramsOf (id : UInt16) (p : Outgoing) :
    ∀ t ∈ telegramsOf id p, t.src = id := by
  intro t ht
  obtain ⟨i, -, rfl⟩ := List.mem_map.mp ht
  exact Telegram.src_written _

end PktWrapper

/-! ## The link -/

namespace Membership

/-- A node with its packet layer; `completed` is whether its counter has been there. -/
structure Peer (κ : Type) where
  node : Sknx κ
  pktwrapper : PktWrapper
  completed : Bool

/-- The nodes, and the telegrams that were sent. -/
structure Link (κ : Type) (n : Nat) where
  peer : Fin n → Peer κ
  log : List Telegram

/-- An update of node `i`, which is handed the telegrams that were sent as the `ks`-th. -/
structure Update (n : Nat) where
  i : Fin n
  ks : List Nat
  mustUpdate : Bool

section Run

variable {κ : Type} (K : KeyExchange κ) (N : UInt8) (ids : Fin N.toNat → UInt16)

/-- Every node has called `init`; its packet layer has rings for `max` others. -/
def start (max : Nat) (hmax : max < 2 ^ 64) (key : Fin N.toNat → κ) :
    Link κ N.toNat where
  peer := fun i => ⟨((Sknx.new (key i)).init (ids i)).1, .new max hmax, false⟩
  log := []

/-- What a node writes in a call. -/
def writeAll (id : UInt16) (w : PktWrapper) (ps : List Outgoing) : PktWrapper :=
  ps.foldl (fun w p => (w.write id p).1) w

/-- `SKNX::update`: the packet layer sends what it has and receives (`PktWrapper.update_eq`),
and then the node has its turn. -/
def Peer.update (id : UInt16) (got : List Telegram) (mustUpdate : Bool) (s : Peer κ) :
    Peer κ :=
  let w := s.pktwrapper.updated id got
  let a := s.node.turn K N mustUpdate w.inQ
  { node := a.state
    pktwrapper := writeAll id { w with inQ := a.rest } a.wrote
    completed := s.completed || decide (a.state.counter.status = .completed) }

def step (b : Link κ N.toNat) (u : Update N.toNat) : Link κ N.toNat :=
  let log := b.log ++ (b.peer u.i).pktwrapper.outQ
  { peer := Function.update b.peer u.i
      ((b.peer u.i).update K N (ids u.i) (u.ks.filterMap (log[·]?)) u.mustUpdate)
    log := log }

end Run

/-- What holds of one node. -/
structure Peer.Ok {κ : Type} {N : UInt8} (ids : Fin N.toNat → UInt16) (i : Fin N.toNat)
    (s : Peer κ) : Prop where
  own : ids i ∈ s.node.counter.nodes
  known : ∀ x ∈ s.node.counter.nodes, ∃ j, x = ids j
  card : s.node.counter.nodes.card ≤ N.toNat
  found : s.completed = true ∨ s.node.counter.status ≠ .counting ∨
    s.node.counter.updateLoopsRemaining > 0 → s.node.counter.nodes.card = N.toNat
  queued : s.node.status = .counting → ∀ p ∈ s.pktwrapper.inQ, ∃ j, p.src = ids j
  sends : ∀ t ∈ s.pktwrapper.outQ, ∃ j, t.src = ids j

structure Inv {κ : Type} {N : UInt8} (ids : Fin N.toNat → UInt16) (b : Link κ N.toNat) :
    Prop where
  log : ∀ t ∈ b.log, ∃ j, t.src = ids j
  peer : ∀ i, (b.peer i).Ok ids i

section Invariant

variable {κ : Type} {K : KeyExchange κ} {N : UInt8} {ids : Fin N.toNat → UInt16}

theorem writeAll_eq (id : UInt16) (w : PktWrapper) (ps : List Outgoing) :
    (writeAll id w ps).inQ = w.inQ ∧
    ∀ t ∈ (writeAll id w ps).outQ, t ∈ w.outQ ∨ t.src = id := by
  induction ps generalizing w with
  | nil => exact ⟨rfl, fun t ht => .inl ht⟩
  | cons p ps ih =>
      obtain ⟨hin, hout⟩ := ih (w.write id p).1
      refine ⟨hin, fun t ht => ?_⟩
      rcases hout t ht with ht | hsrc
      · rcases List.mem_append.mp ht with ht | ht
        · exact .inl ht
        · exact .inr (PktWrapper.src_telegramsOf id p t ht)
      · exact .inr hsrc

theorem start_inv (max : Nat) (hmax : max < 2 ^ 64) (key : Fin N.toNat → κ) :
    Inv ids (start N ids max hmax key) where
  log := fun t ht => (by cases ht)
  peer := fun i => {
    own := Finset.mem_singleton_self _
    known := fun x hx => ⟨i, Finset.mem_singleton.mp hx⟩
    card := (Finset.card_singleton _).trans_le (Nat.succ_le_of_lt (Fin.pos i))
    found := fun h => by
      rcases h with h | h | h
      · cases h
      · exact absurd rfl h
      · exact absurd h (show ¬ (0 : UInt8) > 0 by decide)
    queued := fun _ p hp => (by cases hp)
    sends := fun t ht => (by cases ht) }

/-- A node keeps what it has found through any turn that leaves its counter alone. -/
theorem Peer.Ok.same {i : Fin N.toNat} {s s' : Peer κ} (h : s.Ok ids i)
    (hnodes : s'.node.counter.nodes = s.node.counter.nodes)
    (hfound : s'.completed = true ∨ s'.node.counter.status ≠ .counting ∨
        s'.node.counter.updateLoopsRemaining > 0 →
      s.completed = true ∨ s.node.counter.status ≠ .counting ∨
        s.node.counter.updateLoopsRemaining > 0)
    (hqueued : s'.node.status = .counting → ∀ p ∈ s'.pktwrapper.inQ, ∃ j, p.src = ids j)
    (hsends : ∀ t ∈ s'.pktwrapper.outQ, ∃ j, t.src = ids j) : s'.Ok ids i where
  own := hnodes ▸ h.own
  known := hnodes ▸ h.known
  card := hnodes ▸ h.card
  found := fun hf => by
    rw [hnodes]
    exact h.found (hfound hf)
  queued := hqueued
  sends := hsends

/-- A counter that is as it was has come no further. -/
theorem settled_kept {s : Peer κ} {c : DummyNodeCounter} (hc : c = s.node.counter)
    (hf : (s.completed || decide (c.status = .completed)) = true ∨ c.status ≠ .counting ∨
      c.updateLoopsRemaining > 0) :
    s.completed = true ∨ s.node.counter.status ≠ .counting ∨
      s.node.counter.updateLoopsRemaining > 0 := by
  subst hc
  rw [Bool.or_eq_true, decide_eq_true_iff] at hf
  rcases hf with (hf | hf) | hf
  · exact .inl hf
  · exact .inr (.inl (by rw [hf]; exact CounterStatus.noConfusion))
  · exact .inr hf

/-- A counter that waits or has completed after an update has found all nodes. -/
theorem Peer.Ok.found_counting {i : Fin N.toNat} {s : Peer κ} (h : s.Ok ids i)
    (hc : s.node.counter.status = .counting) (q : List Pkt) {c : DummyNodeCounter}
    (hcounter : c = (s.node.counter.update N q).state)
    (hf : (s.completed || decide (c.status = .completed)) = true ∨ c.status ≠ .counting ∨
      c.updateLoopsRemaining > 0) : c.nodes.card = N.toNat := by
  subst hcounter
  by_cases hdone : s.completed = true
  · have hall := h.found (.inl hdone)
    rw [(DummyNodeCounter.update_counting hc).2.1,
      DummyNodeCounter.collect_full (by rw [hall]; exact Nat.lt_irrefl _)]
    exact hall
  · refine DummyNodeCounter.update_found hc (fun hl => h.found (.inr (.inr hl))) ?_
    rw [Bool.not_eq_true] at hdone
    rw [hdone, Bool.false_or] at hf
    rcases hf with hf | hf | hf
    · refine .inr fun hcounting => ?_
      cases hcounting.symm.trans (of_decide_eq_true hf)
    · exact .inr hf
    · exact .inl hf

/-- After an update of a counting node: what it has found it knew, or read. -/
theorem Peer.Ok.known_counting {i : Fin N.toNat} {s : Peer κ} (h : s.Ok ids i)
    {q : List Pkt} (hq : ∀ p ∈ q, ∃ j, p.src = ids j) :
    ∀ x ∈ (DummyNodeCounter.collect N s.node.counter.nodes q).1, ∃ j, x = ids j := by
  intro x hx
  rcases DummyNodeCounter.mem_collect hx with hx | ⟨p, hp, rfl, -⟩
  · exact h.known x hx
  · exact hq p hp

theorem Peer.Ok.update {i : Fin N.toNat} {s : Peer κ} (h : s.Ok ids i)
    {got : List Telegram} (hgot : ∀ t ∈ got, ∃ j, t.src = ids j) (mustUpdate : Bool) :
    (s.update K N (ids i) got mustUpdate).Ok ids i := by
  obtain ⟨hout, hin⟩ := PktWrapper.updated_src (ids i) s.pktwrapper got
  rw [Peer.update]
  generalize s.pktwrapper.updated (ids i) got = w at hout hin ⊢
  have hcase := Sknx.turn_cases K N mustUpdate w.inQ s.node
  generalize Sknx.turn K N mustUpdate w.inQ s.node = a at hcase ⊢
  obtain ⟨hrest, hwritten⟩ := writeAll_eq (ids i) { w with inQ := a.rest } a.wrote
  have hsends : ∀ t ∈ (writeAll (ids i) { w with inQ := a.rest } a.wrote).outQ,
      ∃ j, t.src = ids j := by
    intro t ht
    rcases hwritten t ht with ht | hsrc
    · rw [hout] at ht
      cases ht
    · exact ⟨i, hsrc⟩
  have hqueue : s.node.status = .counting → ∀ p ∈ w.inQ, ∃ j, p.src = ids j := by
    intro hc p hp
    rcases hin p hp with hp | ⟨t, ht, hsrc⟩
    · exact h.queued hc p hp
    · obtain ⟨j, hj⟩ := hgot t ht
      exact ⟨j, hsrc.trans hj⟩
  cases hcase with
  | count hc hstatus hkey hcounter htaken hwrote =>
      obtain ⟨hleft, hnodes, -⟩ := DummyNodeCounter.update_counting (N := N) (q := w.inQ) hc.2
      rw [← hcounter] at hnodes
      rw [← htaken] at hleft
      refine ⟨?_, ?_, ?_, h.found_counting hc.2 w.inQ hcounter, ?_, hsends⟩
      · rw [hnodes]
        exact DummyNodeCounter.subset_collect _ _ _ h.own
      · rw [hnodes]
        exact h.known_counting (hqueue hc.1)
      · rw [hnodes]
        exact DummyNodeCounter.card_collect h.card _
      · intro _ p hp
        rw [hrest] at hp
        refine hqueue hc.1 p ((DummyNodeCounter.collect_suffix N s.node.counter.nodes w.inQ).subset ?_)
        rw [← hleft]
        exact hp
  | begin hc hdone hstatus hcounter =>
      refine h.same (congrArg (·.nodes) hcounter) (fun _ => .inr (.inl ?_))
        (fun hno => absurd hno hstatus) hsends
      rw [hdone]
      exact CounterStatus.noConfusion
  | exchange hc hrun hstatus hcounter =>
      exact h.same (congrArg (·.nodes) hcounter) (settled_kept hcounter)
        (fun hno => absurd hno hstatus) hsends
  | idle hc hstatus hquiet hcounter =>
      exact h.same (congrArg (·.nodes) hcounter) (settled_kept hcounter)
        (fun hno => absurd hno hstatus) hsends

theorem step_inv {b : Link κ N.toNat} (h : Inv ids b) (u : Update N.toNat) :
    Inv ids (step K N ids b u) := by
  have hlog : ∀ t ∈ b.log ++ (b.peer u.i).pktwrapper.outQ, ∃ j, t.src = ids j := by
    intro t ht
    rcases List.mem_append.mp ht with ht | ht
    · exact h.log t ht
    · exact (h.peer u.i).sends t ht
  refine ⟨hlog, fun i => ?_⟩
  simp only [step]
  by_cases hi : i = u.i
  · subst hi
    rw [Function.update_self]
    refine (h.peer u.i).update (fun t ht => ?_) u.mustUpdate
    obtain ⟨k, -, hk⟩ := List.mem_filterMap.mp ht
    exact hlog t (List.mem_of_getElem? hk)
  · rw [Function.update_of_ne hi]
    exact h.peer i

end Invariant

/-- Over a link that loses and repeats telegrams, in every reachable state every node has
found itself, some of the nodes and no more than there are; and a node whose counter has
completed has found them all. -/
theorem membership_agrees {κ : Type} (K : KeyExchange κ) {N : UInt8}
    {ids : Fin N.toNat → UInt16} (hids : Function.Injective ids) {max : Nat}
    (hmax : max < 2 ^ 64) (key : Fin N.toNat → κ) (us : List (Update N.toNat)) :
    let b := run (step K N ids) (start N ids max hmax key) us
    (∀ i, ids i ∈ (b.peer i).node.counter.nodes ∧
      (b.peer i).node.counter.nodes ⊆ Finset.univ.image ids ∧
      (b.peer i).node.counter.nodes.card ≤ N.toNat) ∧
    ∀ i, (b.peer i).completed = true →
      (b.peer i).node.counter.nodes = Finset.univ.image ids := by
  intro b
  have h : Inv ids b :=
    run_inv (I := Inv ids) (fun _ u hb => step_inv hb u) (start_inv max hmax key) us
  have hsub : ∀ i, (b.peer i).node.counter.nodes ⊆ Finset.univ.image ids := by
    intro i x hx
    obtain ⟨j, rfl⟩ := (h.peer i).known x hx
    exact Finset.mem_image_of_mem ids (Finset.mem_univ j)
  refine ⟨fun i => ⟨(h.peer i).own, hsub i, (h.peer i).card⟩, fun i hi => ?_⟩
  refine Finset.eq_of_subset_of_card_le (hsub i) ?_
  rw [(h.peer i).found (.inl hi), Finset.card_image_of_injective _ hids, Finset.card_univ,
    Fintype.card_fin]

/-- A key exchange that does not begin. -/
def noExchange : KeyExchange Unit where
  status := fun _ => .offline
  init := fun _ k => (k, [], false)
  shutdown := id
  update := fun q k => ⟨k, q, [], false⟩

def twoNodes : Fin 2 → UInt16 := fun i => UInt16.ofNat (i.val + 1)

/-- Two nodes, and updates of both in turn in which they are handed the given
telegrams. -/
def twoCount (rounds : List (List Nat)) : Link Unit 2 :=
  run (step noExchange 2 twoNodes) (start 2 twoNodes 2 (by decide) fun _ => ())
    (rounds.flatMap fun ks => [⟨(0 : Fin 2), ks, false⟩, ⟨(1 : Fin 2), ks, false⟩])

/-- The announcements come twice, and then nothing comes any more. -/
def heardTwice : List (List Nat) := [[], [], [0, 1, 0, 1]] ++ List.replicate 64 []

theorem membership_agrees_two : ((twoCount heardTwice).peer (0 : Fin 2)).completed = true ∧
    ((twoCount heardTwice).peer (0 : Fin 2)).node.counter.nodes =
      Finset.univ.image twoNodes := by
  have hdone : ((twoCount heardTwice).peer (0 : Fin 2)).completed = true := by
    decide +kernel
  have hids : Function.Injective twoNodes := by decide
  exact ⟨hdone, (membership_agrees noExchange (N := 2) hids (show 2 < 2 ^ 64 by decide)
    (fun _ => ()) _).2 (0 : Fin 2) hdone⟩

end Membership

end LibSmoke
