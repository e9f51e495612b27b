import LibSmoke.Lib.Runs

/-!
# Nodes joined by links

Nodes that work at their own pace on what they have been given, and between any
two of them a link that loses nothing and keeps the order. A call of a node
takes messages off the front of its queue and writes some of its own; `route`
says what another node gets of them.

What a node has been given from another is a beginning of what that one wrote
(`Net.Carried`). So a property of the nodes one by one holds in every run when
each call keeps it under the assumption that the others have it (`run_rule`):
the induction over the run, and the bookkeeping of what is under way, are done
here once.
-/

namespace Links

/-- A node with its queue, what it has taken off it, and what it has written. -/
structure Node (σ μ ω : Type) where
  state : σ
  inQ : List μ
  taken : List μ
  wrote : List ω

structure Net (ι σ μ ω : Type) where
  node : ι → Node σ μ ω
  chan : ι → ι → List μ

/-- `other` is a message from outside. -/
inductive Action (ι γ μ : Type)
  | call (i : ι) (c : γ)
  | deliver (i j : ι)
  | other (j : ι) (m : μ)

/-- What a call leaves: the state, the rest of the queue, and what it wrote. -/
structure Turn (σ μ ω : Type) where
  state : σ
  rest : List μ
  wrote : List ω

/-- The part of `q` in front of `rest`. -/
def front {μ : Type} (q rest : List μ) : List μ := q.take (q.length - rest.length)

theorem front_append {μ : Type} {q rest : List μ} (h : rest <:+ q) :
    front q rest ++ rest = q := by
  obtain ⟨t, rfl⟩ := h
  rw [front, List.length_append, Nat.add_sub_cancel, List.take_left]

section Run

variable {ι σ μ ω γ : Type} [DecidableEq ι]
  (act : ι → γ → σ → List μ → Turn σ μ ω) (route : ι → ι → ω → Option μ)
  (ofNode : ι → μ → Bool) (spare : μ → Bool)

def start (s : ι → σ) : Net ι σ μ ω where
  node := fun i => ⟨s i, [], [], []⟩
  chan := fun _ _ => []

/-- The channels when node `i` has written something. -/
def send (i : ι) (w : List ω) (chan : ι → ι → List μ) : ι → ι → List μ :=
  fun k j => if k = i ∧ j ≠ i then chan k j ++ w.filterMap (route i j)
    else chan k j

/-- The node after a call. -/
def Node.after (x : Node σ μ ω) (t : Turn σ μ ω) : Node σ μ ω :=
  ⟨t.state, t.rest, x.taken ++ front x.inQ t.rest, x.wrote ++ t.wrote⟩

/-- One more message for node `j`. -/
def Net.give (b : Net ι σ μ ω) (j : ι) (m : μ) : ι → Node σ μ ω :=
  Function.update b.node j { b.node j with inQ := (b.node j).inQ ++ [m] }

def step (b : Net ι σ μ ω) : Action ι γ μ → Net ι σ μ ω
  | .call i c =>
      let t := act i c (b.node i).state (b.node i).inQ
      { node := Function.update b.node i ((b.node i).after t)
        chan := send route i t.wrote b.chan }
  | .deliver i j =>
      match b.chan i j with
      | [] => b
      | m :: rest =>
          { node := b.give j m
            chan := fun k l => if k = i ∧ l = j then rest else b.chan k l }
  | .other j m => if spare m then { b with node := b.give j m } else b

/-- What a node has been given. -/
def Node.given (x : Node σ μ ω) : List μ := x.taken ++ x.inQ

/-- Nothing is lost between two nodes, and what is no spare message comes from
one of the other nodes. -/
structure Net.Carried (b : Net ι σ μ ω) : Prop where
  link : ∀ k j, k ≠ j → (b.node j).given.filter (ofNode k) ++ b.chan k j =
    (b.node k).wrote.filterMap (route k j)
  self : ∀ k, b.chan k k = []
  known : ∀ j, ∀ m ∈ (b.node j).given, spare m ∨ ∃ k, k ≠ j ∧ ofNode k m
  routed : ∀ k j, ∀ o ∈ (b.node k).wrote, ∀ m, route k j o = some m → ofNode k m

/-- The calls and the routes fit together. -/
structure Lawful : Prop where
  reads : ∀ i c s q, (act i c s q).rest <:+ q
  routed : ∀ i c s q, ∀ o ∈ (act i c s q).wrote, ∀ j m, route i j o = some m →
    ofNode i m
  one : ∀ k l m, ofNode k m → ofNode l m → k = l
  apart : ∀ k m, spare m → ofNode k m = false

variable {act route ofNode spare} {b : Net ι σ μ ω}

omit [DecidableEq ι] in
theorem Node.given_after (x : Node σ μ ω) {t : Turn σ μ ω}
    (h : t.rest <:+ x.inQ) : (x.after t).given = x.given := by
  rw [Node.given, Node.after, List.append_assoc, front_append h, Node.given]

@[simp] theorem Net.give_wrote (j : ι) (m : μ) (k : ι) :
    (b.give j m k).wrote = (b.node k).wrote := by
  by_cases hk : k = j
  · subst hk
    rw [Net.give, Function.update_self]
  · rw [Net.give, Function.update_of_ne hk]

@[simp] theorem Net.give_state (j : ι) (m : μ) (k : ι) :
    (b.give j m k).state = (b.node k).state ∧
    (b.give j m k).taken = (b.node k).taken := by
  by_cases hk : k = j
  · subst hk
    rw [Net.give, Function.update_self]
    exact ⟨rfl, rfl⟩
  · rw [Net.give, Function.update_of_ne hk]
    exact ⟨rfl, rfl⟩

theorem Net.give_given (j : ι) (m : μ) (k : ι) :
    (b.give j m k).given =
      (b.node k).given ++ if k = j then [m] else [] := by
  by_cases hk : k = j
  · subst hk
    rw [Net.give, Function.update_self, if_pos rfl, Node.given, Node.given,
      List.append_assoc]
  · rw [Net.give, Function.update_of_ne hk, if_neg hk, List.append_nil]

namespace Net.Carried

omit [DecidableEq ι] in
theorem start (s : ι → σ) :
    (Links.start s : Net ι σ μ ω).Carried route ofNode spare where
  link := fun _ _ _ => rfl
  self := fun _ => rfl
  known := fun _ _ hm => absurd hm List.not_mem_nil
  routed := fun _ _ _ ho => absurd ho List.not_mem_nil

omit [DecidableEq ι] in
/-- What is under way from `k` is of `k`. -/
theorem ofNode_chan (h : b.Carried route ofNode spare) {k j : ι} {m : μ}
    (hm : m ∈ b.chan k j) : k ≠ j ∧ ofNode k m := by
  have hkj : k ≠ j := by
    rintro rfl
    rw [h.self] at hm
    exact absurd hm List.not_mem_nil
  have hmem : m ∈ (b.node k).wrote.filterMap (route k j) := by
    rw [← h.link k j hkj]
    exact List.mem_append_right _ hm
  obtain ⟨o, ho, hroute⟩ := List.mem_filterMap.mp hmem
  exact ⟨hkj, h.routed k j o ho m hroute⟩

theorem call (h : b.Carried route ofNode spare)
    (hL : Lawful act route ofNode spare) (i : ι) (c : γ) :
    (step act route spare b (.call i c)).Carried route ofNode spare := by
  have hrest := hL.reads i c (b.node i).state (b.node i).inQ
  have hgiven : ∀ j, ((step act route spare b (.call i c)).node j).given =
      (b.node j).given := by
    intro j
    by_cases hj : j = i
    · subst hj
      simp only [step, Function.update_self]
      exact Node.given_after _ hrest
    · simp only [step, Function.update_of_ne hj]
  refine ⟨fun k j hkj => ?_, fun k => ?_, fun j => ?_, fun k j o ho => ?_⟩
  · rw [hgiven]
    by_cases hk : k = i
    · subst hk
      simp only [step, Function.update_self, send, Node.after]
      rw [if_pos ⟨trivial, hkj.symm⟩, ← List.append_assoc, h.link k j hkj,
        List.filterMap_append]
    · simp only [step, Function.update_of_ne hk, send]
      rw [if_neg fun hc => hk hc.1]
      exact h.link k j hkj
  · simp only [step, send]
    rw [if_neg fun hc => hc.2 hc.1]
    exact h.self k
  · rw [hgiven]
    exact h.known j
  · by_cases hk : k = i
    · subst hk
      simp only [step, Function.update_self, Node.after] at ho
      rcases List.mem_append.mp ho with ho | ho
      · exact h.routed k j o ho
      · exact hL.routed k c _ _ o ho j
    · simp only [step, Function.update_of_ne hk] at ho
      exact h.routed k j o ho

/-- One more message for node `j`: a spare one, or the next from `i`. -/
theorem give (h : b.Carried route ofNode spare)
    (hL : Lawful act route ofNode spare) {j : ι} {m : μ}
    {chan : ι → ι → List μ}
    (hm : spare m ∧ chan = b.chan ∨
      ∃ i rest, b.chan i j = m :: rest ∧
        chan = fun k l => if k = i ∧ l = j then rest else b.chan k l) :
    Net.Carried route ofNode spare ⟨b.give j m, chan⟩ := by
  refine ⟨fun k l hkl => ?_, fun k => ?_, fun l m' hm' => ?_, fun k l o ho => ?_⟩
  · have hlink := h.link k l hkl
    simp only [Net.give_wrote, Net.give_given, List.filter_append]
    rw [← hlink, List.append_assoc]
    refine congrArg _ ?_
    rcases hm with ⟨hspare, rfl⟩ | ⟨i, rest, hhead, rfl⟩
    · split
      · rw [List.filter_singleton, hL.apart k m hspare]
        rfl
      · rfl
    · obtain ⟨-, hmi⟩ := h.ofNode_chan (k := i) (j := j) (m := m)
        (by rw [hhead]; exact List.mem_cons_self)
      by_cases hl : l = j
      · subst hl
        rw [if_pos rfl, List.filter_singleton]
        by_cases hk : k = i
        · subst hk
          simp only [and_self, if_true, hmi, hhead]
          rfl
        · simp only [hk, false_and, if_false, Bool.eq_false_iff.mpr
            fun hc => hk (hL.one k i m hc hmi)]
          rfl
      · simp only [hl, and_false, if_false]
        rfl
  · rcases hm with ⟨-, rfl⟩ | ⟨i, rest, hhead, rfl⟩
    · exact h.self k
    · simp only []
      split
      · next hc =>
          obtain ⟨rfl, rfl⟩ := hc
          rw [h.self] at hhead
          cases hhead
      · exact h.self k
  · simp only [Net.give_given] at hm'
    rcases List.mem_append.mp hm' with hm' | hm'
    · exact h.known l m' hm'
    · split at hm'
      · next hl =>
          rw [List.mem_singleton.mp hm', hl]
          rcases hm with ⟨hspare, -⟩ | ⟨i, rest, hhead, -⟩
          · exact .inl hspare
          · exact .inr ⟨i, h.ofNode_chan (by rw [hhead]; exact List.mem_cons_self)⟩
      · exact absurd hm' List.not_mem_nil
  · rw [Net.give_wrote] at ho
    exact h.routed k l o ho

theorem step (h : b.Carried route ofNode spare)
    (hL : Lawful act route ofNode spare) (a : Action ι γ μ) :
    (Links.step act route spare b a).Carried route ofNode spare := by
  cases a with
  | call i c => exact h.call hL i c
  | deliver i j =>
      rw [Links.step]
      split
      · exact h
      · next m rest hhead => exact h.give hL (.inr ⟨i, rest, hhead, rfl⟩)
  | other j m =>
      rw [Links.step]
      split
      · next hspare => exact h.give hL (.inl ⟨hspare, rfl⟩)
      · exact h

/-- What a node will be given from the others can be given to it at once, in any
order that keeps the order of each sender. -/
theorem fill (hL : Lawful act route ofNode spare) {j : ι} {more : List μ}
    (h : b.Carried route ofNode spare)
    (hmore : ∀ k, k ≠ j → ((b.node j).given ++ more).filter (ofNode k) <+:
      (b.node k).wrote.filterMap (route k j))
    (hknown : ∀ m ∈ more, spare m ∨ ∃ k, k ≠ j ∧ ofNode k m) :
    ∃ acts : List (Action ι γ μ),
      (Runs.run (Links.step act route spare) b acts).node =
        Function.update b.node j
          { b.node j with inQ := (b.node j).inQ ++ more } := by
  induction more generalizing b with
  | nil =>
      refine ⟨[], ?_⟩
      rw [List.append_nil]
      exact (Function.update_eq_self j b.node).symm
  | cons m more ih =>
      obtain ⟨a, chan, hstep⟩ : ∃ (a : Action ι γ μ) (chan : ι → ι → List μ),
          Links.step act route spare b a = ⟨b.give j m, chan⟩ := by
        rcases hknown m List.mem_cons_self with hspare | ⟨k, hk, hm⟩
        · exact ⟨.other j m, b.chan, if_pos hspare⟩
        · have hpre := hmore k hk
          rw [← h.link k j hk, List.filter_append, List.prefix_append_right_inj,
            List.filter_cons_of_pos hm] at hpre
          obtain ⟨rest, hrest⟩ := hpre
          refine ⟨.deliver k j, fun k' l => if k' = k ∧ l = j then
            more.filter (ofNode k) ++ rest else b.chan k' l, ?_⟩
          rw [Links.step, ← hrest, List.cons_append]
      obtain ⟨acts, hacts⟩ := ih (b := ⟨b.give j m, chan⟩) (hstep ▸ h.step hL a)
        (fun k hk => by
          simp only [Net.give_given, Net.give_wrote, if_true, List.append_assoc]
          exact hmore k hk)
        (fun m' hm' => hknown m' (List.mem_cons_of_mem m hm'))
      refine ⟨a :: acts, ?_⟩
      change (Runs.run (Links.step act route spare) (Links.step act route spare b a) acts).node = _
      rw [hstep, hacts]
      simp only [Net.give, Function.update_self, Function.update_idem, List.append_assoc]
      rfl

end Net.Carried

/-! ## The nodes one by one -/

variable (route ofNode spare) in
/-- What has been given to node `j` when every node is in `P`. -/
structure Heard (P : ι → σ → List μ → List ω → Prop) (j : ι) (l : List μ) :
    Prop where
  link : ∀ k, k ≠ j → ∃ s t w, P k s t w ∧
    l.filter (ofNode k) <+: w.filterMap (route k j)
  known : ∀ m ∈ l, spare m ∨ ∃ k, k ≠ j ∧ ofNode k m

omit [DecidableEq ι] in
theorem Heard.mono {P Q : ι → σ → List μ → List ω → Prop}
    (hPQ : ∀ i s t w, P i s t w → Q i s t w) {j : ι} {l : List μ}
    (h : Heard route ofNode spare P j l) : Heard route ofNode spare Q j l where
  link := fun k hk => by
    obtain ⟨s, t, w, hP, hpre⟩ := h.link k hk
    exact ⟨s, t, w, hPQ k s t w hP, hpre⟩
  known := h.known

/-- Every node is in `P` by what it has taken and what it has written. -/
def Net.Each (P : ι → σ → List μ → List ω → Prop) (b : Net ι σ μ ω) : Prop :=
  ∀ i, P i (b.node i).state (b.node i).taken (b.node i).wrote

variable {P : ι → σ → List μ → List ω → Prop}

theorem Net.Each.give (h : b.Each P) (j : ι) (m : μ) (chan : ι → ι → List μ) :
    Net.Each P ⟨b.give j m, chan⟩ := by
  intro i
  rw [(Net.give_state j m i).1, (Net.give_state j m i).2, Net.give_wrote]
  exact h i

omit [DecidableEq ι] in
/-- What a node has been given in a state of the run. -/
theorem Net.Carried.heard (hb : b.Carried route ofNode spare) (h : b.Each P)
    (j : ι) : Heard route ofNode spare P j (b.node j).given where
  link := fun k hk => ⟨_, _, _, h k, by
    rw [← hb.link k j hk]
    exact List.prefix_append _ _⟩
  known := hb.known j

variable (hL : Lawful act route ofNode spare)
  (hcall : ∀ i c s t w q, P i s t w → Heard route ofNode spare P i (t ++ q) →
    P i (act i c s q).state (t ++ front q (act i c s q).rest)
      (w ++ (act i c s q).wrote))

include hcall

theorem Net.Each.step (h : b.Each P) (hb : b.Carried route ofNode spare)
    (a : Action ι γ μ) : (Links.step act route spare b a).Each P := by
  cases a with
  | call i c =>
      intro k
      by_cases hk : k = i
      · subst hk
        simp only [Links.step, Function.update_self]
        exact hcall k c _ _ _ _ (h k) (hb.heard h k)
      · simp only [Links.step, Function.update_of_ne hk]
        exact h k
  | deliver i j =>
      rw [Links.step]
      split
      · exact h
      · exact h.give j _ _
  | other j m =>
      rw [Links.step]
      split
      · exact h.give j m _
      · exact h

include hL

/-- What holds of each node by what it has taken and written, and is kept by
every call on a queue that the others can have filled, holds in every run. -/
theorem run_rule {s : ι → σ} (hstart : ∀ i, P i (s i) [] [])
    (acts : List (Action ι γ μ)) :
    (Runs.run (step act route spare) (start s) acts).Carried route ofNode spare ∧
    (Runs.run (step act route spare) (start s) acts).Each P :=
  Runs.run_inv (I := fun b : Net ι σ μ ω => b.Carried route ofNode spare ∧ b.Each P)
    (fun _ a h => ⟨h.1.step hL a, h.2.step hcall h.1 a⟩)
    ⟨Net.Carried.start s, hstart⟩ acts

end Run

end Links
