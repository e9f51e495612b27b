import LibSmoke.Lib.Links
import LibSmoke.Knx.Agreement

/-!
# Key exchanges over a network

Any class of key exchange, one object on each node, over links that lose nothing
and keep the order. A packet reaches the node it is addressed to, or all others;
the packet layer of the rest drops it. Packets with other commands than those of
the exchange come in at any time.
-/

namespace LibSmoke

namespace Network

/-- The calls an exchange gets. -/
inductive Call
  | init
  | update
  deriving DecidableEq

section Net

variable {κ : Type} {n : Nat} (K : Fin n → KeyExchange κ) (own : UInt8 → Bool)
  (ids : Fin n → UInt16)

abbrev Net (κ : Type) (n : Nat) : Type := Links.Net (Fin n) κ Pkt Outgoing

abbrev Action (n : Nat) : Type := Links.Action (Fin n) Call Pkt

def act (i : Fin n) (c : Call) (k : κ) (q : List Pkt) :
    Links.Turn κ Pkt Outgoing :=
  match c with
  | .init =>
      let res := (K i).init (Agreement.nodeset ids) k
      ⟨res.1, q, res.2.1⟩
  | .update =>
      let a := (K i).update q k
      ⟨a.state, a.rest, a.wrote⟩

/-- What node `j` gets of a write of node `i`. -/
def route (i j : Fin n) (o : Outgoing) : Option Pkt :=
  if o.dest = broadcastAddr ∨ o.dest = ids j then some (o.pkt (ids i)) else none

def ofNode (k : Fin n) (p : Pkt) : Bool := own p.cmd && p.src == ids k

def spare (p : Pkt) : Bool := !own p.cmd

/-- A run from new objects. -/
def run (s : Fin n → κ) (acts : List (Action n)) : Net κ n :=
  Runs.run (Links.step (act K ids) (route ids) (spare own)) (Links.start s) acts

/-- Every node has started, and one that waits has read all that was written for it. -/
structure Quiet (status : κ → KeyStatus) (b : Net κ n) : Prop where
  started : ∀ i, status (b.node i).state ≠ .offline
  read : ∀ i, status (b.node i).state = .running →
    (b.node i).inQ = [] ∧ ∀ k, b.chan k i = []

/-- What the exchanges write has their commands. -/
structure Speaks : Prop where
  reads : ∀ i q k, ((K i).update q k).rest <:+ q
  init : ∀ i nodes k, ∀ o ∈ ((K i).init nodes k).2.1, own o.cmd
  update : ∀ i q k, ∀ o ∈ ((K i).update q k).wrote, own o.cmd

variable {K own ids}

theorem ofNode_iff {k : Fin n} {p : Pkt} :
    ofNode own ids k p ↔ own p.cmd ∧ p.src = ids k := by
  rw [ofNode, Bool.and_eq_true, beq_iff_eq]

theorem route_eq_some {i j : Fin n} {o : Outgoing} {p : Pkt} :
    route ids i j o = some p ↔
      (o.dest = broadcastAddr ∨ o.dest = ids j) ∧ o.pkt (ids i) = p := by
  unfold route
  split
  · next h => rw [Option.some.injEq, and_iff_right h]
  · next h => exact iff_of_false (fun hc => Option.some_ne_none p hc.symm) fun hc => h hc.1

theorem filterMap_route (i j : Fin n) (l : List Outgoing) :
    l.filterMap (route ids i j) =
      (l.filter fun o => o.dest = broadcastAddr ∨ o.dest = ids j).map
        (Outgoing.pkt (ids i)) := by
  rw [← List.filterMap_eq_map, List.filterMap_filter]
  refine List.filterMap_congr fun o _ => ?_
  simp only [route, decide_eq_true_eq]
  rfl

theorem lawful (hK : Speaks K own) (hids : Function.Injective ids) :
    Links.Lawful (act K ids) (route ids) (ofNode own ids) (spare own) where
  reads := by
    intro i c s q
    cases c with
    | init => exact List.suffix_refl q
    | update => exact hK.reads i q s
  routed := by
    intro i c s q o ho j m hm
    obtain ⟨-, rfl⟩ := route_eq_some.mp hm
    refine ofNode_iff.mpr ⟨?_, rfl⟩
    cases c with
    | init => exact hK.init i _ s o ho
    | update => exact hK.update i q s o ho
  one := by
    intro k l m hk hl
    exact hids ((ofNode_iff.mp hk).2.symm.trans (ofNode_iff.mp hl).2)
  apart := by
    intro k m hm
    rw [Bool.eq_false_iff]
    intro hk
    rw [spare, (ofNode_iff.mp hk).1] at hm
    cases hm

/-- An exchange that reads all it is given uses the packet layer as the handshake
wants it to. -/
theorem Speaks.lawful (hK : Speaks K own) (hown : own thatsMe = false)
    (hdrains : ∀ i q k, ((K i).update q k).ok = true → ((K i).update q k).rest = [])
    (i : Fin n) : (K i).Lawful fun _ => True where
  init := fun _ _ _ => trivial
  shutdown := fun _ _ => trivial
  update := fun _ _ _ => trivial
  reads := hK.reads i
  cmd_init := by
    intro nodes k p hp hcmd
    have howns := hK.init i nodes k p hp
    rw [hcmd, hown] at howns
    cases howns
  cmd_update := by
    intro q k p hp hcmd
    have howns := hK.update i q k p hp
    rw [hcmd, hown] at howns
    cases howns
  drains := fun q k _ hok _ => hdrains i q k hok

/-- What has been written for a node that waits, it has taken, when nothing is left
to do. -/
theorem Quiet.taken {status : κ → KeyStatus} {b : Net κ n} (h : Quiet status b)
    (hcarried : b.Carried (route ids) (ofNode own ids) (spare own)) {k j : Fin n} (hkj : k ≠ j)
    (hrun : status (b.node j).state = .running) :
    (b.node j).taken.filter (ofNode own ids k) =
      (b.node k).wrote.filterMap (route ids k j) := by
  obtain ⟨hinQ, hchan⟩ := h.read j hrun
  rw [← hcarried.link k j hkj, hchan, Links.Node.given, hinQ, List.append_nil, List.append_nil]

/-- What has been given to node `j`. -/
abbrev Heard (own : UInt8 → Bool) (ids : Fin n → UInt16)
    (P : Fin n → κ → List Pkt → List Outgoing → Prop) (j : Fin n)
    (l : List Pkt) : Prop :=
  Links.Heard (route ids) (ofNode own ids) (spare own) P j l

section Script

variable {P : Fin n → κ → List Pkt → List Outgoing → Prop}
  {script : Fin n → List Outgoing}
  (hscript : ∀ k s t w, P k s t w → w <+: script k) {j : Fin n} {l : List Pkt}
  (h : Heard own ids P j l)

include hscript h

/-- Where every node writes a beginning of what it has to write, what is given
from one is a beginning of that. -/
theorem heard_begins {k : Fin n} (hk : k ≠ j) :
    l.filter (ofNode own ids k) <+: (script k).filterMap (route ids k j) := by
  obtain ⟨s, t, w, hP, hpre⟩ := h.link k hk
  exact hpre.trans ((hscript k s t w hP).filterMap _)

theorem heard_script {p : Pkt} (hp : p ∈ l) (hown : own p.cmd) :
    ∃ k, k ≠ j ∧ p.src = ids k ∧ ∃ o ∈ script k, o.pkt (ids k) = p ∧
      (o.dest = broadcastAddr ∨ o.dest = ids j) := by
  rcases h.known p hp with hspare | ⟨k, hk, hof⟩
  · rw [spare, hown] at hspare
    cases hspare
  · have hmem := (heard_begins hscript h hk).subset (List.mem_filter.mpr ⟨hp, hof⟩)
    obtain ⟨o, ho, hroute⟩ := List.mem_filterMap.mp hmem
    obtain ⟨hdest, heq⟩ := route_eq_some.mp hroute
    exact ⟨k, hk, (ofNode_iff.mp hof).2, o, ho, heq, hdest⟩

/-- Where a node has nothing to write twice, nothing is given twice. -/
theorem heard_nodup
    (hnodup : ∀ k, k ≠ j → ((script k).filterMap (route ids k j)).Nodup) :
    (l.filter fun p => own p.cmd).Nodup := by
  rw [List.nodup_iff_count_le_one]
  intro p
  by_cases hp : p ∈ l ∧ own p.cmd
  · obtain ⟨k, hk, hsrc, -⟩ := heard_script hscript h hp.1 hp.2
    have hof : ofNode own ids k p := ofNode_iff.mpr ⟨hp.2, hsrc⟩
    calc (l.filter fun p => own p.cmd).count p
      _ = l.count p := List.count_filter hp.2
      _ = (l.filter (ofNode own ids k)).count p := (List.count_filter hof).symm
      _ ≤ ((script k).filterMap (route ids k j)).count p :=
          (heard_begins hscript h hk).sublist.count_le p
      _ ≤ 1 := List.nodup_iff_count_le_one.mp (hnodup k hk) p
  · rw [List.count_eq_zero_of_not_mem]
    · exact Nat.zero_le 1
    · rwa [List.mem_filter]

end Script

/-- The rule for runs, for a property of the nodes one by one. -/
theorem run_rule {P : Fin n → κ → List Pkt → List Outgoing → Prop}
    (hK : Speaks K own) (hids : Function.Injective ids) {s : Fin n → κ}
    (hstart : ∀ i, P i (s i) [] [])
    (hinit : ∀ i k t w, P i k t w →
      P i ((K i).init (Agreement.nodeset ids) k).1 t
        (w ++ ((K i).init (Agreement.nodeset ids) k).2.1))
    (hupdate : ∀ i k t w q, P i k t w → Heard own ids P i (t ++ q) →
      P i ((K i).update q k).state (t ++ ((K i).update q k).taken q)
        (w ++ ((K i).update q k).wrote))
    (acts : List (Action n)) :
    (run K own ids s acts).Carried (route ids) (ofNode own ids) (spare own) ∧
    (run K own ids s acts).Each P := by
  refine Links.run_rule (lawful hK hids) ?_ hstart acts
  intro i c k t w q hP hheard
  cases c with
  | init =>
      have hnone : Links.front q q = [] := by
        rw [Links.front, Nat.sub_self, List.take_zero]
      simp only [act, hnone, List.append_nil]
      exact hinit i k t w hP
  | update => exact hupdate i k t w q hP hheard

end Net

end Network

end LibSmoke
