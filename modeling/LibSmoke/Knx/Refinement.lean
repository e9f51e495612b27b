import LibSmoke.Knx.Counting
import LibSmoke.Knx.Network

/-!
# The exchanges behind the handshake

`SKNX` starts a key exchange when the nodes are counted, and what the relay hands to
a node goes to its counter first. Seen from the key exchanges that is a network of
links: every run of the nodes over the relay is one of their exchanges over links,
with the packets each has read and written (`bus_refines`). A packet is delivered to
an exchange when its node hands it on, and an announcement that comes late is a
packet from outside.

A node that gives up shuts its exchange down and is not followed any more; what it
has written before stays under way.
-/

namespace LibSmoke

/-- One class of key exchange on every node; the object knows its node. -/
def KeyExchange.each {ι κ : Type} (K : ι → KeyExchange κ) : KeyExchange (ι × κ) where
  status x := (K x.1).status x.2
  init nodes x := ((x.1, ((K x.1).init nodes x.2).1), ((K x.1).init nodes x.2).2)
  shutdown x := (x.1, (K x.1).shutdown x.2)
  update q x :=
    ⟨(x.1, ((K x.1).update q x.2).state), ((K x.1).update q x.2).rest,
      ((K x.1).update q x.2).wrote, ((K x.1).update q x.2).ok⟩

theorem KeyExchange.each_lawful {ι κ : Type} {K : ι → KeyExchange κ}
    (hK : ∀ i, (K i).Lawful fun _ => True) : (KeyExchange.each K).Lawful fun _ => True where
  init := fun _ _ _ => trivial
  shutdown := fun _ _ => trivial
  update := fun _ _ _ => trivial
  reads := fun q x => (hK x.1).reads q x.2
  cmd_init := fun nodes x => (hK x.1).cmd_init nodes x.2
  cmd_update := fun q x => (hK x.1).cmd_update q x.2
  drains := fun q x _ => (hK x.1).drains q x.2 trivial

namespace Refinement

open Counting

/-- The seat of node `i` and the same node of the network. -/
structure Matches {ι κ : Type} (K : ι → KeyExchange κ) (i : ι) (s : Seat (ι × κ))
    (x : Links.Node κ Pkt Outgoing) : Prop where
  key : s.node.status ≠ .offline → s.node.key = (i, x.state)
  taken : s.keyRead = x.taken
  wrote : s.keySent = x.wrote
  inQ : x.inQ <+: s.inQ
  counting : s.node.status = .counting → x.inQ = []
  done : s.node.status = .finalizing ∨ s.node.status = .online →
    (K i).status x.state = .completed

variable {κ : Type} {N : UInt8}

section Given

variable {I : Fin N.toNat × κ → Prop} {own : UInt8 → Bool} {ids : Fin N.toNat → UInt16}
  {b : Bus (Fin N.toNat × κ) N.toNat}

/-- The members the counter has found are all nodes. -/
theorem nodes_eq (hids : Function.Injective ids) (h : Inv I ids b) (i : Fin N.toNat)
    (hfound : Counting.Found N (b.seat i).node) :
    (b.seat i).node.counter.nodes = Agreement.nodeset ids := by
  refine Finset.eq_of_subset_of_card_le (fun x hx => ?_) ?_
  · rcases (h.seat i).nodes x hx with rfl | ⟨p, hp, rfl, -⟩
    · exact Finset.mem_image_of_mem ids (Finset.mem_univ i)
    · obtain ⟨j, hj⟩ := h.src p hp
      rw [hj]
      exact Finset.mem_image_of_mem ids (Finset.mem_univ j)
  · rw [Agreement.card_nodeset hids]
    exact Nat.le_of_eq hfound.symm

/-- Whatever a node is given is of the exchange of another one, or spare. -/
theorem queue_known (h : Inv I ids b) (i : Fin N.toNat) (k : Nat) :
    ∀ p ∈ (b.seat i).queue (ids i) b.log k,
      Network.spare own p ∨ ∃ j, j ≠ i ∧ Network.ofNode own ids j p := by
  intro p hp
  have hmem := List.mem_append_right ((b.seat i).counterRead ++ (b.seat i).keyRead) hp
  rw [← (h.seat i).taken_queue k] at hmem
  obtain ⟨hlog, hfor⟩ := List.mem_filter.mp hmem
  obtain ⟨j, hj⟩ := h.src p (List.mem_of_mem_take hlog)
  have hne : p.src ≠ ids i := (of_decide_eq_true hfor).1
  cases hown : own p.cmd with
  | false => exact .inl (by rw [Network.spare, hown]; rfl)
  | true =>
      exact .inr ⟨j, fun hji => hne (by rw [hj, hji]), Network.ofNode_iff.mpr ⟨hown, hj⟩⟩

/-- The packet layer hands up what a link would. -/
theorem filter_isFor (hids : Function.Injective ids) {i j : Fin N.toNat} (hji : j ≠ i)
    (w : List Outgoing) :
    (w.map (Outgoing.pkt (ids j))).filter (Pkt.isFor (ids i)) =
      w.filterMap (Network.route ids j i) := by
  rw [Network.filterMap_route, List.filter_map]
  refine congrArg _ (List.filter_congr fun o _ => ?_)
  have hne : ids j ≠ ids i := fun hc => hji (hids hc)
  simp [Pkt.isFor, Outgoing.pkt, hne]

/-- The packets of a node's exchange among those that node wrote. -/
theorem filter_ofNode (hown : own thatsMe = false) (j : Fin N.toNat) (l : List Pkt) :
    l.filter (Network.ofNode own ids j) =
      (exchangeOf (ids j) l).filter fun p => own p.cmd := by
  rw [exchangeOf, List.filter_filter]
  refine List.filter_congr fun p _ => ?_
  rw [Network.ofNode]
  cases hcmd : own p.cmd with
  | false => simp
  | true =>
      have hne : p.cmd ≠ thatsMe := by
        intro hc
        rw [hc, hown] at hcmd
        cases hcmd
      simp [hne, Bool.beq_eq_decide_eq]

/-- What a node is given of another one begins what that one has written to it. -/
theorem given_begins (h : Inv I ids b) (hids : Function.Injective ids)
    (hown : own thatsMe = false) {i j : Fin N.toNat} (hji : j ≠ i)
    (hspeaks : ∀ p ∈ (b.seat j).keySent.filterMap (Network.route ids j i), own p.cmd)
    (k : Nat) :
    ((b.seat i).keyRead ++ (b.seat i).queue (ids i) b.log k).filter
        (Network.ofNode own ids j) <+:
      (b.seat j).keySent.filterMap (Network.route ids j i) := by
  have hconserved := h.conserved i j
  rw [filter_isFor hids hji] at hconserved
  have hpre : (b.seat i).keyRead ++ (b.seat i).queue (ids i) b.log k <+:
      (b.seat i).keyRead ++ (b.seat i).inQ ++ onTheWay ids b j i := by
    rw [List.append_assoc, List.prefix_append_right_inj, Seat.queue,
      List.prefix_append_right_inj, onTheWay, List.filter_append]
    exact (((List.take_prefix k _).filter _)).trans (List.prefix_append _ _)
  have hall : ((b.seat j).keySent.filterMap (Network.route ids j i)).filter
      (fun p => own p.cmd) = (b.seat j).keySent.filterMap (Network.route ids j i) :=
    List.filter_eq_self.mpr hspeaks
  rw [filter_ofNode hown, ← hall, ← hconserved]
  exact ((hpre.filter _).filter _)

end Given

/-! ## One step -/

section Step

variable {K : Fin N.toNat → KeyExchange κ} {own : UInt8 → Bool}
  {ids : Fin N.toNat → UInt16} {b : Bus (Fin N.toNat × κ) N.toNat} {c : Network.Net κ N.toNat}

/-- What a turn leaves of the seat, in the words of the turn. -/
theorem seat_update (id : UInt16) (log : List Pkt) (k : Nat) (mustUpdate : Bool)
    (s : Seat (Fin N.toNat × κ)) :
    let q := s.queue id log k
    let a := s.node.turn (KeyExchange.each K) N mustUpdate q
    let s' := s.update (KeyExchange.each K) N id log k mustUpdate
    s'.node = a.state ∧ s'.inQ = a.rest ∧
    s'.keyRead = s.keyRead ++ (if Exchanges (KeyExchange.each K) s.node then a.taken q else []) ∧
    s'.keySent = s.keySent ++ if s.node.Counts then [] else a.wrote :=
  ⟨rfl, rfl, rfl, rfl⟩

/-- A turn that neither counts nor begins nor exchanges. -/
theorem Matches.idle {i : Fin N.toNat} {s : Seat (Fin N.toNat × κ)}
    {x : Links.Node κ Pkt Outgoing} (h : Matches K i s x) {mustUpdate : Bool} {q : List Pkt}
    (hq : s.inQ <+: q) {s' : Seat (Fin N.toNat × κ)}
    (hnode : s'.node = (s.node.turn (KeyExchange.each K) N mustUpdate q).state)
    (hcount : s'.node.status ≠ .counting) (hshake : s'.node.status ≠ .handshaking)
    (hinQ : s'.inQ = q) (hread : s'.keyRead = s.keyRead) (hsent : s'.keySent = s.keySent) :
    Matches K i s' x := by
  have hend : s'.node.status ≠ .offline →
      s'.node.status = .finalizing ∨ s'.node.status = .online := by
    intro hoff
    cases hs : s'.node.status with
    | offline => exact absurd hs hoff
    | counting => exact absurd hs hcount
    | handshaking => exact absurd hs hshake
    | finalizing => exact .inl rfl
    | online => exact .inr rfl
  have hon (hs : s'.node.status ≠ .offline) : s.node.status ≠ .offline := by
    intro hoff
    rw [hnode, Sknx.turn, hoff] at hs
    exact hs hoff
  have hdone (hs : s'.node.status ≠ .offline) :
      s'.node.key = (i, x.state) ∧ (K i).status x.state = .completed := by
    have hlast := hend hs
    rw [hnode] at hlast
    obtain ⟨-, hkey, hcase⟩ := Sknx.turn_done hlast
    have hsame := h.key (hon hs)
    rw [hnode, hkey, hsame]
    refine ⟨rfl, ?_⟩
    rcases hcase with hcompleted | hover
    · rw [hsame] at hcompleted
      exact hcompleted
    · exact h.done hover
  refine ⟨fun hs => (hdone hs).1, hread.trans h.taken, hsent.trans h.wrote, ?_,
    fun hs => absurd hs hcount, fun hs => ?_⟩
  · rw [hinQ]
    exact h.inQ.trans hq
  · refine (hdone ?_).2
    rcases hs with hs | hs <;> rw [hs] <;> decide

variable (hspeaks : Network.Speaks K own) (hids : Function.Injective ids)
  (hown : own thatsMe = false)

include hspeaks hids hown

omit hspeaks in
/-- What a node is given begins what the others have written in the network too. -/
theorem matched_begins {I : Fin N.toNat × κ → Prop} (h : Inv I ids b)
    (hcarried : c.Carried (Network.route ids) (Network.ofNode own ids) (Network.spare own))
    (hmatch : ∀ i, Matches K i (b.seat i) (c.node i)) {i j : Fin N.toNat} (hj : j ≠ i)
    (k : Nat) :
    ((b.seat i).keyRead ++ (b.seat i).queue (ids i) b.log k).filter
        (Network.ofNode own ids j) <+:
      (c.node j).wrote.filterMap (Network.route ids j i) := by
  rw [← (hmatch j).wrote]
  refine given_begins h hids hown hj (fun p hp => ?_) k
  obtain ⟨o, ho, hroute⟩ := List.mem_filterMap.mp hp
  rw [(hmatch j).wrote] at ho
  exact (Network.ofNode_iff.mp (hcarried.routed j i o ho p hroute)).1

omit hspeaks in
theorem heard_queue {I : Fin N.toNat × κ → Prop} (h : Inv I ids b)
    (hcarried : c.Carried (Network.route ids) (Network.ofNode own ids) (Network.spare own))
    (hmatch : ∀ i, Matches K i (b.seat i) (c.node i))
    {P : Fin N.toNat → κ → List Pkt → List Outgoing → Prop} (heach : c.Each P)
    (i : Fin N.toNat) (k : Nat) :
    Network.Heard own ids P i ((c.node i).taken ++ (b.seat i).queue (ids i) b.log k) where
  link := fun j hj => ⟨_, _, _, heach j, by
    rw [← (hmatch i).taken]
    exact matched_begins hids hown h hcarried hmatch hj k⟩
  known := fun p hp => by
    rcases List.mem_append.mp hp with hp | hp
    · exact hcarried.known i p (List.mem_append_left _ hp)
    · exact queue_known h i k p hp

/-- A turn of a node is no step of the network, a call, or deliveries and a call. -/
theorem step_refines (h : Inv (fun _ => True) ids b)
    (hcarried : c.Carried (Network.route ids) (Network.ofNode own ids) (Network.spare own))
    (hmatch : ∀ i, Matches K i (b.seat i) (c.node i)) (act : Counting.Action N.toNat) :
    ∃ acts : List (Network.Action N.toNat), ∀ i,
      Matches K i ((Counting.step (KeyExchange.each K) N ids b act).seat i)
        ((Runs.run (Links.step (Network.act K ids) (Network.route ids) (Network.spare own)) c
          acts).node i) := by
  cases act with
  | relay i =>
      refine ⟨[], fun j => ?_⟩
      simp only [Counting.step, relay, Runs.run, List.foldl_nil]
      split
      · exact hmatch j
      · by_cases hj : j = i
        · subst hj
          simp only [Function.update_self]
          exact { hmatch j with }
        · simp only [Function.update_of_ne hj]
          exact hmatch j
  | update i k mustUpdate =>
      have hi := hmatch i
      have hcase := Sknx.turn_cases (KeyExchange.each K) N mustUpdate
        ((b.seat i).queue (ids i) b.log k) (b.seat i).node
      obtain ⟨hnode, hinQ, hread, hsent⟩ :=
        seat_update (K := K) (ids i) b.log k mustUpdate (b.seat i)
      have hqueue : (b.seat i).inQ <+: (b.seat i).queue (ids i) b.log k :=
        List.prefix_append _ _
      -- it is enough to look at the node that has its turn
      have hone (acts : List (Network.Action N.toNat)) (x : Links.Node κ Pkt Outgoing)
          (hacts : (Runs.run (Links.step (Network.act K ids) (Network.route ids)
            (Network.spare own)) c acts).node = Function.update c.node i x)
          (hx : Matches K i ((b.seat i).update (KeyExchange.each K) N (ids i) b.log k
            mustUpdate) x) :
          ∃ acts : List (Network.Action N.toNat), ∀ j,
            Matches K j ((Counting.step (KeyExchange.each K) N ids b
                (.update i k mustUpdate)).seat j)
              ((Runs.run (Links.step (Network.act K ids) (Network.route ids)
                (Network.spare own)) c acts).node j) := by
        refine ⟨acts, fun j => ?_⟩
        rw [hacts]
        simp only [Counting.step]
        by_cases hj : j = i
        · subst hj
          rw [Function.update_self, Function.update_self]
          exact hx
        · rw [Function.update_of_ne hj, Function.update_of_ne hj]
          exact hmatch j
      have hsame : (Runs.run (Links.step (Network.act K ids) (Network.route ids)
          (Network.spare own)) c []).node = Function.update c.node i (c.node i) :=
        (Function.update_eq_self i c.node).symm
      generalize (b.seat i).update (KeyExchange.each K) N (ids i) b.log k mustUpdate = s'
        at hnode hinQ hread hsent hone
      have hlast (hs : ((b.seat i).node.turn (KeyExchange.each K) N mustUpdate
          ((b.seat i).queue (ids i) b.log k)).state.status = .finalizing ∨
          ((b.seat i).node.turn (KeyExchange.each K) N mustUpdate
            ((b.seat i).queue (ids i) b.log k)).state.status = .online) := Sknx.turn_done hs
      have hidle := hi.idle hqueue hnode
      generalize (b.seat i).node.turn (KeyExchange.each K) N mustUpdate
        ((b.seat i).queue (ids i) b.log k) = a at hnode hinQ hread hsent hcase hlast
      have hstate : s'.node.status = a.state.status := congrArg (·.status) hnode
      have hkey' : s'.node.key = a.state.key := congrArg (·.key) hnode
      cases hcase with
      | count hc hstatus hkey _ _ hwrote =>
          have hnot : ¬ Exchanges (KeyExchange.each K) (b.seat i).node := fun he => by
            have := he.1.symm.trans hc.1
            cases this
          rw [if_neg hnot, List.append_nil] at hread
          rw [if_pos hc, List.append_nil] at hsent
          have hempty := hi.counting hc.1
          refine hone [] _ hsame ⟨fun _ => (hkey'.trans hkey).trans (hi.key (by rw [hc.1]; decide)),
            hread.trans hi.taken, hsent.trans hi.wrote, ?_, fun _ => hempty, ?_⟩
          · rw [hempty]
            exact List.nil_prefix
          · rw [hstate, hstatus]
            rintro (hs | hs) <;> cases hs
      | begin hc hdone hstatus hcounter hkey hrest hwrote =>
          have hnot : ¬ (b.seat i).node.Counts := fun h => by
            have := h.2.symm.trans hdone
            cases this
          have hnot' : ¬ Exchanges (KeyExchange.each K) (b.seat i).node := fun he => by
            have := he.1.symm.trans hc
            cases this
          rw [if_neg hnot', List.append_nil] at hread
          rw [if_neg hnot, hwrote] at hsent
          have hnodes := nodes_eq hids h i
            (((h.seat i).counting hc).2 (.inl (by rw [hdone]; decide)))
          have hkeyi := hi.key (by rw [hc]; decide)
          rw [hnodes, hkeyi] at hkey hsent
          refine hone [.call i .init] _ rfl
            ⟨fun _ => hkey'.trans hkey, ?_, ?_, ?_, fun hs => ?_, fun hs => ?_⟩
          · rw [hread, hi.taken]
            simp only [Links.Node.after, Network.act, Links.front, Nat.sub_self, List.take_zero,
              List.append_nil]
          · rw [hsent, hi.wrote]
            rfl
          · rw [hinQ, hrest]
            exact hi.inQ.trans hqueue
          · exact absurd (hstate.symm.trans hs) hstatus
          · obtain ⟨-, hsame', hover⟩ := hlast (hstate ▸ hs)
            have hcompleted := hover.resolve_right (by rw [hc]; decide)
            rw [← hsame', hkey] at hcompleted
            exact hcompleted
      | exchange hc hrun hstatus hcounter hrest hwrote hkey =>
          have hnot : ¬ (b.seat i).node.Counts := fun h => by
            have := h.1.symm.trans hc
            cases this
          have hkeyi := hi.key (by rw [hc]; decide)
          rw [if_pos (show Exchanges (KeyExchange.each K) (b.seat i).node from ⟨hc, hrun⟩)]
            at hread
          rw [if_neg hnot] at hsent
          have hover : ¬ (a.state.status = .finalizing ∨ a.state.status = .online) := by
            intro hs
            obtain ⟨-, -, hcompleted | hend⟩ := hlast hs
            · cases hrun.symm.trans hcompleted
            · rw [hc] at hend
              rcases hend with hend | hend <;> cases hend
          obtain ⟨more, hmore⟩ := hi.inQ.trans hqueue
          have hbegins (j : Fin N.toNat) (hj : j ≠ i) :
              ((c.node i).given ++ more).filter (Network.ofNode own ids j) <+:
                (c.node j).wrote.filterMap (Network.route ids j i) := by
            rw [Links.Node.given, ← hi.taken, List.append_assoc, hmore]
            exact matched_begins hids hown h hcarried hmatch hj k
          obtain ⟨acts, hacts⟩ := hcarried.fill (Network.lawful hspeaks hids) hbegins
            fun m hm => queue_known h i k m (hmore ▸ List.mem_append_right _ hm)
          rw [hmore] at hacts
          refine hone (acts ++ [.call i .update]) ?_ ?_ ?_
          · exact Links.Node.after { c.node i with inQ := (b.seat i).queue (ids i) b.log k }
              (Network.act K ids i .update (c.node i).state ((b.seat i).queue (ids i) b.log k))
          · rw [Runs.run_append, Runs.run, List.foldl_cons, List.foldl_nil]
            simp only [Links.step, hacts, Function.update_self, Function.update_idem]
          · rw [hkeyi] at hrest hwrote hkey
            refine ⟨fun hs => ?_, ?_, ?_, ?_, fun hs => ?_, fun hs => ?_⟩
            · cases hs' : a.state.status with
              | handshaking => exact hkey'.trans (hkey hs').2
              | offline => exact absurd (hstate.trans hs') hs
              | counting => exact absurd hs' hstatus
              | finalizing => exact absurd (.inl hs') hover
              | online => exact absurd (.inr hs') hover
            · rw [hread, hi.taken, Act.taken, hrest]
              rfl
            · rw [hsent, hi.wrote, hwrote]
              rfl
            · rw [hinQ, hrest]
              exact List.prefix_refl _
            · exact absurd (hstate.symm.trans hs) hstatus
            · exact absurd (hstate ▸ hs) hover
      | idle hc hstatus hquiet hcounter hrest hwrote =>
          rw [Act.taken_of_rest hrest, ite_self, List.append_nil] at hread
          rw [hwrote, ite_self, List.append_nil] at hsent
          exact hone [] _ hsame (hidle (by rw [hstate]; exact hstatus) (by rw [hstate]; exact hquiet)
            (hinQ.trans hrest) hread hsent)

/-- So every run of the nodes over the relay is a run of the exchanges over links, with
what each of them has read and written. -/
theorem bus_refines (hK : ∀ i, (K i).Lawful fun _ => True) (key : Fin N.toNat → κ)
    (acts : List (Counting.Action N.toNat)) :
    ∃ acts' : List (Network.Action N.toNat), ∀ i,
      Matches K i ((Counting.run (KeyExchange.each K) N ids
          (Counting.start N ids fun i => (i, key i)) acts).seat i)
        ((Network.run K own ids key acts').node i) := by
  have hgo : ∀ (b : Bus (Fin N.toNat × κ) N.toNat) (c : Network.Net κ N.toNat),
      Inv (fun _ => True) ids b →
      c.Carried (Network.route ids) (Network.ofNode own ids) (Network.spare own) →
      (∀ i, Matches K i (b.seat i) (c.node i)) →
      ∃ acts' : List (Network.Action N.toNat), ∀ i,
        Matches K i ((Counting.run (KeyExchange.each K) N ids b acts).seat i)
          ((Runs.run (Links.step (Network.act K ids) (Network.route ids)
            (Network.spare own)) c acts').node i) := by
    induction acts with
    | nil => exact fun b c _ _ hmatch => ⟨[], hmatch⟩
    | cons act acts ih =>
        intro b c h hcarried hmatch
        obtain ⟨first, hfirst⟩ := step_refines hspeaks hids hown h hcarried hmatch act
        obtain ⟨rest, hrest⟩ := ih _ _ (step_inv (KeyExchange.each_lawful hK) hids h act)
          (Runs.run_inv (fun _ a hc => hc.step (Network.lawful hspeaks hids) a) hcarried first)
          hfirst
        refine ⟨first ++ rest, fun i => ?_⟩
        rw [Runs.run_append]
        exact hrest i
  refine hgo _ _ (start_inv fun _ => trivial) (.start key) fun i => ?_
  exact ⟨fun _ => rfl, rfl, rfl, List.nil_prefix, fun _ => rfl,
    by rintro (hs | hs) <;> cases hs⟩

end Step

/-! ## No node gives up -/

/-- Node `i` has not given up. -/
structure Up {ι κ : Type} (K : ι → KeyExchange κ) (key : ι → κ) (i : ι) (s : Sknx (ι × κ)) :
    Prop where
  up : s.status ≠ .offline
  id : s.key.1 = i
  counting : s.status = .counting → s.counter.status ≠ .offline ∧ s.key.2 = key i
  handshaking : s.status = .handshaking → (K i).status s.key.2 ≠ .offline

theorem Up.of_over {ι κ : Type} {K : ι → KeyExchange κ} {key : ι → κ} {i : ι}
    {s : Sknx (ι × κ)} (hid : s.key.1 = i)
    (h : s.status = .finalizing ∨ s.status = .online) : Up K key i s := by
  rcases h with h | h <;> refine ⟨?_, hid, ?_, ?_⟩ <;> rw [h] <;> intro hs <;> cases hs

/-- A node goes on when its exchange begins, does not fail, and runs without an
error. -/
theorem Up.turn {ι κ : Type} {K : ι → KeyExchange κ} {key : ι → κ} {i : ι}
    {s : Sknx (ι × κ)} (h : Up K key i s) {N : UInt8} {mustUpdate : Bool} {q : List Pkt}
    (hinit : s.status = .counting → s.counter.status = .completed →
      ((K i).init s.counter.nodes (key i)).2.2 = true ∧
      (K i).status ((K i).init s.counter.nodes (key i)).1 ≠ .offline)
    (hupdate : s.status = .handshaking → (K i).status s.key.2 = .running →
      ((K i).update q s.key.2).ok = true ∧
      (K i).status ((K i).update q s.key.2).state ≠ .offline)
    (herror : s.status = .handshaking → (K i).status s.key.2 ≠ .error) :
    Up K key i (s.turn (KeyExchange.each K) N mustUpdate q).state := by
  obtain ⟨counter, ⟨j, k⟩, status⟩ := s
  obtain ⟨hup, rfl, hcounting, hhandshaking⟩ := h
  simp only [] at *
  rw [Sknx.turn]
  cases status with
  | offline => exact absurd rfl hup
  | counting =>
      obtain ⟨hcounter, rfl⟩ := hcounting rfl
      simp only [Sknx.updateCounter]
      cases hc : counter.status with
      | offline => exact absurd hc hcounter
      | counting =>
          have hok := (DummyNodeCounter.update_counting (N := N) (q := q) hc).2.2.2
          simp only [hok, if_true]
          refine ⟨hup, rfl, fun _ => ⟨DummyNodeCounter.update_ne_offline hcounter, rfl⟩, ?_⟩
          intro hs
          cases hs
      | completed =>
          obtain ⟨hok, hstatus⟩ := hinit rfl hc
          simp only [KeyExchange.each, hok, if_true]
          refine ⟨?_, rfl, ?_, fun _ => hstatus⟩ <;> intro hs <;> cases hs
  | handshaking =>
      have hoff := hhandshaking rfl
      simp only [Sknx.updateHandshaking, KeyExchange.each]
      cases hk : (K j).status k with
      | offline => exact absurd hk hoff
      | error => exact absurd hk (herror rfl)
      | running =>
          obtain ⟨hok, hstatus⟩ := hupdate rfl hk
          simp only [hok, if_true]
          refine ⟨?_, rfl, ?_, fun _ => hstatus⟩ <;> intro hs <;> cases hs
      | completed => exact .of_over rfl (.inl rfl)
  | finalizing =>
      simp only []
      split
      · exact .of_over rfl (.inl rfl)
      · exact .of_over rfl (.inr rfl)
  | online => exact .of_over rfl (.inr rfl)

/-- Nothing is left to do on the bus: everybody has counted the nodes, everybody has
been given everything, and an exchange that runs has read it. -/
structure Still {κ : Type} (K : KeyExchange κ) {n : Nat} (b : Bus κ n) : Prop where
  begun : ∀ i, (b.seat i).node.status ≠ .counting
  relayed : ∀ i, (b.seat i).up = [] ∧ (b.seat i).outQ = []
  given : ∀ i, (b.seat i).got = b.log.length
  read : ∀ i, Exchanges K (b.seat i).node → (b.seat i).inQ = []

section Sturdy

variable {n : Nat} (K : Fin n → KeyExchange κ) (own : UInt8 → Bool)
  (ids : Fin n → UInt16) (key : Fin n → κ)
  (P : Fin n → κ → List Pkt → List Outgoing → Prop)

/-- Exchanges that agree do not fail: `P` is what holds of each by what it has taken
and written. -/
structure Sturdy : Prop where
  speaks : Network.Speaks K own
  counted : own thatsMe = false
  drains : ∀ i q k, ((K i).update q k).ok = true → ((K i).update q k).rest = []
  start : ∀ i, P i (key i) [] []
  init : ∀ i k t w, P i k t w →
    P i ((K i).init (Agreement.nodeset ids) k).1 t
      (w ++ ((K i).init (Agreement.nodeset ids) k).2.1)
  update : ∀ i k t w q, P i k t w → Network.Heard own ids P i (t ++ q) →
    P i ((K i).update q k).state (t ++ ((K i).update q k).taken q)
      (w ++ ((K i).update q k).wrote)
  begins : ∀ i, ((K i).init (Agreement.nodeset ids) (key i)).2.2 = true ∧
    (K i).status ((K i).init (Agreement.nodeset ids) (key i)).1 ≠ .offline
  goes : ∀ i k t w q, P i k t w → Network.Heard own ids P i (t ++ q) →
    (K i).status k = .running → ((K i).update q k).ok = true ∧
    (K i).status ((K i).update q k).state ≠ .offline
  noError : ∀ i k t w, P i k t w → (K i).status k ≠ .error

end Sturdy

section Stays

variable {K : Fin N.toNat → KeyExchange κ} {own : UInt8 → Bool}
  {ids : Fin N.toNat → UInt16} {key : Fin N.toNat → κ}
  {P : Fin N.toNat → κ → List Pkt → List Outgoing → Prop}
  (hS : Sturdy K own ids key P) (hids : Function.Injective ids)

include hS hids

theorem Up.step {b : Bus (Fin N.toNat × κ) N.toNat} {c : Network.Net κ N.toNat}
    (h : Inv (fun _ => True) ids b)
    (hcarried : c.Carried (Network.route ids) (Network.ofNode own ids) (Network.spare own))
    (heach : c.Each P) (hmatch : ∀ i, Matches K i (b.seat i) (c.node i))
    (hup : ∀ i, Up K key i (b.seat i).node) (act : Counting.Action N.toNat) (j : Fin N.toNat) :
    Up K key j ((Counting.step (KeyExchange.each K) N ids b act).seat j).node := by
  cases act with
  | relay i =>
      simp only [Counting.step, relay]
      split
      · exact hup j
      · by_cases hj : j = i
        · subst hj
          simp only [Function.update_self]
          exact hup j
        · simp only [Function.update_of_ne hj]
          exact hup j
  | update i k mustUpdate =>
      simp only [Counting.step]
      by_cases hj : j = i
      · subst hj
        rw [Function.update_self]
        have hstate (hs : (b.seat j).node.status = .handshaking) :
            (b.seat j).node.key.2 = (c.node j).state := by
          rw [(hmatch j).key (by rw [hs]; decide)]
        refine (hup j).turn (fun hs hdone => ?_) (fun hs hrun => ?_) fun hs => ?_
        · rw [nodes_eq hids h j (((h.seat j).counting hs).2 (.inl (by rw [hdone]; decide)))]
          exact hS.begins j
        · rw [hstate hs] at hrun ⊢
          exact hS.goes j _ _ _ _ (heach j)
            (heard_queue hids hS.counted h hcarried hmatch heach j k) hrun
        · rw [hstate hs]
          exact hS.noError j _ _ _ (heach j)
      · rw [Function.update_of_ne hj]
        exact hup j

/-- So no node ever gives up, and its exchange is that of a network in which every
exchange is as `P` says. -/
theorem bus_stays (acts : List (Counting.Action N.toNat)) :
    (∃ c : Network.Net κ N.toNat,
      c.Carried (Network.route ids) (Network.ofNode own ids) (Network.spare own) ∧
      c.Each P ∧ ∀ i, Matches K i ((Counting.run (KeyExchange.each K) N ids
        (Counting.start N ids fun i => (i, key i)) acts).seat i) (c.node i)) ∧
    ∀ i, Up K key i ((Counting.run (KeyExchange.each K) N ids
      (Counting.start N ids fun i => (i, key i)) acts).seat i).node := by
  have hnet (acts : List (Counting.Action N.toNat)) : ∃ c : Network.Net κ N.toNat,
      c.Carried (Network.route ids) (Network.ofNode own ids) (Network.spare own) ∧
      c.Each P ∧ ∀ i, Matches K i ((Counting.run (KeyExchange.each K) N ids
        (Counting.start N ids fun i => (i, key i)) acts).seat i) (c.node i) := by
    obtain ⟨acts', hmatch⟩ := bus_refines hS.speaks hids hS.counted (hS.speaks.lawful hS.counted hS.drains)
      key acts
    obtain ⟨hcarried, heach⟩ := Network.run_rule hS.speaks hids hS.start hS.init hS.update acts'
    exact ⟨_, hcarried, heach, hmatch⟩
  refine ⟨hnet acts, ?_⟩
  induction acts using List.reverseRecOn with
  | nil =>
      intro i
      refine ⟨?_, rfl, fun _ => ⟨?_, rfl⟩, ?_⟩ <;> intro hs <;> cases hs
  | append_singleton acts act ih =>
      obtain ⟨c, hcarried, heach, hmatch⟩ := hnet acts
      have hinv : Inv (fun _ => True) ids (Counting.run (KeyExchange.each K) N ids
          (Counting.start N ids fun i => (i, key i)) acts) :=
        run_inv (KeyExchange.each_lawful (hS.speaks.lawful hS.counted hS.drains)) hids (start_inv fun _ => trivial) acts
      rw [Counting.run, List.foldl_append]
      exact Up.step hS hids hinv hcarried heach hmatch ih act

omit hS in
/-- When nothing is left to do on the bus, nothing is left to do in the network. -/
theorem Still.quiet {b : Bus (Fin N.toNat × κ) N.toNat} {c : Network.Net κ N.toNat}
    (hstill : Still (KeyExchange.each K) b) (hown : own thatsMe = false)
    {status : κ → KeyStatus} (hstatus : ∀ i, (K i).status = status)
    (h : Inv (fun _ => True) ids b)
    (hcarried : c.Carried (Network.route ids) (Network.ofNode own ids) (Network.spare own))
    (hmatch : ∀ i, Matches K i (b.seat i) (c.node i))
    (hup : ∀ i, Up K key i (b.seat i).node) : Network.Quiet status c := by
  have hcase (i : Fin N.toNat) : (b.seat i).node.status = .handshaking ∨
      status (c.node i).state = .completed := by
    cases hs : (b.seat i).node.status with
    | offline => exact absurd hs (hup i).up
    | counting => exact absurd hs (hstill.begun i)
    | handshaking => exact .inl rfl
    | finalizing => exact .inr (hstatus i ▸ (hmatch i).done (.inl hs))
    | online => exact .inr (hstatus i ▸ (hmatch i).done (.inr hs))
  have hkey (i : Fin N.toNat) (hs : (b.seat i).node.status = .handshaking) :
      (b.seat i).node.key = (i, (c.node i).state) :=
    (hmatch i).key (by rw [hs]; decide)
  refine ⟨fun i => ?_, fun i hrun => ?_⟩
  · rcases hcase i with hs | hdone
    · have hoff := (hup i).handshaking hs
      rwa [hkey i hs, hstatus] at hoff
    · rw [hdone]
      decide
  · have hs := (hcase i).resolve_right (by rw [hrun]; decide)
    have hrunning : (KeyExchange.each K).status (b.seat i).node.key = .running := by
      rw [hkey i hs]
      change (K i).status _ = _
      rw [hstatus]
      exact hrun
    have hinQ := hstill.read i ⟨hs, hrunning⟩
    have hempty : (c.node i).inQ = [] := List.prefix_nil.mp (hinQ ▸ (hmatch i).inQ)
    refine ⟨hempty, fun k => ?_⟩
    by_cases hk : k = i
    · rw [hk]
      exact hcarried.self i
    · have hway : onTheWay ids b k i = [] := by
        rw [onTheWay, hstill.given, List.drop_length, (hstill.relayed k).1,
          (hstill.relayed k).2]
        rfl
      have hconserved := h.conserved i k
      rw [hinQ, hway, List.append_nil, List.append_nil, filter_isFor hids hk,
        (hmatch k).wrote] at hconserved
      have hlink := hcarried.link k i hk
      have hall : ((c.node k).wrote.filterMap (Network.route ids k i)).filter
          (fun p => own p.cmd) = (c.node k).wrote.filterMap (Network.route ids k i) := by
        refine List.filter_eq_self.mpr fun p hp => ?_
        obtain ⟨o, ho, hroute⟩ := List.mem_filterMap.mp hp
        exact (Network.ofNode_iff.mp (hcarried.routed k i o ho p hroute)).1
      rw [Links.Node.given, hempty, List.append_nil, ← (hmatch i).taken, filter_ofNode hown,
        hconserved, hall] at hlink
      exact List.append_right_eq_self.mp hlink

/-- All of it at once, with as many nodes as the counter is told to expect. -/
theorem bus_agrees {status : κ → KeyStatus} (hstatus : ∀ i, (K i).status = status)
    (acts : List (Counting.Action N.toNat)) :
    let b := Counting.run (KeyExchange.each K) N ids
      (Counting.start N ids fun i => (i, key i)) acts
    (∀ i, Up K key i (b.seat i).node) ∧
    ∃ c : Network.Net κ N.toNat,
      c.Carried (Network.route ids) (Network.ofNode own ids) (Network.spare own) ∧
      c.Each P ∧ (∀ i, Matches K i (b.seat i) (c.node i)) ∧
      (Still (KeyExchange.each K) b → Network.Quiet status c) := by
  obtain ⟨⟨c, hcarried, heach, hmatch⟩, hup⟩ := bus_stays hS hids acts
  exact ⟨hup, c, hcarried, heach, hmatch, fun hstill => hstill.quiet hids hS.counted hstatus
    (run_inv (KeyExchange.each_lawful (hS.speaks.lawful hS.counted hS.drains)) hids
      (start_inv fun _ => trivial) acts) hcarried hmatch hup⟩

end Stays

end Refinement

end LibSmoke
