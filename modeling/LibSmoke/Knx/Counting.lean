import LibSmoke.Lib.Runs
import LibSmoke.Knx.MkaKeyExchange
import Mathlib.Data.Fintype.Card
import Mathlib.Data.Finset.Image

/-!
# Counting does not eat the handshake

Nodes leave the counting phase one after the other, and the counter of a node
that is still in it drops whatever is no announcement. Over a relay that hands
all packets to all nodes in one order this costs no packet of a key exchange:
before a node sends one, it has heard every other node, so every node's
announcement stands before that packet in the one order (`Ordered`), and a
counter that gets as far as the packet has read all of these and stops.

The relay keeps a log of the packets it passed on and how much of the log each
node has been given. What a node's counter and its key exchange took off the
queue, and what its key exchange wrote, is kept as history.
-/

namespace LibSmoke

/-- The packet layer of a node hands up a packet that is addressed to it and is
not its own. -/
def Pkt.isFor (id : UInt16) (p : Pkt) : Bool :=
  p.src ≠ id ∧ (p.dest = broadcastAddr ∨ p.dest = id)

namespace Counting

/-- A node with its queues: `up` is on its way to the relay, and `got` is how
much of the log the node has been given. -/
structure Seat (κ : Type) where
  node : Sknx κ
  inQ : List Pkt
  outQ : List Outgoing
  up : List Outgoing
  got : Nat
  counterRead : List Pkt
  keyRead : List Pkt
  keySent : List Outgoing

/-- The nodes and what the relay has passed on. -/
structure Bus (κ : Type) (n : Nat) where
  seat : Fin n → Seat κ
  log : List Pkt

inductive Action (n : Nat)
  | relay (i : Fin n)
  | update (i : Fin n) (k : Nat) (mustUpdate : Bool)

instance {κ : Type} (s : Sknx κ) : Decidable s.Counts :=
  inferInstanceAs (Decidable (_ ∧ _))

section Run

variable {κ : Type} (K : KeyExchange κ) (N : UInt8)
  (ids : Fin N.toNat → UInt16)

/-- The turn of this node is one of its key exchange. -/
def Exchanges (s : Sknx κ) : Prop :=
  s.status = .handshaking ∧ K.status s.key = .running

instance (s : Sknx κ) : Decidable (Exchanges K s) :=
  inferInstanceAs (Decidable (_ ∧ _))

/-- Every node has called `init`. -/
def start (key : Fin N.toNat → κ) : Bus κ N.toNat where
  seat := fun i => ⟨((Sknx.new (key i)).init (ids i)).1, [], [], [], 0, [], [],
    []⟩
  log := []

/-- The relay takes a packet of node `i` and passes it on to all. -/
def relay (i : Fin N.toNat) (b : Bus κ N.toNat) : Bus κ N.toNat :=
  match (b.seat i).up with
  | [] => b
  | p :: rest =>
      { seat := Function.update b.seat i { b.seat i with up := rest }
        log := b.log ++ [p.pkt (ids i)] }

/-- The queue of a node when it has been given `k` more packets. -/
def Seat.queue (id : UInt16) (log : List Pkt) (k : Nat) (s : Seat κ) :
    List Pkt :=
  s.inQ ++ ((log.drop s.got).take k).filter (Pkt.isFor id)

/-- `SKNX::update`: the packet layer, then the turn. -/
def Seat.update (id : UInt16) (log : List Pkt) (k : Nat) (mustUpdate : Bool)
    (s : Seat κ) : Seat κ :=
  let q := s.queue id log k
  let a := s.node.turn K N mustUpdate q
  { node := a.state
    inQ := a.rest
    outQ := a.wrote
    up := s.up ++ s.outQ
    got := s.got + ((log.drop s.got).take k).length
    counterRead := s.counterRead ++ if s.node.Counts then a.taken q else []
    keyRead := s.keyRead ++ if Exchanges K s.node then a.taken q else []
    keySent := s.keySent ++ if s.node.Counts then [] else a.wrote }

def step (b : Bus κ N.toNat) : Action N.toNat → Bus κ N.toNat
  | .relay i => relay N ids i b
  | .update i k mustUpdate =>
      { b with
        seat := Function.update b.seat i
          ((b.seat i).update K N (ids i) b.log k mustUpdate) }

def run (b : Bus κ N.toNat) (acts : List (Action N.toNat)) : Bus κ N.toNat :=
  acts.foldl (step K N ids) b

end Run

/-! ## The counter stops in time -/

section Collect

variable {n : Nat} (ids : Fin n → UInt16)

/-- In front of every packet of a key exchange stands an announcement of every
node. -/
def Ordered (log : List Pkt) : Prop :=
  ∀ pre p post, log = pre ++ p :: post → p.cmd ≠ thatsMe →
    ∀ j, ∃ q ∈ pre, q.src = ids j ∧ q.cmd = thatsMe ∧ q.dest = broadcastAddr

variable {ids}

theorem card_of_all (hids : Function.Injective ids) {nodes : Finset UInt16}
    (h : ∀ j, ids j ∈ nodes) : n ≤ nodes.card := by
  have himage : Finset.univ.image ids ⊆ nodes := by
    intro x hx
    obtain ⟨j, -, rfl⟩ := Finset.mem_image.mp hx
    exact h j
  have hcard := Finset.card_le_card himage
  rwa [Finset.card_image_of_injective _ hids, Finset.card_univ,
    Fintype.card_fin] at hcard

/-- A counter that has read `pre`, and knows of all announcements in it, takes
nothing but announcements off a queue that continues `pre` in order. -/
theorem collect_announcements (hids : Function.Injective ids) {N : UInt8}
    (hN : N.toNat = n) {i : Fin n} {q pre : List Pkt} {nodes : Finset UInt16}
    (hown : ids i ∈ nodes)
    (hheard : ∀ p ∈ pre, p.cmd = thatsMe → p.src ∈ nodes)
    (hord : ∀ x p y, pre ++ q = x ++ p :: y → p.cmd ≠ thatsMe →
      ∀ j, j ≠ i → ∃ r ∈ x, r.src = ids j ∧ r.cmd = thatsMe) :
    ∃ t, q = t ++ (DummyNodeCounter.collect N nodes q).2 ∧
      ∀ p ∈ t, p.cmd = thatsMe ∧
        p.src ∈ (DummyNodeCounter.collect N nodes q).1 := by
  induction q generalizing pre nodes with
  | nil => exact ⟨[], rfl, fun p hp => by cases hp⟩
  | cons p q ih =>
      have happ : pre ++ p :: q = (pre ++ [p]) ++ q := by
        rw [List.append_assoc, List.singleton_append]
      have hrec : ∀ {nodes' : Finset UInt16}, nodes ⊆ nodes' →
          p.cmd = thatsMe → p.src ∈ nodes' →
          ∃ t, p :: q = t ++ (DummyNodeCounter.collect N nodes' q).2 ∧
            ∀ p' ∈ t, p'.cmd = thatsMe ∧
              p'.src ∈ (DummyNodeCounter.collect N nodes' q).1 := by
        intro nodes' hsub hcmd hsrc
        have hheard' : ∀ p' ∈ pre ++ [p], p'.cmd = thatsMe →
            p'.src ∈ nodes' := by
          intro p' hp' hcmd'
          rcases List.mem_append.mp hp' with hp' | hp'
          · exact hsub (hheard p' hp' hcmd')
          · rw [List.mem_singleton.mp hp']
            exact hsrc
        rw [happ] at hord
        obtain ⟨t, ht, hall⟩ := ih (hsub hown) hheard' hord
        refine ⟨p :: t, by rw [List.cons_append, ← ht], fun p' hp' => ?_⟩
        rcases List.mem_cons.mp hp' with rfl | hp'
        · exact ⟨hcmd, DummyNodeCounter.subset_collect _ _ _ hsrc⟩
        · exact hall p' hp'
      rw [DummyNodeCounter.collect]
      split
      · next hlt =>
          split
          · next hcmd =>
              -- all announcements are known, so this is no counter that reads
              have hall : ∀ j, ids j ∈ nodes := by
                intro j
                by_cases hj : j = i
                · exact hj ▸ hown
                · obtain ⟨r, hr, hsrc, hrcmd⟩ := hord pre p q rfl hcmd j hj
                  exact hsrc ▸ hheard r hr hrcmd
              have := card_of_all hids hall
              omega
          · next hcmd =>
              have hcmd := not_not.mp hcmd
              split
              · exact hrec (Finset.subset_insert _ _) hcmd
                  (Finset.mem_insert_self _ _)
              · next hsrc =>
                  exact hrec (Finset.Subset.refl _) hcmd (not_not.mp hsrc)
      · exact ⟨[], rfl, fun p hp => by cases hp⟩

end Collect

theorem Ordered.snoc {n : Nat} {ids : Fin n → UInt16} {log : List Pkt} {x : Pkt}
    (h : Ordered ids log)
    (hx : x.cmd ≠ thatsMe → ∀ j, ∃ q ∈ log, q.src = ids j ∧ q.cmd = thatsMe ∧
      q.dest = broadcastAddr) :
    Ordered ids (log ++ [x]) :=
  Runs.forall_split_concat h hx

/-- The order shows in what a node is given as well, its own packets aside. -/
theorem Ordered.given {n : Nat} {ids : Fin n → UInt16}
    (hids : Function.Injective ids) {log : List Pkt} (h : Ordered ids log)
    {i j : Fin n} (hj : j ≠ i) {m : Nat} {x y : List Pkt} {p : Pkt}
    (heq : (log.take m).filter (Pkt.isFor (ids i)) = x ++ p :: y)
    (hcmd : p.cmd ≠ thatsMe) : ∃ r ∈ x, r.src = ids j ∧ r.cmd = thatsMe := by
  obtain ⟨l₁, l₂, htake, rfl, hl₂⟩ := List.filter_eq_append_iff.mp heq
  obtain ⟨l₃, l₄, rfl, hl₃, -, -⟩ := List.filter_eq_cons_iff.mp hl₂
  have hlog : log = (l₁ ++ l₃) ++ p :: (l₄ ++ log.drop m) :=
    calc log = log.take m ++ log.drop m := (List.take_append_drop m log).symm
      _ = _ := by rw [htake]; simp only [List.append_assoc, List.cons_append]
  obtain ⟨r, hr, hsrc, hrcmd, hdest⟩ := h _ _ _ hlog hcmd j
  have hfor : Pkt.isFor (ids i) r = true := by
    rw [Pkt.isFor, hsrc, hdest]
    simpa using fun heq => hj (hids heq)
  rcases List.mem_append.mp hr with hr | hr
  · exact ⟨r, List.mem_filter.mpr ⟨hr, hfor⟩, hsrc, hrcmd⟩
  · exact absurd hfor (hl₃ r hr)

/-! ## The invariant -/

section Invariant

variable {κ : Type} {K : KeyExchange κ} {I : κ → Prop} {N : UInt8}

/-- The packets of a node from the log to its own queue. -/
def Seat.stream (id : UInt16) (log : List Pkt) (s : Seat κ) : List Pkt :=
  log.filter (fun p => p.src = id) ++ (s.up ++ s.outQ).map (Outgoing.pkt id)

/-- The counter knows as many nodes as there are. -/
def Found (N : UInt8) (s : Sknx κ) : Prop := s.counter.nodes.card = N.toNat

/-- What holds of one node, beside a log of which it has been given a part. -/
structure Seat.Ok (I : κ → Prop) (N : UInt8) (id : UInt16) (log : List Pkt)
    (s : Seat κ) : Prop where
  key : I s.node.key
  given : s.got ≤ log.length
  taken : (log.take s.got).filter (Pkt.isFor id) =
    s.counterRead ++ s.keyRead ++ s.inQ
  announced : ∀ p ∈ s.counterRead, p.cmd = thatsMe
  heard : s.node.Counts → s.keyRead = [] ∧
    ∀ p ∈ s.counterRead, p.src ∈ s.node.counter.nodes
  nodes : ∀ x ∈ s.node.counter.nodes, x = id ∨
    ∃ p ∈ log, p.src = x ∧ p.cmd = thatsMe
  own : id ∈ s.node.counter.nodes
  exchange : ∀ p ∈ s.keySent, p.cmd ≠ thatsMe
  counting : s.node.status = .counting → s.keySent = [] ∧
    (s.node.counter.status ≠ .counting ∨
      s.node.counter.updateLoopsRemaining > 0 → Found N s.node)
  found : s.node.status = .handshaking ∨ s.keySent ≠ [] → Found N s.node
  sent : ∃ k, s.stream id log =
      List.replicate k ((Outgoing.bare thatsMe).pkt id) ++
        s.keySent.map (Outgoing.pkt id) ∧
    (k = 0 → s.node.Counts ∧ s.node.counter.cnt = 0)

structure Inv (I : κ → Prop) (ids : Fin N.toNat → UInt16)
    (b : Bus κ N.toNat) : Prop where
  src : ∀ p ∈ b.log, ∃ j, p.src = ids j
  announce : ∀ p ∈ b.log, p.cmd = thatsMe → p.dest = broadcastAddr
  ordered : Ordered ids b.log
  seat : ∀ i, (b.seat i).Ok I N (ids i) b.log

theorem start_inv {ids : Fin N.toNat → UInt16} {key : Fin N.toNat → κ}
    (hkey : ∀ i, I (key i)) : Inv I ids (start N ids key) where
  src := fun p hp => by cases hp
  announce := fun p hp => by cases hp
  ordered := fun pre p post h => by
    have := congrArg List.length h
    simp [start] at this
  seat := fun i => {
    key := hkey i
    given := Nat.le_refl 0
    taken := rfl
    announced := fun p hp => by cases hp
    heard := fun _ => ⟨rfl, fun p hp => by cases hp⟩
    nodes := fun x hx => .inl (Finset.mem_singleton.mp hx)
    own := Finset.mem_singleton_self _
    exchange := fun p hp => by cases hp
    counting := fun _ => ⟨rfl, fun h => by
      rcases h with h | h
      · exact absurd rfl h
      · exact absurd h (show ¬ (0 : UInt8) > 0 by decide)⟩
    found := fun h => by
      rcases h with h | h
      · cases h
      · exact absurd rfl h
    sent := ⟨0, rfl, fun _ => ⟨⟨rfl, rfl⟩, rfl⟩⟩ }

/-! ### The relay -/

section Relay

variable {ids : Fin N.toNat → UInt16} {b : Bus κ N.toNat}

theorem Seat.Ok.mem_stream {id : UInt16} {log : List Pkt} {s : Seat κ}
    (h : s.Ok I N id log) {p : Pkt} (hp : p ∈ s.stream id log) :
    p = (Outgoing.bare thatsMe).pkt id ∨ p.cmd ≠ thatsMe ∧ s.keySent ≠ [] := by
  obtain ⟨k, hk, -⟩ := h.sent
  rw [hk] at hp
  rcases List.mem_append.mp hp with hp | hp
  · exact .inl (List.eq_of_mem_replicate hp)
  · obtain ⟨p', hp', rfl⟩ := List.mem_map.mp hp
    exact .inr ⟨h.exchange p' hp', List.ne_nil_of_mem hp'⟩

/-- A node that sends packets of its key exchange has announced itself. -/
theorem Seat.Ok.self_announced {id : UInt16} {log : List Pkt} {s : Seat κ}
    (h : s.Ok I N id log) {p : Outgoing} {rest : List Outgoing}
    (hup : s.up = p :: rest) (hcmd : p.cmd ≠ thatsMe)
    (hsent : s.keySent ≠ []) : ∃ q ∈ log, q.src = id ∧ q.cmd = thatsMe := by
  obtain ⟨k, hk, hfresh⟩ := h.sent
  obtain ⟨k, rfl⟩ : ∃ k', k = k' + 1 := by
    refine Nat.exists_eq_succ_of_ne_zero fun h0 => hsent ?_
    exact (h.counting (hfresh h0).1.1).1
  rw [Seat.stream, hup] at hk
  cases hlog : log.filter fun p => p.src = id with
  | nil =>
      rw [hlog] at hk
      exact absurd (congrArg Pkt.cmd (List.cons.inj hk).1) hcmd
  | cons q qs =>
      have hq : q ∈ log.filter fun p => p.src = id := by
        rw [hlog]
        exact List.mem_cons_self
      obtain ⟨hqlog, hqsrc⟩ := List.mem_filter.mp hq
      rw [hlog] at hk
      exact ⟨q, hqlog, of_decide_eq_true hqsrc,
        congrArg Pkt.cmd (List.cons.inj hk).1⟩

/-- And it has heard all others. -/
theorem Inv.all_heard (h : Inv I ids b) (hids : Function.Injective ids)
    {i : Fin N.toNat} (hsent : (b.seat i).keySent ≠ []) {j : Fin N.toNat}
    (hj : j ≠ i) : ∃ q ∈ b.log, q.src = ids j ∧ q.cmd = thatsMe := by
  have hsub : (b.seat i).node.counter.nodes ⊆ Finset.univ.image ids := by
    intro x hx
    refine Finset.mem_image.mpr ?_
    rcases (h.seat i).nodes x hx with rfl | ⟨p, hp, rfl, -⟩
    · exact ⟨i, Finset.mem_univ i, rfl⟩
    · obtain ⟨j, hj⟩ := h.src p hp
      exact ⟨j, Finset.mem_univ j, hj.symm⟩
  have hcard : (Finset.univ.image ids).card ≤
      (b.seat i).node.counter.nodes.card := by
    rw [(h.seat i).found (.inr hsent), Finset.card_image_of_injective _ hids,
      Finset.card_univ, Fintype.card_fin]
  have hmem : ids j ∈ (b.seat i).node.counter.nodes := by
    rw [Finset.eq_of_subset_of_card_le hsub hcard]
    exact Finset.mem_image_of_mem ids (Finset.mem_univ j)
  rcases (h.seat i).nodes _ hmem with heq | hlog
  · exact absurd (hids heq) hj
  · exact hlog

/-- A longer log changes nothing for a node that did not send the packet. -/
theorem Seat.Ok.log_snoc {id : UInt16} {log : List Pkt} {s : Seat κ}
    (h : s.Ok I N id log) {x : Pkt} {s' : Seat κ}
    (hs' : ∃ up, s' = { s with up := up })
    (hstream : s'.stream id (log ++ [x]) = s.stream id log) :
    s'.Ok I N id (log ++ [x]) := by
  obtain ⟨up, rfl⟩ := hs'
  exact {
    h with
    given := by
      rw [List.length_append]
      exact Nat.le_add_right_of_le h.given
    taken := by
      simp only []
      rw [List.take_append_of_le_length h.given]
      exact h.taken
    nodes := fun x hx => by
      rcases h.nodes x hx with hx | ⟨q, hq, hx⟩
      · exact .inl hx
      · exact .inr ⟨q, List.mem_append_left _ hq, hx⟩
    sent := by
      rw [hstream]
      exact h.sent }

theorem relay_inv (hids : Function.Injective ids) (h : Inv I ids b)
    (i : Fin N.toNat) : Inv I ids (relay N ids i b) := by
  rw [relay]
  split
  · exact h
  · next p rest hup =>
      have hcase := (h.seat i).mem_stream (p := p.pkt (ids i)) (by
        rw [Seat.stream, hup]
        exact List.mem_append_right _ (List.mem_map_of_mem (by simp)))
      refine ⟨?_, ?_, ?_, ?_⟩
      · intro q hq
        rcases List.mem_append.mp hq with hq | hq
        · exact h.src q hq
        · exact ⟨i, by rw [List.mem_singleton.mp hq]; rfl⟩
      · intro q hq hcmd
        rcases List.mem_append.mp hq with hq | hq
        · exact h.announce q hq hcmd
        · obtain rfl := List.mem_singleton.mp hq
          rcases hcase with heq | hne
          · rw [heq]; rfl
          · exact absurd hcmd hne.1
      · refine h.ordered.snoc fun hcmd j => ?_
        have hsent := (hcase.resolve_left fun heq => hcmd (by rw [heq]; rfl)).2
        obtain ⟨q, hq, hsrc, hqcmd⟩ : ∃ q ∈ b.log, q.src = ids j ∧
            q.cmd = thatsMe := by
          by_cases hj : j = i
          · exact hj ▸ (h.seat i).self_announced hup hcmd hsent
          · exact h.all_heard hids hsent hj
        exact ⟨q, hq, hsrc, hqcmd, h.announce q hq hqcmd⟩
      · intro j
        simp only []
        by_cases hj : j = i
        · subst hj
          rw [Function.update_self]
          refine (h.seat j).log_snoc ⟨rest, rfl⟩ ?_
          rw [Seat.stream, Seat.stream, List.filter_append, hup]
          simp [Outgoing.pkt]
        · have hne : ids i ≠ ids j := fun heq => hj (hids heq.symm)
          rw [Function.update_of_ne hj]
          refine (h.seat j).log_snoc ⟨(b.seat j).up, rfl⟩ ?_
          rw [Seat.stream, Seat.stream, List.filter_append]
          simp [Outgoing.pkt, hne]

end Relay

/-! ### A turn of a node -/

section Update

variable {ids : Fin N.toNat → UInt16}

theorem take_given (l : List Pkt) (m k : Nat) :
    l.take (m + ((l.drop m).take k).length) = l.take m ++ (l.drop m).take k := by
  rw [List.take_add, ← List.prefix_iff_eq_take.mp (List.take_prefix k _)]

/-- What a node has been given, when its queue is not yet read. -/
theorem Seat.Ok.taken_queue {id : UInt16} {log : List Pkt} {s : Seat κ}
    (h : s.Ok I N id log) (k : Nat) :
    (log.take (s.got + ((log.drop s.got).take k).length)).filter
        (Pkt.isFor id) =
      s.counterRead ++ s.keyRead ++ s.queue id log k := by
  rw [take_given, List.filter_append, h.taken, Seat.queue, ← List.append_assoc]

theorem Seat.stream_update (id : UInt16) (log : List Pkt) (k : Nat)
    (mustUpdate : Bool) (s : Seat κ) :
    (s.update K N id log k mustUpdate).stream id log = s.stream id log ++
      ((s.node.turn K N mustUpdate (s.queue id log k)).wrote).map
        (Outgoing.pkt id) := by
  unfold Seat.stream Seat.update
  simp only [List.map_append, List.append_assoc]

/-- The counter of a node takes announcements off its queue, and knows them
afterwards. -/
theorem Seat.Ok.counter_takes (hids : Function.Injective ids) {log : List Pkt}
    (hord : Ordered ids log) {i : Fin N.toNat} {s : Seat κ}
    (h : s.Ok I N (ids i) log) (hc : s.node.Counts) (k : Nat) :
    ∃ t, s.queue (ids i) log k = t ++ (DummyNodeCounter.collect N
        s.node.counter.nodes (s.queue (ids i) log k)).2 ∧
      ∀ p ∈ t, p.cmd = thatsMe ∧ p.src ∈ (DummyNodeCounter.collect N
        s.node.counter.nodes (s.queue (ids i) log k)).1 := by
  have hgiven := h.taken_queue k
  rw [(h.heard hc).1, List.append_nil] at hgiven
  refine collect_announcements hids rfl h.own
    (fun p hp _ => (h.heard hc).2 p hp) fun x p y heq hcmd j hj => ?_
  exact hord.given hids hj (hgiven.trans heq) hcmd

/-- A turn in which the node does not count. -/
theorem Seat.Ok.uncounted {id : UInt16} {log : List Pkt} {s s' : Seat κ}
    (h : s.Ok I N id log) (hnot : ¬ s.node.Counts) {wrote : List Outgoing}
    (hstatus : s'.node.status ≠ .counting)
    (hnodes : s'.node.counter.nodes = s.node.counter.nodes)
    (hread : s'.counterRead = s.counterRead) (hsent : s'.keySent = s.keySent ++ wrote)
    (hstream : s'.stream id log = s.stream id log ++ wrote.map (Outgoing.pkt id))
    (hkey : I s'.node.key) (hgiven : s'.got ≤ log.length)
    (htaken : (log.take s'.got).filter (Pkt.isFor id) =
      s.counterRead ++ s'.keyRead ++ s'.inQ)
    (hexchange : ∀ p ∈ wrote, p.cmd ≠ thatsMe)
    (hfound : s'.node.status = .handshaking ∨ s'.keySent ≠ [] → Found N s'.node) :
    s'.Ok I N id log where
  key := hkey
  given := hgiven
  taken := by rw [htaken, hread]
  announced := by
    rw [hread]
    exact h.announced
  heard := fun hc => absurd hc.1 hstatus
  nodes := by
    rw [hnodes]
    exact h.nodes
  own := by
    rw [hnodes]
    exact h.own
  exchange := by
    intro p hp
    rw [hsent] at hp
    rcases List.mem_append.mp hp with hp | hp
    · exact h.exchange p hp
    · exact hexchange p hp
  counting := fun hc => absurd hc hstatus
  found := hfound
  sent := by
    obtain ⟨c, hc, hfresh⟩ := h.sent
    refine ⟨c, ?_, fun h0 => absurd (hfresh h0).1 hnot⟩
    rw [hstream, hc, hsent, List.map_append, List.append_assoc]

theorem Seat.Ok.update (hK : K.Lawful I) (hids : Function.Injective ids)
    {log : List Pkt} (hord : Ordered ids log) {i : Fin N.toNat} {s : Seat κ}
    (h : s.Ok I N (ids i) log) (k : Nat) (mustUpdate : Bool) :
    (s.update K N (ids i) log k mustUpdate).Ok I N (ids i) log := by
  have hstream := Seat.stream_update (K := K) (N := N) (ids i) log k mustUpdate s
  have hgiven := h.taken_queue k
  have hkey := Sknx.turn_key (N := N) hK mustUpdate (s.queue (ids i) log k) h.key
  have hlen : s.got + ((log.drop s.got).take k).length ≤ log.length := by
    rw [List.length_take, List.length_drop]
    have := h.given
    omega
  have hcase := Sknx.turn_cases K N mustUpdate (s.queue (ids i) log k) s.node
  have htaken := Act.taken_append
    (Sknx.turn_suffix (N := N) hK mustUpdate (s.queue (ids i) log k) s.node)
  obtain ⟨c, hsent, hfresh⟩ := h.sent
  simp only [Seat.update] at hstream ⊢
  generalize s.node.turn K N mustUpdate (s.queue (ids i) log k) = a at *
  cases hcase with
  | count hc hstatus hk hcounter hrest hwrote =>
      obtain ⟨t, ht, hall⟩ := h.counter_takes hids hord hc k
      obtain ⟨hrest', hnodes, hwrote', -⟩ :=
        DummyNodeCounter.update_counting (N := N) (q := s.queue (ids i) log k) hc.2
      have hnot : ¬ Exchanges K s.node := fun he => by
        have := he.1.symm.trans hc.1
        cases this
      have htaken' : a.taken (s.queue (ids i) log k) = t := by
        rw [hrest, hrest'] at htaken
        exact List.append_cancel_right (htaken.trans ht)
      have hnone := (h.counting hc.1).1
      rw [← hcounter] at hnodes
      simp only [if_pos hc, if_neg hnot, List.append_nil, htaken']
        at hstream ⊢
      exact {
        key := hkey
        given := hlen
        taken := by
          rw [hgiven, (h.heard hc).1, List.append_nil, List.append_nil, hrest,
            hrest', List.append_assoc, ← ht]
        announced := fun p hp => by
          rcases List.mem_append.mp hp with hp | hp
          · exact h.announced p hp
          · exact (hall p hp).1
        heard := fun _ => by
          refine ⟨(h.heard hc).1, fun p hp => ?_⟩
          simp only [hnodes]
          rcases List.mem_append.mp hp with hp | hp
          · exact DummyNodeCounter.subset_collect _ _ _ ((h.heard hc).2 p hp)
          · exact (hall p hp).2
        nodes := fun x hx => by
          simp only [hnodes] at hx
          rcases DummyNodeCounter.mem_collect hx with hx | ⟨p, hp, hx⟩
          · exact h.nodes x hx
          · have hmem := List.mem_append_right (s.counterRead ++ s.keyRead) hp
            rw [← hgiven] at hmem
            exact .inr ⟨p, List.mem_of_mem_take (List.mem_filter.mp hmem).1, hx⟩
        own := by
          simp only [hnodes]
          exact DummyNodeCounter.subset_collect _ _ _ h.own
        exchange := h.exchange
        counting := fun _ => by
          refine ⟨hnone, fun hfull => ?_⟩
          rw [Found, hcounter]
          rw [hcounter] at hfull
          exact DummyNodeCounter.update_found hc.2
            (fun hloops => (h.counting hc.1).2 (.inr hloops)) hfull.symm
        found := fun hf => by
          rcases hf with hf | hf
          · exact absurd (hstatus.symm.trans hf) (by decide)
          · exact absurd hnone hf
        sent := by
          rw [hstream, hsent, hnone, hwrote, hwrote']
          by_cases hcnt : s.node.counter.cnt % 8 = 0
          · refine ⟨c + 1, ?_, fun h0 => absurd h0 (Nat.succ_ne_zero c)⟩
            rw [if_pos hcnt, List.replicate_succ']
            simp
          · refine ⟨c, ?_, fun h0 => ?_⟩
            · rw [if_neg hcnt]
              simp
            · rw [(hfresh h0).2] at hcnt
              exact absurd rfl hcnt }
  | begin hc hdone hstatus hcounter hk hrest hwrote =>
      have hnot : ¬ s.node.Counts := fun h => by
        have := h.2.symm.trans hdone
        cases this
      have hnot' : ¬ Exchanges K s.node := fun he => by
        have := he.1.symm.trans hc
        cases this
      have hfound : Found N a.state := by
        rw [Found, hcounter]
        exact (h.counting hc).2 (.inl (by rw [hdone]; decide))
      simp only [if_neg hnot, if_neg hnot', List.append_nil] at hstream ⊢
      refine h.uncounted hnot hstatus (congrArg (·.nodes) hcounter) rfl rfl hstream hkey
        hlen ?_ (fun p hp => hK.cmd_init _ _ p (hwrote ▸ hp)) fun _ => hfound
      rw [hgiven, hrest]
  | exchange hc hrun hstatus hcounter hrest hwrote hk =>
      have hnot : ¬ s.node.Counts := fun h => by
        have := h.1.symm.trans hc
        cases this
      have hfound : Found N a.state := by
        rw [Found, hcounter]
        exact h.found (.inl hc)
      simp only [if_neg hnot, if_pos (show Exchanges K s.node from ⟨hc, hrun⟩),
        List.append_nil] at hstream ⊢
      refine h.uncounted hnot hstatus (congrArg (·.nodes) hcounter) rfl rfl hstream hkey
        hlen ?_ (fun p hp => hK.cmd_update _ _ p (hwrote ▸ hp)) fun _ => hfound
      rw [hgiven]
      simp only [List.append_assoc, htaken]
  | idle hc hstatus hquiet hcounter hrest hwrote =>
      have htaken' := Act.taken_of_rest hrest
      simp only [if_neg hc, htaken', hwrote, ite_self, List.append_nil]
        at hstream ⊢
      refine h.uncounted hc hstatus (congrArg (·.nodes) hcounter) rfl
        (List.append_nil _).symm hstream hkey hlen ?_ (fun p hp => by cases hp) fun hf => ?_
      · rw [hgiven, hrest]
      · rw [Found, hcounter]
        exact h.found (.inr (hf.resolve_left hquiet))

theorem step_inv (hK : K.Lawful I) (hids : Function.Injective ids)
    {b : Bus κ N.toNat} (h : Inv I ids b) (act : Action N.toNat) :
    Inv I ids (step K N ids b act) := by
  cases act with
  | relay i => exact relay_inv hids h i
  | update i k mustUpdate =>
      refine ⟨h.src, h.announce, h.ordered, fun j => ?_⟩
      simp only [step]
      by_cases hj : j = i
      · subst hj
        rw [Function.update_self]
        exact (h.seat j).update hK hids h.ordered k mustUpdate
      · rw [Function.update_of_ne hj]
        exact h.seat j

theorem run_inv (hK : K.Lawful I) (hids : Function.Injective ids)
    {b : Bus κ N.toNat} (h : Inv I ids b) (acts : List (Action N.toNat)) :
    Inv I ids (run K N ids b acts) := by
  induction acts generalizing b with
  | nil => exact h
  | cons act acts ih => exact ih (step_inv hK hids h act)

end Update

/-! ## No packet is lost to the counting -/

/-- The packets of node `j` that node `i` will still be given. -/
def onTheWay (ids : Fin N.toNat → UInt16) (b : Bus κ N.toNat)
    (j i : Fin N.toNat) : List Pkt :=
  (b.log.drop (b.seat i).got ++ ((b.seat j).up ++ (b.seat j).outQ).map
    (Outgoing.pkt (ids j))).filter (Pkt.isFor (ids i))

/-- The packets among `l` that the key exchange of a node wrote. -/
def exchangeOf (id : UInt16) (l : List Pkt) : List Pkt :=
  l.filter fun p => p.src = id ∧ p.cmd ≠ thatsMe

theorem exchangeOf_append (id : UInt16) (l l' : List Pkt) :
    exchangeOf id (l ++ l') = exchangeOf id l ++ exchangeOf id l' :=
  List.filter_append l l'

theorem exchangeOf_isFor (id id' : UInt16) (l : List Pkt) :
    exchangeOf id (l.filter (Pkt.isFor id')) =
      (exchangeOf id l).filter (Pkt.isFor id') :=
  List.filter_comm _ _ _

theorem exchangeOf_source (id : UInt16) (l : List Pkt) :
    exchangeOf id (l.filter fun p => p.src = id) = exchangeOf id l := by
  unfold exchangeOf
  rw [List.filter_filter]
  congr 1
  funext p
  simp only [Bool.decide_and, Bool.and_right_comm, Bool.and_self]

/-- What a node's key exchange wrote is in what is on its way from that node. -/
theorem Seat.Ok.exchangeOf_stream {id : UInt16} {log : List Pkt} {s : Seat κ}
    (h : s.Ok I N id log) :
    exchangeOf id (s.stream id log) = s.keySent.map (Outgoing.pkt id) := by
  obtain ⟨c, hsent, -⟩ := h.sent
  have hbare : exchangeOf id
      (List.replicate c ((Outgoing.bare thatsMe).pkt id)) = [] := by
    refine List.filter_eq_nil_iff.mpr fun p hp => ?_
    rw [List.eq_of_mem_replicate hp]
    simp [Outgoing.pkt, Outgoing.bare]
  have hown : exchangeOf id (s.keySent.map (Outgoing.pkt id)) =
      s.keySent.map (Outgoing.pkt id) := by
    refine List.filter_eq_self.mpr fun p hp => ?_
    obtain ⟨p', hp', rfl⟩ := List.mem_map.mp hp
    simpa [Outgoing.pkt] using h.exchange p' hp'
  rw [hsent, exchangeOf_append, hbare, hown, List.nil_append]

theorem Inv.conserved {ids : Fin N.toNat → UInt16} {b : Bus κ N.toNat}
    (h : Inv I ids b) (i j : Fin N.toNat) :
    exchangeOf (ids j) ((b.seat i).keyRead ++ (b.seat i).inQ ++
        onTheWay ids b j i) =
      ((b.seat j).keySent.map (Outgoing.pkt (ids j))).filter
        (Pkt.isFor (ids i)) := by
  have hnone : exchangeOf (ids j) (b.seat i).counterRead = [] := by
    refine List.filter_eq_nil_iff.mpr fun p hp => ?_
    simp [(h.seat i).announced p hp]
  have hgiven : exchangeOf (ids j) ((b.seat i).keyRead ++ (b.seat i).inQ) =
      exchangeOf (ids j) ((b.log.take (b.seat i).got).filter
        (Pkt.isFor (ids i))) := by
    rw [(h.seat i).taken, List.append_assoc, exchangeOf_append _
      (b.seat i).counterRead, hnone, List.nil_append]
  rw [exchangeOf_append, hgiven, onTheWay, exchangeOf_isFor, exchangeOf_isFor,
    ← List.filter_append, ← exchangeOf_append, ← List.append_assoc,
    List.take_append_drop, exchangeOf_append, ← exchangeOf_source _ b.log,
    ← exchangeOf_append]
  exact congrArg _ (h.seat j).exchangeOf_stream

end Invariant

/-- Over a relay with one order, the counters take nothing but announcements off
the queues; a packet of a key exchange goes to the key exchange of every other
node, or is still to come there, in the order in which its node wrote them; and
while a key exchange runs it takes all that its node has been given. -/
theorem exchange_uncounted {κ : Type} {K : KeyExchange κ} {I : κ → Prop}
    (hK : K.Lawful I) {N : UInt8} {ids : Fin N.toNat → UInt16}
    (hids : Function.Injective ids) {key : Fin N.toNat → κ}
    (hkey : ∀ i, I (key i)) (acts : List (Action N.toNat)) :
    let b := run K N ids (start N ids key) acts
    (∀ i, ∀ p ∈ (b.seat i).counterRead, p.cmd = thatsMe) ∧
    (∀ i j, exchangeOf (ids j) ((b.seat i).keyRead ++ (b.seat i).inQ ++
        onTheWay ids b j i) =
      ((b.seat j).keySent.map (Outgoing.pkt (ids j))).filter
        (Pkt.isFor (ids i))) ∧
    (∀ i k mustUpdate, Exchanges K (b.seat i).node →
      Exchanges K ((step K N ids b (.update i k mustUpdate)).seat i).node →
      ((step K N ids b (.update i k mustUpdate)).seat i).inQ = []) := by
  intro b
  have h : Inv I ids b := run_inv hK hids (start_inv hkey) acts
  refine ⟨fun i => (h.seat i).announced, h.conserved, ?_⟩
  intro i k mustUpdate hrun hafter
  simp only [step, Function.update_self, Seat.update] at hafter ⊢
  have hcase := Sknx.turn_cases K N mustUpdate
    ((b.seat i).queue (ids i) b.log k) (b.seat i).node
  cases hcase with
  | count hc => exact absurd (hc.1.symm.trans hrun.1) (by decide)
  | begin hc => exact absurd (hc.symm.trans hrun.1) (by decide)
  | exchange _ _ _ _ hrest _ hk =>
      obtain ⟨hok, hkeyEq⟩ := hk hafter.1
      rw [hrest]
      exact hK.drains _ _ (h.seat i).key hok (hkeyEq ▸ hafter.2)
  | idle _ _ hquiet => exact absurd hafter.1 hquiet

/-- The third of three nodes announces itself, and makes its next turn when the
first two have begun their exchange. -/
def lateThird : List (Action 3) :=
  let hello := [.update 0 0 false, .update 1 0 false, .update 2 0 false,
    .update 2 0 false, .relay 2]
  let others := [.update 0 9 false, .relay 0, .update 1 9 false, .relay 1]
  hello ++ (List.replicate 70 others).flatten ++ [.update 2 4 false]

def threeNodes : Fin 3 → UInt16 := fun i => UInt16.ofNat (i.val + 1)

def lateRun : Bus MkaKeyExchange 3 :=
  run (mkaKeyExchange sevenPoints) 3 threeNodes (start 3 threeNodes fun i =>
    .new sevenPoints (some fun _ => i.val + 1)) lateThird

def lateSeat (i : Fin 3) : Seat MkaKeyExchange := lateRun.seat i

theorem exchange_uncounted_late :
    (lateSeat 0).keySent.length = 1 ∧ (lateSeat 2).node.Counts ∧
    exchangeOf 1 ((lateSeat 2).keyRead ++ (lateSeat 2).inQ ++
        onTheWay (N := 3) threeNodes lateRun (0 : Fin 3) (2 : Fin 3)) =
      ((lateSeat 0).keySent.map (Outgoing.pkt 1)).filter
        (Pkt.isFor 3) := by
  refine ⟨by decide +kernel, by decide +kernel, ?_⟩
  have hids : Function.Injective threeNodes := by decide
  exact (exchange_uncounted (mkaKeyExchange_lawful sevenPoints) (N := 3) hids
    (fun i hrun => by cases hrun) lateThird).2.1 (2 : Fin 3) (0 : Fin 3)

end Counting

end LibSmoke
