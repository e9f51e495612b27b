import LibSmoke.Knx.Bd2KeyExchange
import LibSmoke.Knx.Network

/-!
# The exchange with a chair over a network

Every node runs `BD2KeyExchange`. The node with the lowest id is the only chair,
and what each node has to write is known beforehand: the chair its point, and
later to each other node the key less what it shares with that node; every other
node its point. So a node can be followed by which of the chair's two packets it
has had, and the chair by whose points it has had.

The chair serves all nodes with one context. It comes to the same as serving each
with its own, since the context is overwritten with the point of the node before
anything is computed (`serve_entries`).
-/

namespace LibSmoke

namespace Chair

open Bd1KeyExchange (push push_perm push_sorted)
open Bd2KeyExchange

local instance (priority := 2000) ring_neZero (m : Nat) : @NeZero Nat Zero.ofOfNat0 (m + 2) :=
  neZero_add_two m

local instance (priority := 2001) three_neZero : @NeZero Nat Zero.ofOfNat0 3 := neZero_three

section Ring

variable (g : EcpGroup) (pt : ZMod g.N → EcpPoint) {m : Nat}
  (ids : Fin (m + 2) → UInt16) (r : Fin (m + 2) → Int) (c : Int)

def z0Packet : Outgoing :=
  bufferPacket broadcastAddr cmdBd2ChairZ0 (pointBytes g (pt (r 0)))

def ziPacket (k : Fin (m + 2)) : Outgoing :=
  bufferPacket (ids 0) cmdBd2NodeZi (pointBytes g (pt (r k)))

/-- The key less what the chair shares with node `k`. -/
def xiPacket (k : Fin (m + 2)) : Outgoing :=
  bufferPacket (ids k) cmdBd2ChairXi
    (pointBytes g (pt ((c : ZMod g.N) - r 0 * r k)))

/-- What node `i` has to write. -/
def script (i : Fin (m + 2)) : List Outgoing :=
  if i = 0 then
    z0Packet g pt r :: List.ofFn fun k : Fin (m + 1) => xiPacket g pt ids r c k.succ
  else [ziPacket g pt ids r i]

/-- The entry of node `k` in the queue of the chair. -/
def entry (k : Fin (m + 2)) : UInt16 × List UInt8 :=
  (ids k, padded bd1Bufsize (pointBytes g (pt (r k))))

/-- The points among some packets that the chair takes. -/
def points (t : List Pkt) : List (UInt16 × List UInt8) :=
  (t.filter fun p => p.cmd == cmdBd2NodeZi && p.data.length == bd2Bufsize &&
    p.dest == ids 0).map fun p => (p.src, p.data)

/-- The chair, having taken `t` and written `w`. -/
structure ChairAt (b : Bd2Behavior) (t : List Pkt) (w : List Outgoing)
    (queue : List (UInt16 × List UInt8)) (peer X : EcpPoint) : Prop where
  role : b.role = .chair (Agreement.nodeset ids) queue
  ctx : b.ctx = ⟨g, r 0, pt (r 0), peer, X, pt c⟩
  key : b.key.take b.keylen = keyOf g (pt c)
  sorted : queue.Pairwise fun a b => a.1 ≤ b.1
  waits : b.completed = false →
    queue.Perm (points ids t) ∧ queue.length < m + 1 ∧ w = [z0Packet g pt r]
  done : b.completed = true → queue = [] ∧ w = script g pt ids r c 0 ∧
    ∀ k, k ≠ 0 → (ziPacket g pt ids r k).pkt (ids k) ∈ t

/-- The packets the chair sends to node `i`. -/
def fromChair (i : Fin (m + 2)) : List Pkt :=
  [(z0Packet g pt r).pkt (ids 0), (xiPacket g pt ids r c i).pkt (ids 0)]

/-- A simple node `i` that has had `s` packets of the chair, with what its
generator has given. -/
structure NodeAt (i : Fin (m + 2)) (b : Bd2Behavior) (t : List Pkt)
    (w : List Outgoing) (s drawn : Nat) : Prop where
  role : b.role = .node (ids 0)
  had : t.filter (Network.ofNode own ids 0) = (fromChair g pt ids r c i).take s
  le : s ≤ 2
  new : s = 0 → b.ctx = bd2Init g ∧ drawn = 0 ∧ b.completed = false ∧ w = []
  answered : s = 1 →
    b.ctx = ⟨g, r i, pt (r i), pt (r 0), ⟨0, 0, 0⟩, ⟨0, 0, 0⟩⟩ ∧ b.completed = false
  key : s = 2 → b.completed = true ∧ b.key.take b.keylen = keyOf g (pt c)
  wrote : s ≠ 0 → w = [ziPacket g pt ids r i]

/-- An exchange of node `i` that has begun. -/
structure Going (draw : Fin (m + 2) → Nat → Nat → Nat) (i : Fin (m + 2))
    (x : Bd2KeyExchange) (t : List Pkt) (w : List Outgoing) : Prop where
  nodes : x.nodes = Agreement.nodeset ids
  drbg : x.drbg = some (draw i)
  behavior : ∃ b, x.behavior = some b ∧
    (i = 0 → ∃ queue peer X, ChairAt g pt ids r c b t w queue peer X) ∧
    (i ≠ 0 → ∃ s, NodeAt g pt ids r c i b t w s x.drawn)

/-- What holds of node `i`, which draws from `draw`. -/
structure NodeOk (draw : Fin (m + 2) → Nat → Nat → Nat) (i : Fin (m + 2))
    (x : Bd2KeyExchange) (t : List Pkt) (w : List Outgoing) : Prop where
  fresh : x.status = .offline → x = .new (some (draw i)) ∧ t = [] ∧ w = []
  noError : x.status ≠ .error
  going : x.status ≠ .offline → Going g pt ids r c draw i x t w
  completed : x.status = .completed → ∀ b ∈ x.behavior, b.completed = true

end Ring

section Exact

variable {g : EcpGroup} {pt : ZMod g.N → EcpPoint} {m : Nat}
  {ids : Fin (m + 2) → UInt16} {r : Fin (m + 2) → Int} {c : Int}

/-! ## What is given to a node -/

section Given

variable (hids : ∀ i j, i < j → ids i < ids j)

include hids

/-- Only the chair can have the address of all. -/
theorem ids_ne_broadcast {k : Fin (m + 2)} (hk : k ≠ 0) : ids k ≠ broadcastAddr := by
  intro h
  have hlt := hids 0 k (Fin.pos_of_ne_zero hk)
  rw [h] at hlt
  exact absurd hlt (by rw [UInt16.lt_iff_toNat_lt]; exact Nat.not_lt_zero _)

omit hids in
/-- What the chair writes to one node, picked out of what it writes to all. -/
theorem filter_xiPackets {l : Fin (m + 1)} {f : Outgoing → Bool}
    (hf : ∀ k : Fin (m + 1), f (xiPacket g pt ids r c k.succ) = decide (k = l)) :
    (List.ofFn fun k : Fin (m + 1) => xiPacket g pt ids r c k.succ).filter f =
      [xiPacket g pt ids r c l.succ] := by
  have hone : (List.finRange (m + 1)).filter (· = l) = [l] := by
    rw [List.filter_eq, List.count_eq_one_of_mem (List.nodup_finRange _)
      (List.mem_finRange l)]
    rfl
  have hpick : (List.finRange (m + 1)).filter
      (f ∘ fun k => xiPacket g pt ids r c k.succ) = [l] :=
    (List.filter_congr fun k _ => hf k).trans hone
  rw [List.ofFn_eq_map, List.filter_map, hpick]
  rfl

/-- Of what the chair has to write, node `i` gets two packets. -/
theorem route_script {i : Fin (m + 2)} (hi : i ≠ 0) :
    (script g pt ids r c 0).filterMap (Network.route ids 0 i) =
      fromChair g pt ids r c i := by
  obtain ⟨l, rfl⟩ := Fin.exists_succ_eq.mpr hi
  rw [Network.filterMap_route, script, if_pos rfl, List.filter_cons_of_pos,
    filter_xiPackets (l := l)]
  · rfl
  · intro k
    refine decide_eq_decide.mpr ⟨?_, fun h => .inr (by rw [h]; rfl)⟩
    rintro (h | h)
    · exact absurd h (ids_ne_broadcast hids (Fin.succ_ne_zero k))
    · exact Fin.succ_injective _ (ids_injective hids h)
  · exact decide_eq_true (.inl rfl)

/-- What can have been given to node `i`. -/
structure Good (g : EcpGroup) (pt : ZMod g.N → EcpPoint) (ids : Fin (m + 2) → UInt16)
    (r : Fin (m + 2) → Int) (c : Int) (i : Fin (m + 2)) (l : List Pkt) : Prop where
  known : ∀ p ∈ l, own p.cmd → ∃ k, k ≠ i ∧ p.src = ids k ∧
    ∃ o ∈ script g pt ids r c k, o.pkt (ids k) = p
  nodup : (l.filter fun p => own p.cmd).Nodup
  chair : i ≠ 0 → l.filter (Network.ofNode own ids 0) <+: fromChair g pt ids r c i

omit hids in
theorem Good.of_append {i : Fin (m + 2)} {l l' : List Pkt}
    (h : Good g pt ids r c i (l ++ l')) : Good g pt ids r c i l where
  known := fun p hp => h.known p (List.mem_append_left l' hp)
  nodup := h.nodup.sublist ((List.sublist_append_left l l').filter _)
  chair := fun hi => by
    have hpre := h.chair hi
    rw [List.filter_append] at hpre
    exact (List.prefix_append _ _).trans hpre

omit hids in
theorem NodeOk.wrote_begins {draw : Fin (m + 2) → Nat → Nat → Nat} {i : Fin (m + 2)}
    {x : Bd2KeyExchange} {t : List Pkt} {w : List Outgoing}
    (h : NodeOk g pt ids r c draw i x t w) : w <+: script g pt ids r c i := by
  by_cases hoff : x.status = .offline
  · rw [(h.fresh hoff).2.2]
    exact List.nil_prefix
  · obtain ⟨b, -, hchair, hnode⟩ := (h.going hoff).behavior
    by_cases hi : i = 0
    · subst hi
      obtain ⟨queue, peer, X, hb⟩ := hchair rfl
      cases hdone : b.completed with
      | false =>
          rw [(hb.waits hdone).2.2, script, if_pos rfl]
          exact ⟨_, rfl⟩
      | true => rw [(hb.done hdone).2.1]
    · obtain ⟨s, hb⟩ := hnode hi
      rw [script, if_neg hi]
      by_cases hs : s = 0
      · rw [(hb.new hs).2.2.2]
        exact List.nil_prefix
      · rw [hb.wrote hs]

theorem good_of_heard {draw : Fin (m + 2) → Nat → Nat → Nat} {i : Fin (m + 2)}
    {l : List Pkt}
    (h : Network.Heard own ids (NodeOk g pt ids r c draw) i l) :
    Good g pt ids r c i l := by
  have hscript : ∀ k s t w, NodeOk g pt ids r c draw k s t w →
      w <+: script g pt ids r c k := fun k s t w h => h.wrote_begins
  refine ⟨fun p hp hown => ?_, ?_, fun hi => ?_⟩
  · obtain ⟨k, hk, hsrc, o, ho, heq, -⟩ := Network.heard_script hscript h hp hown
    exact ⟨k, hk, hsrc, o, ho, heq⟩
  · refine Network.heard_nodup hscript h fun k hk => ?_
    by_cases hk0 : k = 0
    · subst hk0
      rw [route_script hids hk.symm, fromChair, List.nodup_cons]
      refine ⟨fun hc => ?_, List.nodup_singleton _⟩
      have hcmd := congrArg Pkt.cmd (List.mem_singleton.mp hc)
      exact absurd (show cmdBd2ChairZ0 = cmdBd2ChairXi from hcmd) (by decide)
    · rw [script, if_neg hk0, List.filterMap_cons, List.filterMap_nil]
      split
      · exact List.nodup_nil
      · exact List.nodup_singleton _
  · rw [← route_script hids hi]
    exact Network.heard_begins hscript h hi.symm

end Given

/-! ## The chair -/

section Chair

variable (hE : g.Exact pt) (hplen : g.plen = 32)
  (hr : ∀ k, 0 < r k ∧ r k < g.N) (hids : ∀ i j, i < j → ids i < ids j)

theorem room (hplen : g.plen = 32) {buflen : Nat} (h : 66 ≤ buflen) : g.Room buflen := by
  rw [EcpGroup.Room, hplen]
  omega

include hE hplen hr

/-- Each entry is served with the point of its node. -/
theorem serve_entries (ks : List (Fin (m + 2))) (peer X : EcpPoint) :
    ∃ peer' X', Bd2Behavior.serve (ks.map (entry g pt ids r))
        ⟨g, r 0, pt (r 0), peer, X, pt c⟩ =
      ([], ⟨g, r 0, pt (r 0), peer', X', pt c⟩, ks.map (xiPacket g pt ids r c), true) := by
  have hsize : bd1Bufsize = 2 * g.plen + 2 := by rw [hplen]; rfl
  induction ks generalizing peer X with
  | nil => exact ⟨peer, X, rfl⟩
  | cons k ks ih =>
      have hk := EcpGroup.Exact.cast_ne_zero (hr k).1 (hr k).2
      have hread : bd2ReadPublic ⟨g, r 0, pt (r 0), peer, X, pt c⟩
          (padded bd1Bufsize (pointBytes g (pt (r k)))) bd2Bufsize =
          .ok ⟨g, r 0, pt (r 0), pt (r k), X, pt c⟩ :=
        bd2ReadPublic_pt hE _ hsize (room hplen (Nat.le_refl bd2Bufsize))
      have hval : bd2MakeVal ⟨g, r 0, pt (r 0), pt (r k), X, pt c⟩ bd2Bufsize =
          .ok (⟨g, r 0, pt (r 0), pt (r k), pt (c - r 0 * r k), pt c⟩,
            pointBytes g (pt (c - r 0 * r k))) :=
        bd2MakeVal_pt hE (hr 0).1 (hr 0).2 hk (by rw [hplen]; decide)
      obtain ⟨peer', X', hrest⟩ := ih (pt (r k)) (pt (c - r 0 * r k))
      refine ⟨peer', X', ?_⟩
      rw [List.map_cons, Bd2Behavior.serve, entry, hread]
      simp only []
      rw [hval]
      simp only []
      rw [hrest]
      rfl

omit hE hplen hr in
theorem points_append (t : List Pkt) (p : Pkt) :
    points ids (t ++ [p]) = points ids t ++
      if p.cmd = cmdBd2NodeZi ∧ p.data.length = bd2Bufsize ∧ p.dest = ids 0 then
        [(p.src, p.data)] else [] := by
  rw [points, List.filter_append, List.map_append, List.filter_singleton]
  refine congrArg _ ?_
  by_cases h : p.cmd = cmdBd2NodeZi ∧ p.data.length = bd2Bufsize ∧ p.dest = ids 0
  · simp [h]
  · rw [if_neg h]
    have : (p.cmd == cmdBd2NodeZi && p.data.length == bd2Bufsize && p.dest == ids 0) =
        false := by
      rw [Bool.eq_false_iff]
      simpa [and_assoc] using h
    rw [this]
    rfl

omit hE hplen hr in
/-- A point that has been given to the chair. -/
theorem Good.point {l : List Pkt} (h : Good g pt ids r c 0 l) {p : Pkt} (hp : p ∈ l)
    (hown : own p.cmd) : ∃ k, k ≠ 0 ∧ p = (ziPacket g pt ids r k).pkt (ids k) := by
  obtain ⟨k, hk, -, o, ho, rfl⟩ := h.known p hp hown
  rw [script, if_neg hk] at ho
  exact ⟨k, hk, by rw [List.mem_singleton.mp ho]⟩

omit hE hplen hr in
theorem entry_lt (hids : ∀ i j, i < j → ids i < ids j) (k l : Fin (m + 1)) (h : k < l) :
    (entry g pt ids r k.succ).1 < (entry g pt ids r l.succ).1 :=
  hids _ _ (Fin.succ_lt_succ_iff.mpr h)

include hids

omit hE hplen hr in
/-- Points of as many nodes as there are others are those of all others. -/
theorem points_full {l : List Pkt} (h : Good g pt ids r c 0 l)
    {q : List (UInt16 × List UInt8)} (hq : q.Pairwise fun a b => a.1 ≤ b.1)
    (hperm : q.Perm (points ids l)) (hlen : q.length = m + 1) :
    q = (List.ofFn Fin.succ).map (entry g pt ids r) ∧
      ∀ k, k ≠ 0 → (ziPacket g pt ids r k).pkt (ids k) ∈ l := by
  have hpkt : ∀ p ∈ l.filter fun p => p.cmd == cmdBd2NodeZi &&
      p.data.length == bd2Bufsize && p.dest == ids 0,
      ∃ k, k ≠ 0 ∧ p = (ziPacket g pt ids r k).pkt (ids k) := by
    intro p hp
    rw [List.mem_filter, Bool.and_eq_true, Bool.and_eq_true, beq_iff_eq] at hp
    exact h.point hp.1 (by rw [hp.2.1.1]; rfl)
  have hnodup : (points ids l).Nodup := by
    refine List.Nodup.map_on ?_ (h.nodup.sublist ?_)
    · intro p hp q hq heq
      obtain ⟨k, -, rfl⟩ := hpkt p hp
      obtain ⟨l, -, rfl⟩ := hpkt q hq
      obtain rfl : k = l := ids_injective hids (congrArg Prod.fst heq)
      rfl
    · refine List.monotone_filter_right l fun p hp => ?_
      rw [Bool.and_eq_true, Bool.and_eq_true, beq_iff_eq] at hp
      rw [hp.1.1]
      rfl
  have hmem : ∀ e ∈ points ids l, ∃ k : Fin (m + 1), e = entry g pt ids r k.succ := by
    intro e he
    obtain ⟨p, hp, rfl⟩ := List.mem_map.mp he
    obtain ⟨k, hk, rfl⟩ := hpkt p hp
    obtain ⟨k, rfl⟩ := Fin.exists_succ_eq.mpr hk
    exact ⟨k, rfl⟩
  have hall := perm_ofFn hnodup hmem (hperm.length_eq.symm.trans hlen)
  refine ⟨?_, fun k hk => ?_⟩
  · rw [queue_eq_ofFn (entry_lt hids) hq (hperm.trans hall), List.map_ofFn]
    rfl
  · obtain ⟨k, rfl⟩ := Fin.exists_succ_eq.mpr hk
    have hk' : entry g pt ids r k.succ ∈ points ids l :=
      hall.mem_iff.mpr (List.mem_ofFn.mpr ⟨k, rfl⟩)
    obtain ⟨p, hp, heq⟩ := List.mem_map.mp hk'
    obtain ⟨l', -, rfl⟩ := hpkt p hp
    obtain rfl : l' = k.succ := ids_injective hids (congrArg Prod.fst heq)
    exact (List.mem_filter.mp hp).1

variable {b : Bd2Behavior} {t : List Pkt} {w : List Outgoing}
  {queue : List (UInt16 × List UInt8)} {peer X : EcpPoint} {p : Pkt}

/-- What the chair does with a packet. -/
theorem ChairAt.recv (h : ChairAt g pt ids r c b t w queue peer X)
    (hgood : Good g pt ids r c 0 (t ++ [p])) :
    (b.chairRecv (ids 0) (Agreement.nodeset ids) queue p).ok = true ∧
    ∃ queue' peer' X', ChairAt g pt ids r c
      (b.chairRecv (ids 0) (Agreement.nodeset ids) queue p).state (t ++ [p])
      (w ++ (b.chairRecv (ids 0) (Agreement.nodeset ids) queue p).wrote)
      queue' peer' X' := by
  have hskip : ¬(p.cmd = cmdBd2NodeZi ∧ p.data.length = bd2Bufsize ∧ p.dest = ids 0) →
      ChairAt g pt ids r c b (t ++ [p]) w queue peer X := by
    intro hp
    refine { h with waits := fun hb => ?_, done := fun hb => ?_ }
    · rw [points_append, if_neg hp, List.append_nil]
      exact h.waits hb
    · obtain ⟨hqueue, hw, hall⟩ := h.done hb
      exact ⟨hqueue, hw, fun k hk => List.mem_append_left _ (hall k hk)⟩
  unfold Bd2Behavior.chairRecv
  split
  · next hlen =>
      rw [List.append_nil]
      exact ⟨rfl, queue, peer, X, hskip fun hc => hlen hc.2.1⟩
  · next hlen =>
      split
      · next hdest =>
          rw [List.append_nil]
          exact ⟨rfl, queue, peer, X, hskip fun hc => hdest hc.2.2⟩
      · next hdest =>
          have hcard : (Agreement.nodeset ids).card - 1 = m + 1 := by
            rw [Agreement.card_nodeset (ids_injective hids)]
            rfl
          obtain ⟨q, hq, hsorted, hwaits, hdone⟩ : ∃ q,
              (if p.cmd = cmdBd2NodeZi then push (p.src, p.data) queue else queue) = q ∧
              (q.Pairwise fun a b => a.1 ≤ b.1) ∧
              (b.completed = false → q.Perm (points ids (t ++ [p])) ∧ q.length ≤ m + 1) ∧
              (b.completed = true → q = []) := by
            refine ⟨_, rfl, ?_⟩
            split
            · next hcmd =>
                refine ⟨push_sorted _ h.sorted, fun hb => ?_, fun hb => ?_⟩
                · obtain ⟨hperm, hlt, -⟩ := h.waits hb
                  refine ⟨(push_perm _ _).trans ((hperm.cons _).trans ?_), ?_⟩
                  · rw [points_append, if_pos ⟨hcmd, not_not.mp hlen, not_not.mp hdest⟩]
                    exact (List.perm_append_singleton _ _).symm
                  · rw [(push_perm _ _).length_eq]
                    exact hlt
                · -- all points have come already, and no node sends two
                  obtain ⟨k, hk, hpk⟩ := hgood.point (p := p) (by simp)
                    (by rw [hcmd]; rfl)
                  have hmem := (h.done hb).2.2 k hk
                  have hnodup := hgood.nodup
                  rw [List.filter_append, List.filter_singleton, hpk] at hnodup
                  exact absurd rfl ((List.nodup_append.mp hnodup).2.2 _
                    (List.mem_filter.mpr ⟨hmem, rfl⟩) _ (List.mem_singleton_self _))
            · next hcmd =>
                refine ⟨h.sorted, fun hb => ?_, fun hb => (h.done hb).1⟩
                obtain ⟨hperm, hlt, -⟩ := h.waits hb
                rw [points_append, if_neg fun hc => hcmd hc.1, List.append_nil]
                exact ⟨hperm, Nat.le_of_lt hlt⟩
          rw [hq, hcard]
          simp only []
          split
          · next hfull =>
              have hb : b.completed = false := by
                rw [Bool.eq_false_iff]
                intro hb
                rw [hdone hb] at hfull
                cases hfull
              obtain ⟨hqueue, hall⟩ :=
                points_full hids hgood hsorted (hwaits hb).1 hfull
              obtain ⟨peer', X', hserve⟩ :=
                serve_entries (c := c) hE hplen hr (List.ofFn Fin.succ) peer X
              rw [hqueue, h.ctx, hserve]
              refine ⟨rfl, [], peer', X', rfl, rfl, h.key, List.Pairwise.nil, ?_, ?_⟩
              · intro hc
                simp only [Bool.or_true] at hc
                cases hc
              · intro _
                refine ⟨rfl, ?_, hall⟩
                simp only []
                rw [(h.waits hb).2.2, script, if_pos rfl, List.map_ofFn]
                rfl
          · next hfull =>
              rw [List.append_nil]
              refine ⟨rfl, q, peer, X, rfl, h.ctx, h.key, hsorted, ?_, ?_⟩
              · intro hb
                obtain ⟨hperm, hle⟩ := hwaits hb
                exact ⟨hperm, by omega, (h.waits hb).2.2⟩
              · intro hb
                obtain ⟨-, hw, hall⟩ := h.done hb
                exact ⟨hdone hb, hw, fun k hk => List.mem_append_left _ (hall k hk)⟩

end Chair

/-! ## A simple node -/

section Simple

variable (hE : g.Exact pt) (hplen : g.plen = 32)
  (hr : ∀ k, 0 < r k ∧ r k < g.N) (hids : ∀ i j, i < j → ids i < ids j)
  {i : Fin (m + 2)} {b : Bd2Behavior} {t : List Pkt} {w : List Outgoing}
  {s drawn : Nat} {p : Pkt}

/-- A packet that is not of the chair is passed over. -/
theorem NodeAt.skip (h : NodeAt g pt ids r c i b t w s drawn)
    (hp : Network.ofNode own ids 0 p = false) (draw : Nat → Nat → Nat) :
    b.nodeRecv (ids 0) draw p = ⟨b, [], true, 0⟩ ∧
    NodeAt g pt ids r c i b (t ++ [p]) w s drawn := by
  constructor
  · unfold Bd2Behavior.nodeRecv
    split
    · rfl
    · split
      · rfl
      · next hsrc =>
          have hown : own p.cmd = false := by
            rw [Bool.eq_false_iff] at hp ⊢
            exact fun hc => hp (Network.ofNode_iff.mpr ⟨hc, not_not.mp hsrc⟩)
          have hcmd : p.cmd ≠ cmdBd2ChairZ0 ∧ p.cmd ≠ cmdBd2ChairXi := by
            constructor <;> intro hc <;> rw [hc] at hown <;> cases hown
          rw [if_neg hcmd.1, if_neg hcmd.2]
  · refine { h with had := ?_ }
    rw [List.filter_append, List.filter_singleton, hp, h.had]
    exact List.append_nil _

/-- What a node had, with one packet more. -/
theorem NodeAt.had_append (h : NodeAt g pt ids r c i b t w s drawn)
    (hp : Network.ofNode own ids 0 p = true)
    (hpre : (t ++ [p]).filter (Network.ofNode own ids 0) <+: fromChair g pt ids r c i) :
    s < 2 ∧ (fromChair g pt ids r c i)[s]? = some p ∧
      (t ++ [p]).filter (Network.ofNode own ids 0) =
        (fromChair g pt ids r c i).take (s + 1) := by
  have hs : s < 2 := by
    have hlen := hpre.length_le
    rw [List.filter_append, List.length_append, h.had, List.filter_singleton, hp] at hlen
    have hle := h.le
    simp only [fromChair, List.length_take, List.length_cons, List.length_nil] at hlen
    simp at hlen
    omega
  rw [List.filter_append, List.filter_singleton, hp, h.had] at hpre ⊢
  obtain ⟨rest, hrest⟩ := hpre
  have hlen : ((fromChair g pt ids r c i).take s).length = s := by
    rw [List.length_take]
    exact Nat.min_eq_left (Nat.le_of_lt hs)
  have hget : (fromChair g pt ids r c i)[s]? = some p := by
    rw [← hrest, List.append_assoc, List.getElem?_append_right (by omega), hlen,
      Nat.sub_self]
    rfl
  refine ⟨hs, hget, ?_⟩
  rw [List.take_add_one, hget]
  rfl

include hE hplen hr

/-- What a simple node does with a packet. -/
theorem NodeAt.recv (h : NodeAt g pt ids r c i b t w s drawn)
    (hgood : Good g pt ids r c i (t ++ [p])) (hi : i ≠ 0) {draw : Nat → Nat → Nat}
    (hdraw : drawn = 0 → g.drawScalar (draw 0) 30 0 = .ok (r i)) (hc : (c : ZMod g.N) ≠ 0) :
    (b.nodeRecv (ids 0) draw p).ok = true ∧
    ∃ s', NodeAt g pt ids r c i (b.nodeRecv (ids 0) draw p).state (t ++ [p])
      (w ++ (b.nodeRecv (ids 0) draw p).wrote) s'
      (drawn + (b.nodeRecv (ids 0) draw p).drawn) := by
  cases hp : Network.ofNode own ids 0 p with
  | false =>
      obtain ⟨heq, h'⟩ := h.skip hp draw
      rw [heq, List.append_nil]
      exact ⟨rfl, s, h'⟩
  | true =>
      obtain ⟨hs, hget, hhad⟩ := h.had_append hp (hgood.chair hi)
      have hne := EcpGroup.Exact.cast_ne_zero (hr 0).1 (hr 0).2
      have hsize : bd1Bufsize = 2 * g.plen + 2 := by rw [hplen]; rfl
      have hbody : ∀ bytes, (padded bd1Bufsize bytes).length = bd2Bufsize :=
        fun bytes => padded_length ..
      unfold Bd2Behavior.nodeRecv
      obtain rfl | rfl : s = 0 ∨ s = 1 := by omega
      · obtain ⟨hctx, rfl, hb, rfl⟩ := h.new rfl
        obtain rfl : (z0Packet g pt r).pkt (ids 0) = p := Option.some.inj hget
        have hread : bd2ReadPublic b.ctx (padded bd1Bufsize (pointBytes g (pt (r 0))))
            bd2Bufsize = .ok ⟨g, 0, ⟨0, 0, 0⟩, pt (r 0), ⟨0, 0, 0⟩, ⟨0, 0, 0⟩⟩ := by
          rw [hctx]
          exact bd2ReadPublic_pt hE _ hsize (room hplen (Nat.le_refl bd2Bufsize))
        simp only [Outgoing.pkt, z0Packet, bufferPacket, hbody, ne_eq, not_true_eq_false,
          if_false, if_true]
        rw [hread]
        simp only []
        rw [bd2MakePublic_pt hE (hdraw rfl) (by rw [hplen]; decide)]
        refine ⟨rfl, 1, h.role, hhad, by omega, ?_, ?_, ?_, fun _ => rfl⟩
        · intro hc
          cases hc
        · exact fun _ => ⟨rfl, hb⟩
        · intro hc
          cases hc
      · obtain ⟨hctx, hb⟩ := h.answered rfl
        obtain rfl : (xiPacket g pt ids r c i).pkt (ids 0) = p := Option.some.inj hget
        have hread : bd2ImportVal b.ctx
            (padded bd1Bufsize (pointBytes g (pt (c - r 0 * r i)))) bd2Bufsize =
            .ok ⟨g, r i, pt (r i), pt (r 0), pt (c - r 0 * r i), ⟨0, 0, 0⟩⟩ := by
          rw [hctx]
          exact bd2ImportVal_pt hE _ hsize (room hplen (Nat.le_refl bd2Bufsize))
        have hkey : (c - r 0 * r i : ZMod g.N) + r i * r 0 = c := by ring
        simp only [Outgoing.pkt, xiPacket, bufferPacket, hbody, ne_eq, not_true_eq_false,
          if_false, if_true]
        rw [if_neg (by decide), hread]
        simp only []
        rw [bd2CalcKey_pt hE (hr i).1 (hr i).2 hne, hkey]
        simp only []
        rw [bd2ExportKey_pt hE hc (by rw [hplen]; decide)]
        refine ⟨rfl, 2, h.role, hhad, by omega, ?_, ?_, fun _ => ⟨rfl, ?_⟩, fun _ => ?_⟩
        · intro hc
          cases hc
        · intro hc
          cases hc
        · have htake := take_memcpy (Nat.zero_le b.key.length) (keyOf g (pt c))
          simpa using htake
        · rw [List.append_nil]
          exact h.wrote (by decide)

end Simple

/-! ## The run of a node -/

section Node

variable (hE : g.Exact pt) (hplen : g.plen = 32)
  (hids : ∀ i j, i < j → ids i < ids j) {draw : Fin (m + 2) → Nat → Nat → Nat}
  (hdraw : ∀ k, g.drawScalar (draw k 0) 30 0 = .ok (r k))
  (hkey : g.drawScalar (draw 0 1) 30 0 = .ok c)
  {i : Fin (m + 2)} {x : Bd2KeyExchange} {t : List Pkt} {w : List Outgoing}

include hE hplen hids hdraw hkey

/-- One packet. -/
theorem Going.recv (h : Going g pt ids r c draw i x t w) {p : Pkt}
    (hgood : Good g pt ids r c i (t ++ [p])) {b : Bd2Behavior}
    (hb : x.behavior = some b) :
    (b.onRecv (ids i) x.draw p).ok = true ∧
    Going g pt ids r c draw i (x.behave (b.onRecv (ids i) x.draw p)) (t ++ [p])
      (w ++ (b.onRecv (ids i) x.draw p).wrote) := by
  have hr : ∀ k, 0 < r k ∧ r k < g.N := fun k => drawScalar_range (hdraw k)
  obtain ⟨b', hb', hchair, hnode⟩ := h.behavior
  obtain rfl : b = b' := Option.some.inj (hb.symm.trans hb')
  by_cases hi : i = 0
  · subst hi
    obtain ⟨queue, peer, X, hat⟩ := hchair rfl
    have hrecv : b.onRecv (ids 0) x.draw p =
        b.chairRecv (ids 0) (Agreement.nodeset ids) queue p := by
      rw [Bd2Behavior.onRecv, hat.role]
    obtain ⟨hok, queue', peer', X', hat'⟩ := hat.recv hE hplen hr hids hgood
    rw [hrecv]
    exact ⟨hok, h.nodes, h.drbg, _, rfl, fun _ => ⟨queue', peer', X', hat'⟩,
      fun hc => absurd rfl hc⟩
  · obtain ⟨s, hat⟩ := hnode hi
    have hrecv : b.onRecv (ids i) x.draw p = b.nodeRecv (ids 0) x.draw p := by
      rw [Bd2Behavior.onRecv, hat.role]
    have hfirst : x.drawn = 0 → g.drawScalar (x.draw 0) 30 0 = .ok (r i) := by
      intro h0
      rw [Bd2KeyExchange.draw, h.drbg, h0]
      exact hdraw i
    obtain ⟨hc0, hc1⟩ := drawScalar_range hkey
    obtain ⟨hok, s', hat'⟩ := hat.recv hE hplen hr hgood hi hfirst
      (EcpGroup.Exact.cast_ne_zero hc0 hc1)
    rw [hrecv]
    exact ⟨hok, h.nodes, h.drbg, _, rfl, fun hc => absurd hc hi, fun _ => ⟨s', hat'⟩⟩

theorem Going.readLoop (h : Going g pt ids r c draw i x t w) {q : List Pkt}
    (hgood : Good g pt ids r c i (t ++ q)) :
    (readLoop (ids i) q x).ok = true ∧
    Going g pt ids r c draw i (readLoop (ids i) q x).state (t ++ q)
      (w ++ (readLoop (ids i) q x).wrote) := by
  induction q generalizing x t w with
  | nil =>
      rw [Bd2KeyExchange.readLoop, List.append_nil, List.append_nil]
      exact ⟨rfl, h⟩
  | cons p q ih =>
      rw [List.append_cons] at hgood ⊢
      obtain ⟨b, hb, -⟩ := h.behavior
      obtain ⟨hok, h'⟩ := h.recv hE hplen hids hdraw hkey hgood.of_append hb
      obtain ⟨hok', h''⟩ := ih h' hgood
      rw [readLoop_some (ids i) p q hb, if_pos hok]
      rw [List.append_assoc w] at h''
      exact ⟨hok', h''⟩

theorem NodeOk.update (h : NodeOk g pt ids r c draw i x t w) {q : List Pkt}
    (hq : Network.Heard own ids (NodeOk g pt ids r c draw) i (t ++ q)) :
    NodeOk g pt ids r c draw i (Bd2KeyExchange.update (ids i) q x).state
      (t ++ (Bd2KeyExchange.update (ids i) q x).taken q)
      (w ++ (Bd2KeyExchange.update (ids i) q x).wrote) := by
  by_cases hrun : x.status = .running
  · have hgoing := h.going (by rw [hrun]; decide)
    obtain ⟨hok, hread⟩ := hgoing.readLoop hE hplen hids hdraw hkey (good_of_heard hids hq)
    obtain ⟨hstatus, -, -, -, hrest⟩ := readLoop_fields (ids i) q x
    have htaken : (Bd2KeyExchange.update (ids i) q x).taken q = q := by
      rw [update_eq (ids i) q hrun, Act.taken, hrest hok]
      exact List.take_length
    rw [htaken, update_eq (ids i) q hrun]
    simp only []
    split
    · next hdone =>
        refine ⟨?_, ?_, fun _ => ⟨hread.nodes, hread.drbg, hread.behavior⟩, ?_⟩
        · intro hc
          cases hc
        · intro hc
          cases hc
        · intro _ b hb
          have hcompleted := hdone.2
          rw [show (readLoop (ids i) q x).state.behavior = some b from hb] at hcompleted
          exact hcompleted
    · rw [hrun] at hstatus
      refine ⟨?_, ?_, fun _ => hread, ?_⟩ <;> intro hc <;> cases hstatus.symm.trans hc
  · rw [update_idle (ids i) q hrun, List.append_nil, Act.taken_of_rest rfl, List.append_nil]
    exact h

omit hE hplen hdraw hkey in
/-- The lowest id is that of the first node. -/
theorem lowestIdNode_nodeset : lowestIdNode (Agreement.nodeset ids) = ids 0 := by
  have hrest : ∀ l : List UInt16, (∀ a ∈ l, ids 0 ≤ a) →
      l.foldl (fun s i => if s.2 = false ∨ s.1 > i then (i, true) else s) (ids 0, true) =
        (ids 0, true) := by
    intro l hl
    induction l with
    | nil => rfl
    | cons a l ih =>
        have ha := hl a List.mem_cons_self
        rw [List.foldl_cons, if_neg]
        · exact ih fun b hb => hl b (List.mem_cons_of_mem a hb)
        · rintro (hc | hc)
          · cases hc
          · exact absurd hc (UInt16.not_lt.mpr ha)
  rw [lowestIdNode, ascending_nodeset hids, List.ofFn_succ, List.foldl_cons,
    if_pos (.inl rfl), hrest]
  intro a ha
  obtain ⟨k, rfl⟩ := List.mem_ofFn.mp ha
  exact UInt16.le_of_lt (hids 0 k.succ (Fin.succ_pos k))

omit hids in
/-- The chair starts with its point and the key. -/
theorem initChair_eq (nodes : Finset UInt16) :
    ∃ b, (Bd2Behavior.new g (.chair nodes [])).initChair (fun j => draw 0 (0 + j)) =
        ⟨b, [z0Packet g pt r], true, 2⟩ ∧
      b.role = .chair nodes [] ∧ b.completed = false ∧
      b.ctx = ⟨g, r 0, pt (r 0), ⟨0, 0, 0⟩, ⟨0, 0, 0⟩, pt c⟩ ∧
      b.key.take b.keylen = keyOf g (pt c) := by
  obtain ⟨hc0, hc1⟩ := drawScalar_range hkey
  simp only [Bd2Behavior.initChair, Bd2Behavior.new, bd2Init]
  rw [bd2MakePublic_pt hE (hdraw 0) (by rw [hplen]; decide)]
  simp only []
  rw [bd2MakeKey_pt hE hkey]
  simp only []
  rw [bd2ExportKey_pt hE (EcpGroup.Exact.cast_ne_zero hc0 hc1) (by rw [hplen]; decide)]
  refine ⟨_, rfl, rfl, rfl, rfl, ?_⟩
  have htake := take_memcpy (Nat.zero_le (List.replicate bd2Bufsize (0 : UInt8)).length)
    (keyOf g (pt c))
  simpa using htake

theorem NodeOk.init (h : NodeOk g pt ids r c draw i x t w) :
    NodeOk g pt ids r c draw i
      (Bd2KeyExchange.init g (ids i) (Agreement.nodeset ids) x).1 t
      (w ++ (Bd2KeyExchange.init g (ids i) (Agreement.nodeset ids) x).2.1) := by
  have hcase := init_cases g (ids i) (Agreement.nodeset ids) x
  generalize Bd2KeyExchange.init g (ids i) (Agreement.nodeset ids) x = a at hcase ⊢
  cases hcase with
  | refused =>
      rw [List.append_nil]
      exact h
  | noDrbg hoff hdrbg =>
      obtain ⟨rfl, -, -⟩ := h.fresh hoff
      cases hdrbg
  | @chair res hoff _ hid hres =>
      obtain ⟨rfl, rfl, rfl⟩ := h.fresh hoff
      rw [lowestIdNode_nodeset hids] at hid
      obtain rfl : i = 0 := ids_injective hids hid
      obtain ⟨b, hinit, hrole, hb, hctx, hbkey⟩ :=
        initChair_eq hE hplen hdraw hkey (Agreement.nodeset ids)
      obtain rfl := hres.symm.trans hinit
      have hat : ChairAt g pt ids r c b [] [z0Packet g pt r] [] ⟨0, 0, 0⟩ ⟨0, 0, 0⟩ :=
        ⟨hrole, hctx, hbkey, List.Pairwise.nil,
          fun _ => ⟨List.Perm.refl _, Nat.succ_pos m, rfl⟩, fun hc => by
            rw [hb] at hc
            cases hc⟩
      refine ⟨?_, ?_, fun _ => ⟨rfl, rfl, b, rfl, fun _ => ⟨_, _, _, hat⟩,
        fun hc => absurd rfl hc⟩, ?_⟩ <;> intro hc <;> cases hc
  | node hoff _ hid =>
      obtain ⟨rfl, rfl, rfl⟩ := h.fresh hoff
      rw [lowestIdNode_nodeset hids] at hid ⊢
      have hat : NodeAt g pt ids r c i (.new g (.node (ids 0))) [] [] 0 0 := {
        role := rfl
        had := rfl
        le := Nat.zero_le 2
        new := fun _ => ⟨rfl, rfl, rfl, rfl⟩
        answered := fun hc => by cases hc
        key := fun hc => by cases hc
        wrote := fun hc => absurd rfl hc }
      refine ⟨?_, ?_, fun _ => ⟨rfl, rfl, _, rfl, fun hc => absurd (congrArg ids hc) hid,
        fun _ => ⟨0, hat⟩⟩, ?_⟩ <;> intro hc <;> cases hc

omit hE hplen hids hdraw hkey in
theorem Going.isChair_iff (h : Going g pt ids r c draw i x t w) :
    (∃ b ∈ x.behavior, ∃ nodes queue, b.role = .chair nodes queue) ↔ i = 0 := by
  obtain ⟨b, hb, hchair, hnode⟩ := h.behavior
  constructor
  · rintro ⟨b', hb', nodes, queue, hrole⟩
    obtain rfl := Option.some.inj (hb.symm.trans hb')
    by_contra hi
    obtain ⟨s, hat⟩ := hnode hi
    cases hrole.symm.trans hat.role
  · intro hi
    obtain ⟨queue, peer, X, hat⟩ := hchair hi
    exact ⟨b, hb, _, _, hat.role⟩

omit hE hplen hids hdraw hkey in
theorem Going.chair_key (h : Going g pt ids r c draw 0 x t w) :
    x.key = keyOf g (pt c) := by
  obtain ⟨b, hb, hchair, -⟩ := h.behavior
  obtain ⟨queue, peer, X, hat⟩ := hchair rfl
  rw [Bd2KeyExchange.key, hb]
  exact hat.key

omit hE hplen hids hdraw hkey in
/-- A simple node that has completed has had both packets of the chair. -/
theorem NodeOk.node_completed (h : NodeOk g pt ids r c draw i x t w) (hi : i ≠ 0)
    (hdone : x.status = .completed) :
    x.key = keyOf g (pt c) ∧
    t.filter (Network.ofNode own ids 0) = fromChair g pt ids r c i := by
  obtain ⟨b, hb, -, hnode⟩ := (h.going (by rw [hdone]; decide)).behavior
  obtain ⟨s, hat⟩ := hnode hi
  have hcompleted := h.completed hdone b hb
  have hs : s = 2 := by
    rcases Nat.lt_or_ge s 1 with hlt | hge
    · have hnot := (hat.new (Nat.lt_one_iff.mp hlt)).2.2.1
      rw [hcompleted] at hnot
      cases hnot
    · by_contra hne
      have hle := hat.le
      have hnot := (hat.answered (by omega)).2
      rw [hcompleted] at hnot
      cases hnot
  refine ⟨?_, ?_⟩
  · rw [Bd2KeyExchange.key, hb]
    exact (hat.key hs).2
  · rw [hat.had, hs]
    rfl

omit hE hplen hids hdraw hkey in
theorem NodeOk.chair_completed (h : NodeOk g pt ids r c draw 0 x t w)
    (hdone : x.status = .completed) : w = script g pt ids r c 0 ∧
      ∀ k, k ≠ 0 → (ziPacket g pt ids r k).pkt (ids k) ∈ t := by
  obtain ⟨b, hb, hchair, -⟩ := (h.going (by rw [hdone]; decide)).behavior
  obtain ⟨queue, peer, X, hat⟩ := hchair rfl
  exact (hat.done (h.completed hdone b hb)).2

omit hE hplen hids hdraw hkey in
theorem NodeOk.ofNew (i : Fin (m + 2)) :
    NodeOk g pt ids r c draw i (.new (some (draw i))) [] [] := by
  refine ⟨fun _ => ⟨rfl, rfl, rfl⟩, ?_, fun hc => absurd rfl hc, ?_⟩ <;> intro hc <;>
    cases hc

end Node

theorem speaks (g : EcpGroup) (ids : Fin (m + 2) → UInt16) :
    Network.Speaks (fun i => bd2KeyExchange g (ids i)) own where
  reads := fun i q k => update_rest (ids i) q k
  init := fun i nodes k => own_init g (ids i) nodes k
  update := fun i q k => own_update (ids i) q k

/-- The nodes with their exchanges after a run. -/
def runOf (g : EcpGroup) (ids : Fin (m + 2) → UInt16)
    (draw : Fin (m + 2) → Nat → Nat → Nat) (acts : List (Network.Action (m + 2))) :
    Network.Net Bd2KeyExchange (m + 2) :=
  Network.run (fun i => bd2KeyExchange g (ids i)) own ids (fun i => .new (some (draw i)))
    acts

/-- Node `i` acts as the chair. -/
def IsChair (x : Bd2KeyExchange) : Prop :=
  ∃ b ∈ x.behavior, ∃ nodes queue, b.role = .chair nodes queue

/-- Over links that lose nothing and keep the order, in every run, of the nodes
that have begun only the one with the lowest id is the chair. A node that has
completed holds the key of the chair. When the chair has completed, every other
node has sent one point, and the chair has sent it one packet, made from that
point. The curve is one with coordinates of 32 bytes. -/
theorem chair_key_agreed (hE : g.Exact pt) (hplen : g.plen = 32)
    (hids : ∀ i j, i < j → ids i < ids j) {draw : Fin (m + 2) → Nat → Nat → Nat}
    (hdraw : ∀ k, g.drawScalar (draw k 0) 30 0 = .ok (r k))
    (hkey : g.drawScalar (draw 0 1) 30 0 = .ok c)
    (acts : List (Network.Action (m + 2))) :
    (∀ i, ((runOf g ids draw acts).node i).state.status ≠ .offline →
      (IsChair ((runOf g ids draw acts).node i).state ↔ i = 0)) ∧
    (∀ i, ((runOf g ids draw acts).node i).state.status = .completed →
      ((runOf g ids draw acts).node i).state.key =
        ((runOf g ids draw acts).node 0).state.key ∧
      ((runOf g ids draw acts).node 0).state.key = keyOf g (pt c)) ∧
    (((runOf g ids draw acts).node 0).state.status = .completed → ∀ k, k ≠ 0 →
      ((runOf g ids draw acts).node k).wrote = [ziPacket g pt ids r k] ∧
      ((runOf g ids draw acts).node 0).wrote.filter
        (fun o => o.cmd == cmdBd2ChairXi && o.dest == ids k) =
        [xiPacket g pt ids r c k]) := by
  obtain ⟨hcarried, hrun⟩ : (runOf g ids draw acts).Carried _ _ _ ∧
      (runOf g ids draw acts).Each (NodeOk g pt ids r c draw) := Network.run_rule
    (speaks g ids) (ids_injective hids) NodeOk.ofNew
    (fun i k t w h => h.init hE hplen hids hdraw hkey)
    (fun i k t w q h hq => h.update hE hplen hids hdraw hkey hq) acts
  refine ⟨fun i hi => ((hrun i).going hi).isChair_iff, fun i hi => ?_, fun h0 k hk => ?_⟩
  · by_cases hi0 : i = 0
    · subst hi0
      exact ⟨rfl, ((hrun 0).going (by rw [hi]; decide)).chair_key⟩
    · obtain ⟨hkeyi, hhad⟩ := (hrun i).node_completed hi0 hi
      have hbegun : ((runOf g ids draw acts).node 0).state.status ≠ .offline := by
        intro hoff
        have hlink := hcarried.link 0 i (Ne.symm hi0)
        rw [((hrun 0).fresh hoff).2.2, List.filterMap_nil, Links.Node.given,
          List.filter_append, hhad] at hlink
        cases hlink
      have hkey0 := ((hrun 0).going hbegun).chair_key
      exact ⟨hkeyi.trans hkey0.symm, hkey0⟩
  · obtain ⟨hw, hall⟩ := (hrun 0).chair_completed h0
    constructor
    · have hbegins := (hrun k).wrote_begins
      rw [script, if_neg hk] at hbegins
      obtain ⟨rest, hrest⟩ := hbegins
      rcases List.append_eq_singleton_iff.mp hrest with ⟨hnil, -⟩ | ⟨hone, -⟩
      · have hlink := hcarried.link k 0 hk
        have hmem : (ziPacket g pt ids r k).pkt (ids k) ∈
            (((runOf g ids draw acts).node 0).given.filter
              (Network.ofNode own ids k)) :=
          List.mem_filter.mpr ⟨List.mem_append_left _ (hall k hk),
            Network.ofNode_iff.mpr ⟨rfl, rfl⟩⟩
        rw [hnil, List.filterMap_nil, List.append_eq_nil_iff] at hlink
        rw [show ((runOf g ids draw acts).node 0).given.filter
          (Network.ofNode own ids k) = [] from hlink.1] at hmem
        exact absurd hmem List.not_mem_nil
      · exact hone
    · obtain ⟨l, rfl⟩ := Fin.exists_succ_eq.mpr hk
      rw [show ((runOf g ids draw acts).node 0).wrote = _ from hw, script, if_pos rfl,
        List.filter_cons_of_neg, filter_xiPackets (l := l)]
      · intro k
        rw [Bool.eq_iff_iff, Bool.and_eq_true, beq_iff_eq, beq_iff_eq, decide_eq_true_iff]
        exact ⟨fun h => Fin.succ_injective _ (ids_injective hids h.2),
          fun h => ⟨rfl, by rw [h]; rfl⟩⟩
      · exact Bool.false_ne_true

end Exact

/-! ## Three nodes -/

/-- Every node starts; the points of the others come to the chair in the order
opposite to that of their ids. -/
def threeRun : List (Network.Action 3) :=
  [.call 0 .init, .call 1 .init, .call 2 .init, .deliver 0 1, .deliver 0 2,
    .call 1 .update, .call 2 .update, .deliver 2 0, .call 0 .update, .deliver 1 0,
    .call 0 .update, .deliver 0 1, .deliver 0 2, .call 1 .update, .call 2 .update]

/-- The scalars 4, 2 and 1, and 5 for the key. -/
def threeDraw (i : Fin 3) (j _ : Nat) : Nat := if j = 0 then Agreement.fourTwoOne i else 5

theorem chair_key_agreed_three :
    ((runOf (m := 1) sevenPoints Agreement.threeIds threeDraw threeRun).node 2).state.key =
      ((runOf (m := 1) sevenPoints Agreement.threeIds threeDraw threeRun).node 0).state.key ∧
    ((runOf (m := 1) sevenPoints Agreement.threeIds threeDraw threeRun).node 0).state.key =
      keyOf sevenPoints (sevenPt (5 : Int)) := by
  have hdraw : ∀ i : Fin 3, sevenPoints.drawScalar (threeDraw i 0) 30 0 =
      .ok (Agreement.fourTwoOne i) := by
    decide
  exact (chair_key_agreed (m := 1) sevenPoints_exact (by decide) (by decide) hdraw
    (by decide : sevenPoints.drawScalar (threeDraw 0 1) 30 0 = .ok 5) threeRun).2.1 2
    (by decide +kernel)

end Chair

end LibSmoke
