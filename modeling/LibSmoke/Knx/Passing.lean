import LibSmoke.Knx.Chain
import LibSmoke.Knx.Network

/-!
# The exchange along a chain over a network

Every node runs `GDH2KeyExchange` at its own pace. Each has one packet to write,
known beforehand: its list, which goes to the next node and from the last one to
all. A node writes it when it has had the packet of the node before, and gets the
key with the packet it waits for, which is that of the last node, or for the last
node that of the one before (`PlaceAt`).

Nothing in a node holds back the broadcast until it has written, and it would end
with the same key. That does not come up: a node that has written had the packet
of the one before, down to the first (`wrote_below`), so that a node with a key is
one of a group that has all written. And as long as a node waits, a packet is under
way or unread, or a node has not started (`quiet_completed`).
-/

namespace LibSmoke

namespace Chain

open Gdh2KeyExchange

variable {m : Nat}

section Place

variable (g : EcpGroup) (pt : ZMod g.N → EcpPoint) (ids : Fin (m + 2) → UInt16)
  (r : Nat → Int)

/-- What node `k` has to write. -/
def script (k : Nat) : Outgoing := valOf ids k (bytesOf g pt r m k)

/-- The same as it comes to the others. -/
def packet (k : Nat) : Pkt := (script g pt ids r k).pkt (idOf ids k)

/-- The packet that gives node `k` the key. -/
def awaited (k : Nat) : Pkt :=
  if k = m + 1 then packet g pt ids r m else packet g pt ids r (m + 1)

/-- Node `k`, which has taken `t` and written `w`. -/
structure PlaceAt (k : Nat) (b : Gdh2Behavior) (t : List Pkt) (w : List Outgoing) :
    Prop where
  behavior : b =
    if awaited g pt ids r k ∈ t then
      behaviorDone ids k ⟨g, r k, (wholePt g pt r m).X, m + 2⟩ (keyOf g (wholePt g pt r m))
    else behaviorAt ids k ⟨g, r k, 0, m + 2⟩
  wrote : w =
    if k = 0 ∨ packet g pt ids r (k - 1) ∈ t then [script g pt ids r k] else []

/-- What can have been given to node `k`. -/
structure Good (k : Nat) (l : List Pkt) : Prop where
  known : ∀ p ∈ l, own p.cmd → k ≠ 0 ∧ p = packet g pt ids r (k - 1) ∨
    k ≠ m + 1 ∧ p = packet g pt ids r (m + 1)
  nodup : (l.filter fun p => own p.cmd).Nodup

/-- What holds of node `i`, which draws from `draw`. -/
structure NodeOk (draw : Nat → Nat → Nat) (i : Fin (m + 2)) (x : Gdh2KeyExchange)
    (t : List Pkt) (w : List Outgoing) : Prop where
  fresh : x.status = .offline → x = .new (some (draw i)) ∧ t = [] ∧ w = []
  noError : x.status ≠ .error
  going : x.status ≠ .offline → ∃ b, x.behavior = some b ∧ PlaceAt g pt ids r i b t w
  running : x.status = .running → awaited g pt ids r i ∉ t
  completed : x.status = .completed → awaited g pt ids r i ∈ t

end Place

variable {g : EcpGroup} {pt : ZMod g.N → EcpPoint} {ids : Fin (m + 2) → UInt16}
  {r : Nat → Int} {k : Nat}

@[simp] theorem idOf_val (i : Fin (m + 2)) : idOf ids i = ids i := by
  rw [idOf, Fin.ofNat_eq_cast, Fin.cast_val_eq_self]

@[simp] theorem packet_src (k : Nat) : (packet g pt ids r k).src = idOf ids k := rfl

@[simp] theorem own_packet (k : Nat) : own (packet g pt ids r k).cmd = true := by
  rw [packet, script, valOf]
  split <;> rfl

theorem packet_inj (hids : ∀ i j, i < j → ids i < ids j) {j : Nat} (hk : k < m + 2)
    (hj : j < m + 2) : packet g pt ids r k = packet g pt ids r j ↔ k = j := by
  refine ⟨fun h => ?_, fun h => h ▸ rfl⟩
  exact (idOf_inj hids hk hj).mp (congrArg Pkt.src h)

theorem own_awaited (k : Nat) : own (awaited g pt ids r k).cmd = true := by
  rw [awaited]
  split <;> exact own_packet _

namespace PlaceAt

variable {b : Gdh2Behavior} {t : List Pkt} {w : List Outgoing}

theorem completed_iff (h : PlaceAt g pt ids r k b t w) :
    b.completed = true ↔ awaited g pt ids r k ∈ t := by
  rw [h.behavior]
  split
  · next hmem => exact iff_of_true rfl hmem
  · next hmem => exact iff_of_false Bool.false_ne_true hmem

theorem wrote_ne_nil (h : PlaceAt g pt ids r k b t w) :
    w ≠ [] ↔ k = 0 ∨ packet g pt ids r (k - 1) ∈ t := by
  rw [h.wrote]
  split
  · next hmem => exact iff_of_true (List.cons_ne_nil _ _) hmem
  · next hmem => exact iff_of_false (not_not.mpr rfl) hmem

/-- Everything but the key does not depend on what has come. -/
theorem fields (h : PlaceAt g pt ids r k b t w) :
    b.inited = true ∧ b.role = roleAt m k ∧ b.net = netAt ids k ∧
    b.tmpbuflen = gdh2Bufsize * (m + 3) ∧ ∃ key, b.ctx = ⟨g, r k, key, m + 2⟩ := by
  rw [h.behavior]
  split <;> exact ⟨rfl, rfl, rfl, rfl, _, rfl⟩

end PlaceAt

/-! ## One packet -/

theorem onRecv_other {b : Gdh2Behavior} {p : Pkt} (hinited : b.inited = true)
    (hown : own p.cmd = false) : b.onRecv p = ⟨b, [], true⟩ := by
  rw [own, Bool.or_eq_false_iff, beq_eq_false_iff_ne, beq_eq_false_iff_ne] at hown
  rw [Gdh2Behavior.onRecv, if_neg (Bool.not_eq_false _ ▸ hinited)]
  cases b.role with
  | first => simp only [Gdh2Behavior.firstRecv, if_neg hown.2, ite_self]
  | last => simp only [Gdh2Behavior.lastRecv, if_neg hown.1, ite_self]
  | simple => simp only [Gdh2Behavior.simpleRecv, if_neg hown.1, if_neg hown.2]

section Exact

variable (hE : g.Exact pt) (hplen : g.plen = 32)
  (hids : ∀ i j, i < j → ids i < ids j) (hsmall : m + 2 ≤ 255)
  {draw : Nat → Nat → Nat} (hdraw : ∀ k < m + 2, g.drawScalar (draw k) 30 0 = .ok (r k))

section Recv

include hE hplen hsmall hdraw

/-- A simple node hands on its list, whether it has the key or not. -/
theorem recv_simple {b : Gdh2Behavior} {t : List Pkt} {w : List Outgoing} (hk : k < m)
    (h : PlaceAt g pt ids r (k + 1) b t w) :
    b.onRecv (packet g pt ids r k) = ⟨b, [script g pt ids r (k + 1)], true⟩ := by
  obtain ⟨hinited, hrole, hnet, hbuf, key, hctx⟩ := h.fields
  have hsimple : b.role = .simple := by
    rw [hrole, roleAt, if_neg (Nat.succ_ne_zero k), if_neg (by omega)]
  have hlen : (bytesOf g pt r m k).length < 2 ^ 16 :=
    bytesOf_length_lt hplen hsmall (by omega)
  have hpkt : packet g pt ids r k =
      ⟨cmdGdh2NodeVal, idOf ids k, idOf ids (k + 1), bytesOf g pt r m k⟩ := by
    rw [packet, script, valOf, if_neg (by omega), valPacket_pkt hlen]
  have hpos : b.net.pos.toNat = k + 2 := by
    rw [hnet]
    exact netAt_pos hsmall (by omega)
  have hsrc : (packet g pt ids r k).src = b.net.prev := by
    rw [hnet, prev_netAt, packet_src]
  have hbyte : 2 * g.plen + 1 < 256 := by
    rw [hplen]
    decide
  have hout : (m + 2 + 1) * (2 * g.plen + 2) ≤ gdh2Bufsize * (m + 3) := by
    rw [hplen, gdh2Bufsize]
    omega
  have hmake : gdh2MakeVal b.ctx b.net.pos.toNat (packet g pt ids r k).data
      (packet g pt ids r k).data.length b.tmpbuflen =
        .ok (b.ctx, bytesOf g pt r m (k + 1)) := by
    obtain ⟨h0, h1⟩ := drawScalar_range (hdraw (k + 1) (by omega))
    have hroom : g.Room (recordsOf g pt (handsOn g r (m + 2) k)).length :=
      handsOn_room (Nat.le_add_left 2 m) (by omega) hbyte
    have hx := product_ne_zero hE hdraw (show k + 1 ≤ m + 2 by omega)
    have hys := message_tail_ne_zero hE hdraw (show k + 1 ≤ m + 2 by omega)
    have hterm := message_tail_length (scalars g r) (k := k + 1)
    have hsucc := message_succ (scalars g r) (Nat.succ_pos k)
    have hcons : message (scalars g r) (k + 1) =
        product (scalars g r) (k + 1) :: (message (scalars g r) (k + 1)).tail := rfl
    have hhere : handsOn g r (m + 2) k = message (scalars g r) (k + 1) :=
      if_neg (show ¬ k + 1 = m + 2 by omega)
    have hnext : handsOn g r (m + 2) (k + 1) = message (scalars g r) (k + 2) :=
      if_neg (show ¬ k + 1 + 1 = m + 2 by omega)
    rw [hhere, hcons] at hroom
    rw [hpos, hpkt, hctx, hbuf, bytesOf, bytesOf, hhere, hnext, hsucc, hcons]
    exact gdh2MakeVal_pt hE h0 h1 (Nat.le_add_left 2 k) (by omega) hx hys hterm hroom
      (Nat.le_trans (Nat.mul_le_mul_right _ (by omega)) hout)
  have hdest : b.net.next = idOf ids (k + 2) := by
    rw [hnet]
    rfl
  rw [Gdh2Behavior.onRecv_simple hinited hsimple (by rw [hpkt]) hsrc hmake, script, valOf,
    if_neg (by omega), hdest]

include hids

/-- One packet. -/
theorem PlaceAt.recv {b : Gdh2Behavior} {t : List Pkt} {w : List Outgoing} (hk : k < m + 2)
    (h : PlaceAt g pt ids r k b t w) {p : Pkt} (hgood : Good g pt ids r k (t ++ [p])) :
    (b.onRecv p).ok = true ∧
    PlaceAt g pt ids r k (b.onRecv p).state (t ++ [p]) (w ++ (b.onRecv p).wrote) := by
  obtain ⟨hinited, -⟩ := h.fields
  cases hown : own p.cmd with
  | false =>
      have hmem {q : Pkt} (hq : own q.cmd = true) : q ∈ t ++ [p] ↔ q ∈ t := by
        rw [List.mem_append, List.mem_singleton, or_iff_left]
        rintro rfl
        rw [hown] at hq
        cases hq
      rw [onRecv_other hinited hown, List.append_nil]
      refine ⟨rfl, ?_, ?_⟩
      · simp only [hmem (own_awaited k)]
        exact h.behavior
      · simp only [hmem (own_packet (k - 1))]
        exact h.wrote
  | true =>
      have hnew : p ∉ t := by
        have hnodup := hgood.nodup
        rw [List.filter_append, List.filter_singleton, hown] at hnodup
        intro hmem
        exact (List.disjoint_of_nodup_append hnodup)
          (List.mem_filter.mpr ⟨hmem, hown⟩) List.mem_cons_self
      have hmem {q : Pkt} : q ∈ t ++ [p] ↔ q ∈ t ∨ q = p := by
        rw [List.mem_append, List.mem_singleton]
      have hlast : packet g pt ids r (m + 1) ≠ packet g pt ids r (k - 1) := by
        rw [Ne, packet_inj hids (by omega) (by omega)]
        omega
      rcases hgood.known p (List.mem_append_right _ List.mem_cons_self) hown with
        ⟨h0, rfl⟩ | ⟨hne, rfl⟩
      · obtain ⟨k, rfl⟩ := Nat.exists_eq_succ_of_ne_zero h0
        rw [Nat.succ_eq_add_one, Nat.add_sub_cancel] at *
        have hw := h.wrote
        rw [Nat.add_sub_cancel, if_neg (by simpa using hnew)] at hw
        by_cases hkm : k = m
        · subst hkm
          have hb := h.behavior
          have hawaited : awaited g pt ids r (k + 1) = packet g pt ids r k := if_pos rfl
          rw [hawaited, if_neg hnew] at hb
          have hrecv := recv_nodeVal hE hplen hids hsmall hdraw (Nat.lt_succ_self k)
          rw [← hb, if_pos rfl, chainContext, if_pos rfl] at hrecv
          rw [show b.onRecv (packet g pt ids r k) = _ from hrecv]
          refine ⟨rfl, ?_, ?_⟩
          · rw [hawaited, if_pos (hmem.mpr (.inr rfl))]
            rfl
          · rw [hw, if_pos (.inr (hmem.mpr (.inr rfl)))]
            rfl
        · have hrecv := recv_simple hE hplen hsmall hdraw (show k < m by omega) h
          have hawaited : awaited g pt ids r (k + 1) = packet g pt ids r (m + 1) :=
            if_neg (by omega)
          rw [hrecv]
          refine ⟨rfl, ?_, ?_⟩
          · have hb := h.behavior
            simp only [hawaited, hmem, or_iff_left hlast] at hb ⊢
            exact hb
          · rw [hw, if_pos (.inr (hmem.mpr (.inr rfl)))]
            rfl
      · have hb := h.behavior
        have hawaited : awaited g pt ids r k = packet g pt ids r (m + 1) := if_neg hne
        rw [hawaited, if_neg hnew] at hb
        have hctx : chainContext g pt r (m + 2) k = ⟨g, r k, 0, m + 2⟩ := by
          rw [chainContext, if_neg (by omega)]
        have hrecv : (behaviorAt ids k (chainContext g pt r (m + 2) k)).onRecv _ = _ :=
          recv_lastVal hE hplen hsmall hdraw (show k < m + 1 by omega)
        rw [hctx, ← hb] at hrecv
        rw [show b.onRecv (packet g pt ids r (m + 1)) = _ from hrecv, List.append_nil]
        refine ⟨rfl, ?_, ?_⟩
        · rw [hawaited, if_pos (hmem.mpr (.inr rfl))]
        · have hw := h.wrote
          simp only [hmem, or_iff_left (Ne.symm hlast)] at hw ⊢
          exact hw

end Recv

/-! ## The run of a node -/

section Node

theorem Good.of_append {l l' : List Pkt} (h : Good g pt ids r k (l ++ l')) :
    Good g pt ids r k l where
  known := fun p hp => h.known p (List.mem_append_left l' hp)
  nodup := h.nodup.sublist ((List.sublist_append_left l l').filter _)

variable {i : Fin (m + 2)} {x : Gdh2KeyExchange} {t : List Pkt} {w : List Outgoing}

theorem NodeOk.wrote_begins (h : NodeOk g pt ids r draw i x t w) :
    w <+: [script g pt ids r i] := by
  by_cases hoff : x.status = .offline
  · rw [(h.fresh hoff).2.2]
    exact List.nil_prefix
  · obtain ⟨b, -, hb⟩ := h.going hoff
    rw [hb.wrote]
    split
    · exact List.prefix_refl _
    · exact List.nil_prefix

theorem NodeOk.ofNew (i : Fin (m + 2)) :
    NodeOk g pt ids r draw i (.new (some (draw i))) [] [] := by
  refine ⟨fun _ => ⟨rfl, rfl, rfl⟩, ?_, fun hc => absurd rfl hc, ?_, ?_⟩ <;> intro hc <;>
    cases hc

/-- The packet of node `k` goes to the next one, or from the last one to all. -/
theorem route_script (hids : ∀ i j, i < j → ids i < ids j) {k j : Fin (m + 2)} {p : Pkt} :
    Network.route ids k j (script g pt ids r k) = some p ↔
      (j.val = k + 1 ∨ k.val = m + 1) ∧ packet g pt ids r k = p := by
  rw [Network.route_eq_some, packet, idOf_val]
  refine and_congr ?_ Iff.rfl
  rw [script, valOf]
  split
  · next hlast => exact iff_of_true (.inl rfl) (.inr hlast)
  · next hlast =>
      have hdest : (valPacket (idOf ids (k + 1)) cmdGdh2NodeVal (bytesOf g pt r m k)).dest =
          idOf ids (k + 1) := rfl
      have hk : k.val + 1 < m + 2 := by omega
      have hne : idOf ids (k + 1) ≠ broadcastAddr := by
        intro h
        have hlt := (idOf_lt_iff hids (Nat.succ_pos (m + 1)) hk).mpr (Nat.succ_pos k)
        rw [h] at hlt
        exact absurd hlt (by rw [UInt16.lt_iff_toNat_lt]; exact Nat.not_lt_zero _)
      have hj : ids j = idOf ids j := (idOf_val j).symm
      rw [hdest, or_iff_right hne, or_iff_left hlast, hj, idOf_inj hids hk j.isLt]
      exact eq_comm

theorem key_of_completed (h : NodeOk g pt ids r draw i x t w) (hi : x.status = .completed) :
    x.key = keyOf g (pt (∏ k ∈ Finset.range (m + 2), (r k : ZMod g.N))) := by
  obtain ⟨b, hb, hplace⟩ := h.going (by rw [hi]; decide)
  have hbehavior := hplace.behavior
  rw [if_pos (h.completed hi)] at hbehavior
  have hkey : Gdh2KeyExchange.key ⟨.completed, ∅, none, some (behaviorDone ids i
      ⟨g, r i, (wholePt g pt r m).X, m + 2⟩ (keyOf g (wholePt g pt r m)))⟩ =
        keyOf g (wholePt g pt r m) := key_behaviorDone ..
  rw [Gdh2KeyExchange.key, ← hbehavior] at hkey
  rw [Gdh2KeyExchange.key, hb]
  exact hkey

variable (hE : g.Exact pt) (hplen : g.plen = 32)
  (hids : ∀ i j, i < j → ids i < ids j) (hsmall : m + 2 ≤ 255)
  (hdraw : ∀ k < m + 2, g.drawScalar (draw k) 30 0 = .ok (r k))

include hids in
theorem good_of_heard {l : List Pkt}
    (h : Network.Heard own ids (NodeOk g pt ids r draw) i l) :
    Good g pt ids r i l := by
  have hscript : ∀ k s t w, NodeOk g pt ids r draw k s t w →
      w <+: (fun k : Fin (m + 2) => [script g pt ids r k]) k :=
    fun k s t w h => h.wrote_begins
  refine ⟨fun p hp hown => ?_, ?_⟩
  · obtain ⟨k, hk, -, o, ho, hpkt, hdest⟩ := Network.heard_script hscript h hp hown
    rw [List.mem_singleton.mp ho] at hpkt hdest
    obtain ⟨hto, hp⟩ := (route_script hids).mp (Network.route_eq_some.mpr ⟨hdest, hpkt⟩)
    rcases hto with hto | hto
    · refine .inl ⟨by omega, ?_⟩
      rw [hto, Nat.add_sub_cancel, hp]
    · refine .inr ⟨fun hc => hk (Fin.ext (hto.trans hc.symm)), ?_⟩
      rw [← hto, hp]
  · refine Network.heard_nodup hscript h fun k hk => ?_
    rw [List.filterMap_cons, List.filterMap_nil]
    split
    · exact List.nodup_nil
    · exact List.nodup_singleton _

include hE hplen hids hsmall hdraw

theorem PlaceAt.readLoop {b : Gdh2Behavior} (hb : x.behavior = some b)
    (h : PlaceAt g pt ids r i b t w) {q : List Pkt} (hgood : Good g pt ids r i (t ++ q)) :
    (readLoop q x).ok = true ∧
    ∃ b', (readLoop q x).state.behavior = some b' ∧
      PlaceAt g pt ids r i b' (t ++ q) (w ++ (readLoop q x).wrote) := by
  induction q generalizing x b t w with
  | nil =>
      rw [Gdh2KeyExchange.readLoop, List.append_nil, List.append_nil]
      exact ⟨rfl, b, hb, h⟩
  | cons p q ih =>
      rw [List.append_cons] at hgood ⊢
      obtain ⟨hok, h'⟩ := h.recv hE hplen hids hsmall hdraw i.isLt hgood.of_append
      obtain ⟨hok', h''⟩ := ih (x := { x with behavior := some (b.onRecv p).state }) rfl h' hgood
      rw [readLoop_some p q hb, if_pos hok]
      rw [List.append_assoc w] at h''
      exact ⟨hok', h''⟩

theorem NodeOk.update (h : NodeOk g pt ids r draw i x t w) {q : List Pkt}
    (hq : Network.Heard own ids (NodeOk g pt ids r draw) i (t ++ q)) :
    NodeOk g pt ids r draw i (Gdh2KeyExchange.update q x).state
      (t ++ (Gdh2KeyExchange.update q x).taken q)
      (w ++ (Gdh2KeyExchange.update q x).wrote) := by
  by_cases hrun : x.status = .running
  · obtain ⟨b, hb, hplace⟩ := h.going (by rw [hrun]; decide)
    obtain ⟨hok, b', hb', hplace'⟩ :=
      hplace.readLoop hE hplen hids hsmall hdraw hb (good_of_heard hids hq)
    obtain ⟨hstatus, -, hrest⟩ := readLoop_fields q x
    have htaken : (Gdh2KeyExchange.update q x).taken q = q := by
      rw [update_eq q hrun, Act.taken, hrest hok]
      exact List.take_length
    rw [htaken, update_eq q hrun, hb', hok]
    simp only [Option.map_some, Option.getD_some, true_and]
    split
    · next hdone =>
        refine ⟨?_, ?_, fun _ => ⟨b', hb', hplace'⟩, ?_,
          fun _ => hplace'.completed_iff.mp hdone⟩ <;> intro hc <;> cases hc
    · next hdone =>
        rw [hrun] at hstatus
        refine ⟨?_, ?_, fun _ => ⟨b', hb', hplace'⟩,
          fun _ => fun hc => hdone (hplace'.completed_iff.mpr hc), ?_⟩ <;>
          intro hc <;> cases hstatus.symm.trans hc
  · rw [update_idle q hrun, List.append_nil, Act.taken_of_rest rfl, List.append_nil]
    exact h

/-- A node that waits does not fail, whatever it is given. -/
theorem NodeOk.goes (h : NodeOk g pt ids r draw i x t w) {q : List Pkt}
    (hq : Network.Heard own ids (NodeOk g pt ids r draw) i (t ++ q))
    (hrun : x.status = .running) : (Gdh2KeyExchange.update q x).ok = true ∧
    (Gdh2KeyExchange.update q x).state.status ≠ .offline := by
  obtain ⟨b, hb, hplace⟩ := h.going (by rw [hrun]; decide)
  obtain ⟨hok, -⟩ := hplace.readLoop hE hplen hids hsmall hdraw hb (good_of_heard hids hq)
  refine ⟨by rw [update_eq q hrun]; exact hok, update_ne_offline q ?_⟩
  rw [hrun]
  decide

theorem NodeOk.init (h : NodeOk g pt ids r draw i x t w) :
    NodeOk g pt ids r draw i
      (Gdh2KeyExchange.init g (ids i) (Agreement.nodeset ids) x).1 t
      (w ++ (Gdh2KeyExchange.init g (ids i) (Agreement.nodeset ids) x).2.1) := by
  by_cases hoff : x.status = .offline
  · obtain ⟨rfl, rfl, rfl⟩ := h.fresh hoff
    have hstart := start_eq hE hplen hids hdraw hsmall i.isLt
    rw [start, idOf_val] at hstart
    rw [hstart]
    refine ⟨?_, ?_, fun _ => ⟨_, rfl, ?_, ?_⟩, fun _ => List.not_mem_nil, ?_⟩
    · intro hc
      cases hc
    · intro hc
      cases hc
    · rw [if_neg List.not_mem_nil]
    · simp only [List.not_mem_nil, or_false, List.nil_append]
      split
      · next h0 => rw [h0]; rfl
      · rfl
    · intro hc
      cases hc
  · rw [Gdh2KeyExchange.init, if_pos hoff, List.append_nil]
    exact h

end Node

/-! ## The run of the network -/

theorem speaks (g : EcpGroup) (ids : Fin (m + 2) → UInt16) :
    Network.Speaks (fun i => gdh2KeyExchange g (ids i)) own where
  reads := fun _ q k => update_rest q k
  init := fun i nodes k => own_init g (ids i) nodes k
  update := fun _ q k => own_update q k

/-- The nodes with their exchanges after a run. -/
def runOf (g : EcpGroup) (ids : Fin (m + 2) → UInt16) (draw : Nat → Nat → Nat)
    (acts : List (Network.Action (m + 2))) : Network.Net Gdh2KeyExchange (m + 2) :=
  Network.run (fun i => gdh2KeyExchange g (ids i)) own ids
    (fun i => .new (some (draw i))) acts

section Net

variable {b : Network.Net Gdh2KeyExchange (m + 2)}
  (hcarried : b.Carried (Network.route ids) (Network.ofNode own ids) (Network.spare own))
  (heach : b.Each (NodeOk g pt ids r draw))

include hcarried in
/-- What a node has taken of another one, that one has written. -/
theorem wrote_of_taken {k j : Fin (m + 2)} (hkj : k ≠ j)
    (h : packet g pt ids r k ∈ (b.node j).taken) : (b.node k).wrote ≠ [] := by
  intro hnil
  have hlink := hcarried.link k j hkj
  rw [hnil, List.filterMap_nil, List.append_eq_nil_iff, List.filter_eq_nil_iff] at hlink
  refine hlink.1 _ (List.mem_append_left _ h) (Network.ofNode_iff.mpr ⟨own_packet _, ?_⟩)
  rw [packet_src, idOf_val]

include hcarried hids in
/-- When nothing is under way, what a node has written has been given to those it
is for. -/
theorem given_of_wrote {k j : Fin (m + 2)} (hkj : k ≠ j) (hchan : b.chan k j = [])
    (hwrote : (b.node k).wrote = [script g pt ids r k])
    (hto : j.val = k + 1 ∨ k.val = m + 1) : packet g pt ids r k ∈ (b.node j).given := by
  have hlink := hcarried.link k j hkj
  have hroute := (route_script (g := g) (r := r) hids).mpr
    ⟨hto, (rfl : packet g pt ids r k = packet g pt ids r k)⟩
  rw [hwrote, hchan, List.append_nil, List.filterMap_cons_some hroute, List.filterMap_nil]
    at hlink
  refine List.mem_of_mem_filter (p := Network.ofNode own ids k) ?_
  rw [hlink]
  exact List.mem_cons_self

include heach in
theorem wrote_eq {k : Fin (m + 2)} (h : (b.node k).wrote ≠ []) :
    (b.node k).wrote = [script g pt ids r k] := by
  obtain ⟨rest, hrest⟩ := (heach k).wrote_begins
  rcases List.append_eq_singleton_iff.mp hrest with ⟨hnil, -⟩ | ⟨hone, -⟩
  · exact absurd hnil h
  · exact hone

include hcarried heach

/-- A node that has written had the packet of the one before, down to the first. -/
theorem wrote_below {k : Fin (m + 2)} (h : (b.node k).wrote ≠ []) {j : Fin (m + 2)}
    (hj : j ≤ k) : (b.node j).wrote ≠ [] := by
  obtain ⟨k, hk⟩ := k
  induction k with
  | zero =>
      obtain rfl : j = ⟨0, hk⟩ := Fin.ext (Nat.le_zero.mp hj)
      exact h
  | succ k ih =>
      rcases Nat.lt_or_eq_of_le (show j.val ≤ k + 1 from hj) with hlt | heq
      · refine ih (Nat.lt_of_succ_lt hk) ?_ (Nat.le_of_lt_succ hlt)
        have hoff : (b.node ⟨k + 1, hk⟩).state.status ≠ .offline := fun hoff =>
          h ((heach _).fresh hoff).2.2
        obtain ⟨_, -, hplace⟩ := (heach _).going hoff
        refine wrote_of_taken hcarried (j := ⟨k + 1, hk⟩) ?_
          ((hplace.wrote_ne_nil.mp h).resolve_left (Nat.succ_ne_zero k))
        exact Fin.ne_of_lt (Fin.mk_lt_mk.mpr (Nat.lt_succ_self k))
      · obtain rfl : j = ⟨k + 1, hk⟩ := Fin.ext heq
        exact h

/-- A node with a key is one of a group that has all written. -/
theorem wrote_of_completed {i : Fin (m + 2)}
    (h : (b.node i).state.status = .completed) (k : Fin (m + 2)) :
    (b.node k).wrote = [script g pt ids r k] := by
  refine wrote_eq heach (wrote_below hcarried heach (k := Fin.last (m + 1)) ?_ (Fin.le_last k))
  have hawaited := (heach i).completed h
  obtain ⟨_, -, hplace⟩ := (heach i).going (by rw [h]; decide)
  by_cases hi : i.val = m + 1
  · obtain rfl : i = Fin.last (m + 1) := Fin.ext hi
    rw [awaited, if_pos hi] at hawaited
    exact hplace.wrote_ne_nil.mpr (.inr hawaited)
  · rw [awaited, if_neg hi] at hawaited
    exact wrote_of_taken hcarried (k := Fin.last (m + 1)) (fun hc => hi (by rw [← hc]; rfl))
      hawaited

include hids

/-- When nothing is left to do, every node has written. -/
theorem quiet_wrote (hquiet : Network.Quiet Gdh2KeyExchange.status b) (k : Fin (m + 2)) :
    (b.node k).wrote = [script g pt ids r k] := by
  obtain ⟨k, hk⟩ := k
  induction k with
  | zero =>
      obtain ⟨_, -, hplace⟩ := (heach _).going (hquiet.started ⟨0, hk⟩)
      exact wrote_eq heach (hplace.wrote_ne_nil.mpr (.inl rfl))
  | succ k ih =>
      cases hstatus : (b.node ⟨k + 1, hk⟩).state.status with
      | completed => exact wrote_of_completed hcarried heach hstatus _
      | offline => exact absurd hstatus (hquiet.started _)
      | error => exact absurd hstatus (heach _).noError
      | running =>
          obtain ⟨_, -, hplace⟩ := (heach _).going (hquiet.started ⟨k + 1, hk⟩)
          have hgiven := given_of_wrote hids hcarried (j := ⟨k + 1, hk⟩)
            (Fin.ne_of_lt (Fin.mk_lt_mk.mpr (Nat.lt_succ_self k)))
            ((hquiet.read _ hstatus).2 _) (ih (Nat.lt_of_succ_lt hk)) (.inl rfl)
          rw [Links.Node.given, (hquiet.read _ hstatus).1, List.append_nil] at hgiven
          exact wrote_eq heach (hplace.wrote_ne_nil.mpr (.inr hgiven))

theorem quiet_completed (hquiet : Network.Quiet Gdh2KeyExchange.status b) (i : Fin (m + 2)) :
    (b.node i).state.status = .completed := by
  cases hstatus : (b.node i).state.status with
  | completed => rfl
  | offline => exact absurd hstatus (hquiet.started i)
  | error => exact absurd hstatus (heach i).noError
  | running =>
      refine absurd ?_ ((heach i).running hstatus)
      have hall := quiet_wrote hids hcarried heach hquiet
      obtain ⟨hinQ, hchan⟩ := hquiet.read i hstatus
      have hread {p : Pkt} (hp : p ∈ (b.node i).given) : p ∈ (b.node i).taken := by
        rwa [Links.Node.given, hinQ, List.append_nil] at hp
      rw [awaited]
      split
      · next hi =>
          have hm : m < m + 2 := by omega
          exact hread (given_of_wrote hids hcarried (k := ⟨m, hm⟩)
            (fun hc => by rw [← hc] at hi; exact absurd hi (Nat.ne_of_lt (Nat.lt_succ_self m)))
            (hchan _) (hall ⟨m, hm⟩) (.inl hi))
      · next hi =>
          exact hread (given_of_wrote hids hcarried (k := Fin.last (m + 1))
            (fun hc => hi (by rw [← hc]; rfl)) (hchan _) (hall _) (.inr rfl))

end Net

include hE hplen hids hsmall hdraw

theorem run_each (acts : List (Network.Action (m + 2))) :
    (runOf g ids draw acts).Carried (Network.route ids) (Network.ofNode own ids)
      (Network.spare own) ∧
    (runOf g ids draw acts).Each (NodeOk g pt ids r draw) :=
  Network.run_rule (speaks g ids) (ids_injective hids) NodeOk.ofNew
    (fun _ _ _ _ h => h.init hE hplen hids hsmall hdraw)
    (fun _ _ _ _ _ h hq => h.update hE hplen hids hsmall hdraw hq) acts

/-- Over links that lose nothing and keep the order, in every run: no node fails; a
node that has completed holds the key of the product of all scalars, and each node
of the group has then written its one packet; and when nothing is left to do, all
have completed. Up to 255 nodes, on a curve with coordinates of 32 bytes. -/
theorem chain_key_agreed (acts : List (Network.Action (m + 2))) :
    (∀ i, ((runOf g ids draw acts).node i).state.status ≠ .error) ∧
    (∀ i, ((runOf g ids draw acts).node i).state.status = .completed →
      ((runOf g ids draw acts).node i).state.key =
        keyOf g (pt (∏ k ∈ Finset.range (m + 2), (r k : ZMod g.N))) ∧
      ∀ k : Fin (m + 2), ((runOf g ids draw acts).node k).wrote =
        [valOf ids k (bytesOf g pt r m k)]) ∧
    (Network.Quiet Gdh2KeyExchange.status (runOf g ids draw acts) →
      ∀ i, ((runOf g ids draw acts).node i).state.status = .completed) := by
  obtain ⟨hcarried, heach⟩ := run_each hE hplen hids hsmall hdraw acts
  exact ⟨fun i => (heach i).noError,
    fun i hi => ⟨key_of_completed (heach i) hi, wrote_of_completed hcarried heach hi⟩,
    quiet_completed hids hcarried heach⟩

end Exact

/-! ## Three nodes -/

local instance (priority := 2001) three_neZero : @NeZero Nat Zero.ofOfNat0 3 := neZero_three

/-- The packet of the first node comes to the second one before that has started,
and the broadcast to the first node before it comes to the second. -/
def threeRun : List (Network.Action 3) :=
  [.call 0 .init, .deliver 0 1, .call 2 .init, .call 1 .init, .call 1 .update,
    .deliver 1 2, .call 2 .update, .deliver 2 0, .call 0 .update, .deliver 2 1,
    .call 1 .update]

theorem threeRun_quiet :
    Network.Quiet Gdh2KeyExchange.status (runOf (m := 1) sevenPoints Agreement.threeIds
      (fun k _ => [4, 2, 1].getD k 0) threeRun) :=
  ⟨by decide +kernel, by decide +kernel⟩

theorem chain_key_agreed_three :
    (List.finRange 3).map (fun i => ((runOf (m := 1) sevenPoints Agreement.threeIds
      (fun k _ => [4, 2, 1].getD k 0) threeRun).node i).state.key) =
      List.replicate 3 (keyOf sevenPoints (sevenPt 1)) := by
  have hdraw : ∀ k < 3, sevenPoints.drawScalar (fun _ => [4, 2, 1].getD k 0) 30 0 =
      .ok ([4, 2, 1].getD k 0) := by
    decide
  obtain ⟨-, hkey, hdone⟩ := chain_key_agreed (m := 1) sevenPoints_exact (by decide)
    (show ∀ i j, i < j → Agreement.threeIds i < Agreement.threeIds j by decide) (by decide)
    hdraw threeRun
  refine List.eq_replicate_iff.mpr ⟨rfl, fun key hmem => ?_⟩
  obtain ⟨i, -, rfl⟩ := List.mem_map.mp hmem
  rw [(hkey i (hdone threeRun_quiet i)).1]
  congr 2

end Chain

end LibSmoke
