import LibSmoke.Knx.Chair
import LibSmoke.Knx.Cycle
import LibSmoke.Knx.Steps

/-!
# The exchanges come to their end

A node that has not completed waits for a packet. For each exchange it can be read
off what the node has taken and written which one: in the ring the point of a
neighbour or some difference, with the chair the point of some node or one of the two
packets of the chair, in `MKAKeyExchange` the packet of some node for this step. When
every node has started and those that wait have read all that was written for them,
there is no such packet: what each waits for has been written (`ring_completes`,
`chair_completes`), or by one that is further behind still (`mesh_completes`).

A node can fail in the ring and in the mesh, for a scalar that comes out as zero. The
others then wait for ever.
-/

namespace LibSmoke

namespace Cycle

open Bd1KeyExchange

local instance (priority := 2000) cycle_neZero (m : Nat) : @NeZero Nat Zero.ofOfNat0 (m + 2) :=
  neZero_add_two m

/-- A bit that is set stays set. -/
theorem or_and_ne_zero {a c : UInt8} (b : UInt8) (h : a &&& c ≠ 0) : (a ||| b) &&& c ≠ 0 := by
  have hdistrib : (a ||| b) &&& c = (a &&& c) ||| (b &&& c) := by
    rw [← UInt8.toBitVec_inj]
    exact BitVec.and_or_distrib_right
  rw [hdistrib, Ne, UInt8.or_eq_zero_iff]
  exact fun hzero => h hzero.1

theorem place_recvZcnt (p : Pkt) (x : Bd1KeyExchange) :
    ∃ b, (place p x).recvZcnt = x.recvZcnt ||| b := by
  by_cases hdata : p.data.length = bd1Bufsize
  · by_cases hcmd : p.cmd = cmdBd1Zi
    · exact ⟨_, by rw [(place_point hdata hcmd).2, UInt8.or_assoc]⟩
    · refine ⟨0, ?_⟩
      rw [place, if_neg (not_not.mpr hdata), if_neg hcmd, UInt8.or_zero]
      split <;> rfl
  · exact ⟨0, by rw [place, if_pos hdata, UInt8.or_zero]⟩

theorem around_ne {m : Nat} (i : Fin (m + 2)) {j : Nat} (h0 : 0 < j) (hj : j < m + 2) :
    around i j ≠ i := by
  intro hc
  have hval := congrArg Fin.val hc
  rw [around_val] at hval
  rcases Nat.lt_or_ge (i.val + j) (m + 2) with hlt | hge
  · rw [Nat.mod_eq_of_lt hlt] at hval
    omega
  · rw [Nat.mod_eq_sub_mod hge, Nat.mod_eq_of_lt (by omega)] at hval
    omega

section Exact

variable {g : EcpGroup} {pt : ZMod g.N → EcpPoint} {m : Nat}
  {ids : Fin (m + 2) → UInt16} {r : Fin (m + 2) → Int}
  {draw : Fin (m + 2) → Nat → Nat} {i : Fin (m + 2)}
  {x : Bd1KeyExchange} {t : List Pkt} {w : List Outgoing}

/-- The point of node `k` as it comes to the others. -/
def zPkt (g : EcpGroup) (pt : ZMod g.N → EcpPoint) (ids : Fin (m + 2) → UInt16)
    (r : Fin (m + 2) → Int) (k : Fin (m + 2)) : Pkt := (zPacket g pt r k).pkt (ids k)

/-- The points of the neighbours among `t` are counted. -/
structure Counted (g : EcpGroup) (pt : ZMod g.N → EcpPoint) (ids : Fin (m + 2) → UInt16)
    (r : Fin (m + 2) → Int) (i : Fin (m + 2)) (x : Bd1KeyExchange) (t : List Pkt) : Prop where
  prevId : x.prev = ids (around i (m + 1))
  nextId : x.next = ids (around i 1)
  prev : zPkt g pt ids r (around i (m + 1)) ∈ t → x.recvZcnt &&& 5 ≠ 0
  next : zPkt g pt ids r (around i 1) ∈ t → x.recvZcnt &&& 6 ≠ 0

/-- What a call leaves of an exchange. -/
structure Settled (g : EcpGroup) (pt : ZMod g.N → EcpPoint) (ids : Fin (m + 2) → UInt16)
    (r : Fin (m + 2) → Int) (i : Fin (m + 2)) (x : Bd1KeyExchange) (t : List Pkt)
    (w : List Outgoing) : Prop where
  counted : x.status = .running → Counted g pt ids r i x t
  waits : x.status = .running → x.recvZcnt ≠ 3 ∧ x.xKeys.length ≠ m + 2
  completed : x.status = .completed → w = script g pt r i

theorem Counted.place (h : Counted g pt ids r i x t) (p : Pkt) :
    Counted g pt ids r i (place p x) (t ++ [p]) := by
  obtain ⟨-, -, -, hprev, hnext, -⟩ := place_fields (p := p) (m := x)
  obtain ⟨b, hb⟩ := place_recvZcnt p x
  have hpoint (k : Fin (m + 2)) (hp : zPkt g pt ids r k = p) :
      (Bd1KeyExchange.place p x).recvZcnt =
        (x.recvZcnt ||| if ids k = x.prev then 1 else 0) |||
          if ids k = x.next then 2 else 0 := by
    subst hp
    exact (place_point (by simp [zPkt, zPacket, Outgoing.pkt, bufferPacket, bd1Bufsize]) rfl).2
  refine ⟨hprev.trans h.prevId, hnext.trans h.nextId, fun hmem => ?_, fun hmem => ?_⟩
  · rcases List.mem_append.mp hmem with hmem | hmem
    · rw [hb]
      exact or_and_ne_zero b (h.prev hmem)
    · rw [hpoint _ (List.mem_singleton.mp hmem), if_pos h.prevId.symm]
      refine or_and_ne_zero _ ?_
      rw [UInt8.or_comm]
      exact or_and_ne_zero _ (by decide)
  · rcases List.mem_append.mp hmem with hmem | hmem
    · rw [hb]
      exact or_and_ne_zero b (h.next hmem)
    · rw [hpoint _ (List.mem_singleton.mp hmem), if_pos h.nextId.symm, UInt8.or_comm]
      exact or_and_ne_zero _ (by decide)

/-- The own difference is sent when both points are counted. -/
theorem Counted.ownValue (h : Counted g pt ids r i x t) {x' : Bd1KeyExchange}
    {w' : List Outgoing} (hown : Own (ids i) x (x', w', true)) :
    Counted g pt ids r i x' t ∧ x'.recvZcnt ≠ 3 := by
  cases hown with
  | none h3 => exact ⟨h, h3⟩
  | sent =>
      refine ⟨⟨h.prevId, h.nextId, fun _ => ?_, fun _ => ?_⟩, ?_⟩
      · exact (by decide : (4 : UInt8) &&& 5 ≠ 0)
      · exact (by decide : (4 : UInt8) &&& 6 ≠ 0)
      · exact (by decide : (4 : UInt8) ≠ 3)

section Call

variable (hE : g.Exact pt) (hplen : g.plen = 32) (hids : ∀ i j, i < j → ids i < ids j)
  (hdraw : ∀ k, g.drawScalar (draw k) 30 0 = .ok (r k))

include hids

theorem Settled.init (hsettled : Settled g pt ids r i x t w)
    (h : NodeOk g pt ids r draw i x t w) :
    Settled g pt ids r i (Bd1KeyExchange.init g (ids i) (Agreement.nodeset ids) x).1 t
      (w ++ (Bd1KeyExchange.init g (ids i) (Agreement.nodeset ids) x).2.1) := by
  rcases init_cases g (ids i) (Agreement.nodeset ids) x with
    heq | ⟨herr, heq⟩ | ⟨d, ctx, mykey, hoff, -, -, -, -, heq⟩
  · rw [heq, List.append_nil]
    exact hsettled
  · refine ⟨?_, ?_, ?_⟩ <;> intro hs <;> cases herr.symm.trans hs
  · obtain ⟨rfl, rfl, rfl⟩ := h.fresh hoff
    rw [heq, NetworkT.of_ids hids]
    refine ⟨fun _ => ⟨rfl, rfl, ?_, ?_⟩, fun _ => ⟨?_, ?_⟩, ?_⟩
    · exact fun hmem => absurd hmem List.not_mem_nil
    · exact fun hmem => absurd hmem List.not_mem_nil
    · exact (by decide : (0 : UInt8) ≠ 3)
    · exact (Nat.succ_ne_zero (m + 1)).symm
    · intro hs
      cases hs

include hE hplen hdraw

theorem Settled.update (hsettled : Settled g pt ids r i x t w)
    (h : NodeOk g pt ids r draw i x t w) {q : List Pkt}
    (hq : Network.Heard Bd1KeyExchange.own ids (NodeOk g pt ids r draw) i (t ++ q)) :
    Settled g pt ids r i (Bd1KeyExchange.update (ids i) q x).state
      (t ++ (Bd1KeyExchange.update (ids i) q x).taken q)
      (w ++ (Bd1KeyExchange.update (ids i) q x).wrote) := by
  have hr : ∀ k, 0 < r k ∧ r k < g.N := fun k => drawScalar_range (hdraw k)
  obtain ⟨hother, hnodup⟩ := heard_fromOther hq
  by_cases hrun : x.status = .running
  · obtain ⟨prev, next, sent, h⟩ := h.running hrun
    obtain ⟨prev', next', hread⟩ := h.readLoop hE hplen hr hids
      fun p hp => hother p (List.mem_append_right t hp)
    have hcounted : Counted g pt ids r i (Bd1KeyExchange.readLoop q x).1
        (t ++ q.take (q.length - (Bd1KeyExchange.readLoop q x).2.length)) :=
      readLoop_rule (I := fun t x => Counted g pt ids r i x t) (C := fun _ => True)
        (fun t x p h _ _ => h.place p) (fun _ _ => trivial) (hsettled.counted hrun)
    have hcase := update_cases (ids i) q hrun
    have htaken : (Bd1KeyExchange.update (ids i) q x).taken q =
        q.take (q.length - (Bd1KeyExchange.readLoop q x).2.length) := by
      rw [Act.taken, hcase.rest_eq]
    have hsub : t ++ q.take (q.length - (Bd1KeyExchange.readLoop q x).2.length) <+:
        t ++ q := (List.prefix_append_right_inj t).mpr (List.take_prefix _ q)
    rw [htaken]
    generalize q.take (q.length - (Bd1KeyExchange.readLoop q x).2.length) = took,
      (Bd1KeyExchange.readLoop q x).1 = y, (Bd1KeyExchange.readLoop q x).2 = rest,
      Bd1KeyExchange.update (ids i) q x = a at hread hcounted hcase hsub ⊢
    cases hcase with
    | noValue => refine ⟨?_, ?_, ?_⟩ <;> intro hs <;> cases hs
    | noKey => refine ⟨?_, ?_, ?_⟩ <;> intro hs <;> cases hs
    | wait hown hlen =>
        obtain ⟨_, _, _, h'⟩ := hread.ownValue hE hplen hr hown
        obtain ⟨hcounted', h3⟩ := hcounted.ownValue hown
        rw [h'.nodes, Agreement.card_nodeset (ids_injective hids)] at hlen
        refine ⟨fun _ => hcounted', fun _ => ⟨h3, hlen⟩, fun hs => ?_⟩
        cases h'.status.symm.trans hs
    | done hown hlen =>
        obtain ⟨_, _, sent', h'⟩ := hread.ownValue hE hplen hr hown
        rw [h'.nodes, Agreement.card_nodeset (ids_injective hids)] at hlen
        obtain ⟨rfl, -⟩ := h'.full hids (fun p hp => hother p (hsub.subset hp))
          (hnodup.sublist (hsub.sublist.filter _)) hlen
        refine ⟨?_, ?_, fun _ => h'.wrote⟩ <;> intro hs <;> cases hs
  · rw [update_idle (ids i) q hrun, List.append_nil, Act.taken_of_rest rfl, List.append_nil]
    exact hsettled

theorem run_each (acts : List (Network.Action (m + 2))) :
    (runOf g ids draw acts).Carried (Network.route ids)
      (Network.ofNode Bd1KeyExchange.own ids) (Network.spare Bd1KeyExchange.own) ∧
    (runOf g ids draw acts).Each fun i x t w =>
      NodeOk g pt ids r draw i x t w ∧ Settled g pt ids r i x t w := by
  have hr : ∀ k, 0 < r k ∧ r k < g.N := fun k => drawScalar_range (hdraw k)
  have hnew (i : Fin (m + 2)) : Settled g pt ids r i (.new g (some (draw i))) [] [] := by
    refine ⟨?_, ?_, ?_⟩ <;> intro hs <;> cases hs
  refine Network.run_rule (speaks g ids) (ids_injective hids)
    (fun i => ⟨NodeOk.ofNew i, hnew i⟩) ?_ ?_ acts
  · rintro i k t w ⟨h, hsettled⟩
    exact ⟨h.init hE hplen hids hdraw, hsettled.init hids h⟩
  · rintro i k t w q ⟨h, hsettled⟩ hq
    have hq' := hq.mono fun _ _ _ _ hP => hP.1
    exact ⟨h.update hE hplen hr hids hq', hsettled.update hE hplen hids hdraw h hq'⟩

end Call

/-! ## Nothing left to do -/

section Quiet

variable {b : Network.Net Bd1KeyExchange (m + 2)}
  (hcarried : b.Carried (Network.route ids) (Network.ofNode Bd1KeyExchange.own ids)
    (Network.spare Bd1KeyExchange.own))
  (heach : b.Each fun i x t w => NodeOk g pt ids r draw i x t w ∧ Settled g pt ids r i x t w)
  (hquiet : Network.Quiet Bd1KeyExchange.status b)
  (herror : ∀ i, (b.node i).state.status ≠ .error)

include hquiet herror in
theorem completed_or_running (i : Fin (m + 2)) :
    (b.node i).state.status = .completed ∨ (b.node i).state.status = .running := by
  cases hstatus : (b.node i).state.status with
  | offline => exact absurd hstatus (hquiet.started i)
  | error => exact absurd hstatus (herror i)
  | running => exact .inr rfl
  | completed => exact .inl rfl

include heach hquiet herror

theorem wrote_point (k : Fin (m + 2)) : ∃ rest, (b.node k).wrote = zPacket g pt r k :: rest := by
  rcases completed_or_running hquiet herror k with hdone | hrun
  · exact ⟨_, (heach k).2.completed hdone⟩
  · obtain ⟨_, _, sent, h⟩ := (heach k).1.running hrun
    rw [h.wrote]
    cases sent with
    | false => exact ⟨[], rfl⟩
    | true => exact ⟨_, rfl⟩

include hcarried

/-- A node that waits has counted both points, so it has sent its difference. -/
theorem wrote_script (k : Fin (m + 2)) : (b.node k).wrote = script g pt r k := by
  rcases completed_or_running hquiet herror k with hdone | hrun
  · exact (heach k).2.completed hdone
  · obtain ⟨prev, next, sent, h⟩ := (heach k).1.running hrun
    have hcounted := (heach k).2.counted hrun
    obtain ⟨h3, -⟩ := (heach k).2.waits hrun
    have hpoint {j : Fin (m + 2)} (hj : j ≠ k) : zPkt g pt ids r j ∈ (b.node k).taken := by
      obtain ⟨rest, hrest⟩ := wrote_point heach hquiet herror j
      have hroute : Network.route ids j k (zPacket g pt r j) = some (zPkt g pt ids r j) :=
        Network.route_eq_some.mpr ⟨.inl rfl, rfl⟩
      have htaken := hquiet.taken hcarried hj hrun
      rw [hrest, List.filterMap_cons_some hroute] at htaken
      exact List.mem_of_mem_filter (htaken ▸ List.mem_cons_self)
    have h5 := hcounted.prev (hpoint (around_ne k (Nat.succ_pos m) (by omega)))
    have h6 := hcounted.next (hpoint (around_ne k Nat.one_pos (by omega)))
    have hsent : sent = true := by
      rw [h.count] at h3 h5 h6
      revert h3 h5 h6
      cases prev <;> cases next <;> cases sent <;> decide
    rw [h.wrote, if_pos hsent]

variable (hids : ∀ i j, i < j → ids i < ids j)

include hids

theorem quiet_completed (i : Fin (m + 2)) : (b.node i).state.status = .completed := by
  refine (completed_or_running hquiet herror i).resolve_right fun hrun => ?_
  obtain ⟨prev, next, sent, h⟩ := (heach i).1.running hrun
  obtain ⟨-, hlen⟩ := (heach i).2.waits hrun
  have hwrote := wrote_script hcarried heach hquiet herror
  have hsent : sent = true := by
    by_contra hc
    have hall := h.wrote
    rw [hwrote i, if_neg hc] at hall
    exact absurd (congrArg List.length hall) (show ¬ 2 = 1 by decide)
  obtain ⟨hother, hnodup⟩ := heard_fromOther
    ((hcarried.heard heach i).mono fun _ _ _ _ hP => hP.1)
  have hpre : (b.node i).taken <+: (b.node i).given := List.prefix_append _ _
  obtain ⟨hmem, hdiff⟩ := differences_entries hids
    (fun p hp => hother p (hpre.subset hp)) (hnodup.sublist (hpre.sublist.filter _))
  have hall (k : Fin (m + 2)) (hk : k ≠ i) :
      entry g pt ids r k ∈ differences (b.node i).taken := by
    have hz : Network.route ids k i (zPacket g pt r k) = some (zPkt g pt ids r k) :=
      Network.route_eq_some.mpr ⟨.inl rfl, rfl⟩
    have hx : Network.route ids k i (xPacket g pt r k) =
        some ((xPacket g pt r k).pkt (ids k)) :=
      Network.route_eq_some.mpr ⟨.inl rfl, rfl⟩
    have htaken := hquiet.taken hcarried hk hrun
    rw [hwrote k, script, List.filterMap_cons_some hz, List.filterMap_cons_some hx] at htaken
    have hxmem := List.mem_of_mem_filter
      (htaken ▸ List.mem_cons_of_mem _ List.mem_cons_self)
    refine List.mem_map.mpr ⟨_, List.mem_filter.mpr ⟨hxmem, ?_⟩, rfl⟩
    simp [Outgoing.pkt, xPacket, bufferPacket, bd1Bufsize]
  have hself : entry g pt ids r i ∉ differences (b.node i).taken := by
    intro hc
    obtain ⟨k, hk, heq⟩ := hmem _ hc
    exact hk (entry_injective hids heq.symm)
  have hperm : (entry g pt ids r i :: differences (b.node i).taken).Perm
      (List.ofFn (entry g pt ids r)) := by
    refine (List.perm_ext_iff_of_nodup (List.nodup_cons.mpr ⟨hself, hdiff⟩)
      (List.nodup_ofFn.mpr (entry_injective hids))).mpr fun e => ?_
    rw [List.mem_cons, List.mem_ofFn]
    constructor
    · rintro (rfl | he)
      · exact ⟨i, rfl⟩
      · obtain ⟨k, -, rfl⟩ := hmem e he
        exact ⟨k, rfl⟩
    · rintro ⟨k, rfl⟩
      by_cases hk : k = i
      · exact .inl (by rw [hk])
      · exact .inr (hall k hk)
  have hqueue := h.queue
  rw [if_pos hsent] at hqueue
  refine hlen ?_
  rw [hqueue.length_eq, (List.perm_append_singleton _ _).length_eq, hperm.length_eq,
    List.length_ofFn]

end Quiet

/-- Over links that lose nothing and keep the order: when nothing is left to do and no
node has failed, all have completed, with the key of all edges of the ring. -/
theorem ring_completes (hE : g.Exact pt) (hplen : g.plen = 32)
    (hids : ∀ i j, i < j → ids i < ids j)
    (hdraw : ∀ k, g.drawScalar (draw k) 30 0 = .ok (r k))
    (acts : List (Network.Action (m + 2)))
    (hquiet : Network.Quiet Bd1KeyExchange.status (runOf g ids draw acts))
    (herror : ∀ i, ((runOf g ids draw acts).node i).state.status ≠ .error)
    (i : Fin (m + 2)) :
    ((runOf g ids draw acts).node i).state.status = .completed ∧
    ((runOf g ids draw acts).node i).state.key =
      keyOf g (pt (∑ k, (r k : ZMod g.N) * r (k + 1))) := by
  obtain ⟨hcarried, heach⟩ := run_each hE hplen hids hdraw acts
  have hdone := quiet_completed hcarried heach hquiet herror hids i
  exact ⟨hdone, (heach i).1.completed hdone⟩

end Exact

theorem ring_completes_three :
    ((runOf (m := 1) sevenPoints Agreement.threeIds (fun i _ => Agreement.fourTwoOne i)
      threeRun).node 2).state.key = keyOf sevenPoints (sevenPt
        (∑ k : Fin (1 + 2), ((Agreement.fourTwoOne k : Int) : ZMod sevenPoints.N) *
          ((Agreement.fourTwoOne (k + 1) : Int) : ZMod sevenPoints.N))) := by
  have hdraw : ∀ i : Fin 3, sevenPoints.drawScalar
      (fun _ => Agreement.fourTwoOne i) 30 0 = .ok (Agreement.fourTwoOne i) := by
    decide
  have hquiet : Network.Quiet Bd1KeyExchange.status (runOf (m := 1) sevenPoints
      Agreement.threeIds (fun i _ => Agreement.fourTwoOne i) threeRun) :=
    ⟨by decide +kernel, by decide +kernel⟩
  exact (ring_completes (m := 1) sevenPoints_exact (by decide) (by decide) hdraw threeRun
    hquiet (by decide +kernel) 2).2

end Cycle

namespace Chair

open Bd2KeyExchange

local instance (priority := 2000) chair_neZero (m : Nat) : @NeZero Nat Zero.ofOfNat0 (m + 2) :=
  neZero_add_two m

/-- A running exchange has not completed its part. -/
def Waits (x : Bd2KeyExchange) : Prop :=
  x.status = .running → ∀ b ∈ x.behavior, b.completed = false

section Exact

variable {g : EcpGroup} {pt : ZMod g.N → EcpPoint} {m : Nat}
  {ids : Fin (m + 2) → UInt16} {r : Fin (m + 2) → Int} {c : Int}
  {draw : Fin (m + 2) → Nat → Nat → Nat} {i : Fin (m + 2)}
  {x : Bd2KeyExchange} {t : List Pkt} {w : List Outgoing}

/-! ## What a node waits for -/

section Wanting

/-- The chair has sent its point. -/
theorem NodeOk.wrote_z0 (h : NodeOk g pt ids r c draw 0 x t w) (hon : x.status ≠ .offline) :
    ∃ rest, w = z0Packet g pt r :: rest := by
  obtain ⟨b, -, hchair, -⟩ := (h.going hon).behavior
  obtain ⟨queue, peer, X, hat⟩ := hchair rfl
  cases hdone : b.completed with
  | false => exact ⟨[], (hat.waits hdone).2.2⟩
  | true => exact ⟨_, by rw [(hat.done hdone).2.1, script, if_pos rfl]⟩

/-- A simple node that has had the point of the chair has sent its own. -/
theorem NodeOk.wrote_zi (h : NodeOk g pt ids r c draw i x t w) (hi : i ≠ 0)
    (hon : x.status ≠ .offline) (hhad : t.filter (Network.ofNode own ids 0) ≠ []) :
    w = [ziPacket g pt ids r i] := by
  obtain ⟨b, -, -, hnode⟩ := (h.going hon).behavior
  obtain ⟨s, hat⟩ := hnode hi
  refine hat.wrote fun hs => hhad ?_
  rw [hat.had, hs, List.take_zero]

/-- A simple node that runs lacks a packet of the chair. -/
theorem NodeOk.lacks (h : NodeOk g pt ids r c draw i x t w) (hi : i ≠ 0)
    (hrun : x.status = .running) (hwaits : Waits x) :
    t.filter (Network.ofNode own ids 0) ≠ fromChair g pt ids r c i := by
  obtain ⟨b, hb, -, hnode⟩ := (h.going (by rw [hrun]; decide)).behavior
  obtain ⟨s, hat⟩ := hnode hi
  intro hall
  have hs : s = 2 := by
    have hlen := congrArg List.length (hat.had.symm.trans hall)
    have hle := hat.le
    rw [fromChair, List.length_take, List.length_cons, List.length_cons, List.length_nil] at hlen
    omega
  have hdone := (hat.key hs).1
  rw [hwaits hrun b hb] at hdone
  cases hdone

/-- The chair that runs lacks the point of a node. -/
theorem NodeOk.chair_lacks (hids : ∀ i j, i < j → ids i < ids j)
    (h : NodeOk g pt ids r c draw 0 x t w)
    (hrun : x.status = .running) (hwaits : Waits x) :
    ∃ k, k ≠ 0 ∧ (ziPacket g pt ids r k).pkt (ids k) ∉ t := by
  obtain ⟨b, hb, hchair, -⟩ := (h.going (by rw [hrun]; decide)).behavior
  obtain ⟨queue, peer, X, hat⟩ := hchair rfl
  obtain ⟨hperm, hlen, -⟩ := hat.waits (hwaits hrun b hb)
  by_contra hall
  have hmem (k : Fin (m + 2)) (hk : k ≠ 0) : (ziPacket g pt ids r k).pkt (ids k) ∈ t := by
    by_contra hno
    exact hall ⟨k, hk, hno⟩
  have hentries : (List.ofFn fun k : Fin (m + 1) => entry g pt ids r k.succ) ⊆ points ids t := by
    intro e he
    obtain ⟨k, rfl⟩ := List.mem_ofFn.mp he
    refine List.mem_map.mpr
      ⟨_, List.mem_filter.mpr ⟨hmem k.succ (Fin.succ_ne_zero k), ?_⟩, rfl⟩
    simp [Outgoing.pkt, ziPacket, bufferPacket, bd1Bufsize, bd2Bufsize]
  have hnodup : (List.ofFn fun k : Fin (m + 1) => entry g pt ids r k.succ).Nodup := by
    refine List.nodup_ofFn.mpr fun k l heq => ?_
    exact Fin.succ_injective _ (ids_injective hids (congrArg Prod.fst heq))
  have hle := (hnodup.subperm hentries).length_le
  rw [List.length_ofFn, ← hperm.length_eq] at hle
  omega

end Wanting

/-! ## The run -/

section Run

variable (hE : g.Exact pt) (hplen : g.plen = 32) (hids : ∀ i j, i < j → ids i < ids j)
  (hdraw : ∀ k, g.drawScalar (draw k 0) 30 0 = .ok (r k))
  (hkey : g.drawScalar (draw 0 1) 30 0 = .ok c)

include hE hplen hids hdraw hkey

/-- A node that waits does not fail, whatever it is given. -/
theorem NodeOk.goes (h : NodeOk g pt ids r c draw i x t w) {q : List Pkt}
    (hq : Network.Heard own ids (NodeOk g pt ids r c draw) i (t ++ q))
    (hrun : x.status = .running) : (Bd2KeyExchange.update (ids i) q x).ok = true ∧
    (Bd2KeyExchange.update (ids i) q x).state.status ≠ .offline := by
  have hgoing := h.going (by rw [hrun]; decide)
  obtain ⟨hok, -⟩ := hgoing.readLoop hE hplen hids hdraw hkey (good_of_heard hids hq)
  refine ⟨by rw [update_eq (ids i) q hrun]; exact hok, update_ne_offline (ids i) q ?_⟩
  rw [hrun]
  decide

theorem Waits.update (hwaits : Waits x) (h : NodeOk g pt ids r c draw i x t w) {q : List Pkt}
    (hq : Network.Heard own ids (NodeOk g pt ids r c draw) i (t ++ q)) :
    Waits (Bd2KeyExchange.update (ids i) q x).state := by
  by_cases hrun : x.status = .running
  · obtain ⟨hok, -⟩ := h.goes hE hplen hids hdraw hkey hq hrun
    rw [update_eq (ids i) q hrun] at hok ⊢
    simp only [] at hok ⊢
    split
    · next hdone =>
        intro hc
        cases hc
    · next hdone =>
        intro _ b hb
        by_contra hc
        refine hdone ⟨hok, ?_⟩
        rw [show (readLoop (ids i) q x).state.behavior = some b from hb]
        simpa using hc
  · rw [update_idle (ids i) q hrun]
    exact hwaits

theorem Waits.init (hwaits : Waits x) (h : NodeOk g pt ids r c draw i x t w) :
    Waits (Bd2KeyExchange.init g (ids i) (Agreement.nodeset ids) x).1 := by
  have hcase := init_cases g (ids i) (Agreement.nodeset ids) x
  generalize Bd2KeyExchange.init g (ids i) (Agreement.nodeset ids) x = a at hcase ⊢
  cases hcase with
  | refused => exact hwaits
  | noDrbg =>
      intro hc
      cases hc
  | @chair res hoff _ hid hres =>
      obtain ⟨rfl, rfl, rfl⟩ := h.fresh hoff
      rw [lowestIdNode_nodeset hids] at hid
      obtain rfl : i = 0 := ids_injective hids hid
      obtain ⟨b, hinit, -, hb, -, -⟩ :=
        initChair_eq hE hplen hdraw hkey (Agreement.nodeset ids)
      obtain rfl := hres.symm.trans hinit
      intro _ b' hb'
      obtain rfl := Option.some.inj hb'
      exact hb
  | node =>
      intro _ b hb
      obtain rfl := Option.some.inj hb
      rfl

theorem run_each (acts : List (Network.Action (m + 2))) :
    (runOf g ids draw acts).Carried (Network.route ids) (Network.ofNode own ids)
      (Network.spare own) ∧
    (runOf g ids draw acts).Each fun i x t w => NodeOk g pt ids r c draw i x t w ∧ Waits x := by
  refine Network.run_rule (speaks g ids) (ids_injective hids)
    (fun i => ⟨NodeOk.ofNew i, fun hc => by cases hc⟩) ?_ ?_ acts
  · rintro i k t w ⟨h, hwaits⟩
    exact ⟨h.init hE hplen hids hdraw hkey, hwaits.init hE hplen hids hdraw hkey h⟩
  · rintro i k t w q ⟨h, hwaits⟩ hq
    have hq' := hq.mono fun _ _ _ _ hP => hP.1
    exact ⟨h.update hE hplen hids hdraw hkey hq', hwaits.update hE hplen hids hdraw hkey h hq'⟩

end Run

/-! ## Nothing left to do -/

section Quiet

variable {b : Network.Net Bd2KeyExchange (m + 2)}
  (hcarried : b.Carried (Network.route ids) (Network.ofNode own ids) (Network.spare own))
  (heach : b.Each fun i x t w => NodeOk g pt ids r c draw i x t w ∧ Waits x)
  (hquiet : Network.Quiet Bd2KeyExchange.status b)

include heach hquiet in
/-- A node has completed, or it waits. -/
theorem completed_or_running (i : Fin (m + 2)) :
    (b.node i).state.status = .completed ∨ (b.node i).state.status = .running := by
  cases hstatus : (b.node i).state.status with
  | offline => exact absurd hstatus (hquiet.started i)
  | error => exact absurd hstatus (heach i).1.noError
  | running => exact .inr rfl
  | completed => exact .inl rfl

include hcarried heach hquiet

theorem others_wrote {k : Fin (m + 2)} (hk : k ≠ 0) :
    (b.node k).wrote = [ziPacket g pt ids r k] := by
  refine (heach k).1.wrote_zi hk (hquiet.started k) ?_
  rcases completed_or_running heach hquiet k with hdone | hrun
  · rw [((heach k).1.node_completed hk hdone).2, fromChair]
    exact List.cons_ne_nil _ _
  · obtain ⟨rest, hrest⟩ := (heach 0).1.wrote_z0 (hquiet.started 0)
    have hroute : Network.route ids 0 k (z0Packet g pt r) = some ((z0Packet g pt r).pkt (ids 0)) :=
      Network.route_eq_some.mpr ⟨.inl rfl, rfl⟩
    rw [hquiet.taken hcarried (Ne.symm hk) hrun, hrest,
      List.filterMap_cons_some hroute]
    exact List.cons_ne_nil _ _

variable (hids : ∀ i j, i < j → ids i < ids j)

include hids

theorem chair_completed : (b.node 0).state.status = .completed := by
  refine (completed_or_running heach hquiet 0).resolve_right fun hrun => ?_
  obtain ⟨k, hk, hlacks⟩ := (heach 0).1.chair_lacks hids hrun (heach 0).2
  have hroute : Network.route ids k 0 (ziPacket g pt ids r k) =
      some ((ziPacket g pt ids r k).pkt (ids k)) :=
    Network.route_eq_some.mpr ⟨.inr rfl, rfl⟩
  have htaken := hquiet.taken hcarried hk hrun
  rw [others_wrote hcarried heach hquiet hk, List.filterMap_cons_some hroute,
    List.filterMap_nil] at htaken
  exact hlacks (List.mem_of_mem_filter (htaken ▸ List.mem_cons_self))

theorem quiet_completed (i : Fin (m + 2)) : (b.node i).state.status = .completed := by
  by_cases hi : i = 0
  · subst hi
    exact chair_completed hcarried heach hquiet hids
  · refine (completed_or_running heach hquiet i).resolve_right fun hrun => ?_
    have hwrote :=
      ((heach 0).1.chair_completed (chair_completed hcarried heach hquiet hids)).1
    refine (heach i).1.lacks hi hrun (heach i).2 ?_
    rw [hquiet.taken hcarried (Ne.symm hi) hrun, hwrote, route_script hids hi]

end Quiet

/-- Over links that lose nothing and keep the order, in every run, no node fails, and
when nothing is left to do, all have completed, with the key of the chair. -/
theorem chair_completes (hE : g.Exact pt) (hplen : g.plen = 32)
    (hids : ∀ i j, i < j → ids i < ids j)
    (hdraw : ∀ k, g.drawScalar (draw k 0) 30 0 = .ok (r k))
    (hkey : g.drawScalar (draw 0 1) 30 0 = .ok c) (acts : List (Network.Action (m + 2))) :
    (∀ i, ((runOf g ids draw acts).node i).state.status ≠ .error) ∧
    (Network.Quiet Bd2KeyExchange.status (runOf g ids draw acts) → ∀ i,
      ((runOf g ids draw acts).node i).state.status = .completed ∧
      ((runOf g ids draw acts).node i).state.key = keyOf g (pt c)) := by
  obtain ⟨hcarried, heach⟩ := run_each hE hplen hids hdraw hkey acts
  refine ⟨fun i => (heach i).1.noError, fun hquiet i => ?_⟩
  have hdone := quiet_completed hcarried heach hquiet hids i
  refine ⟨hdone, ?_⟩
  by_cases hi : i = 0
  · subst hi
    exact ((heach 0).1.going (hquiet.started 0)).chair_key
  · exact ((heach i).1.node_completed hi hdone).1

end Exact

theorem chair_completes_three :
    ((runOf (m := 1) sevenPoints Agreement.threeIds threeDraw threeRun).node 2).state.key =
      keyOf sevenPoints (sevenPt (5 : Int)) := by
  have hdraw : ∀ i : Fin 3, sevenPoints.drawScalar (threeDraw i 0) 30 0 =
      .ok (Agreement.fourTwoOne i) := by
    decide
  have hquiet : Network.Quiet Bd2KeyExchange.status
      (runOf (m := 1) sevenPoints Agreement.threeIds threeDraw threeRun) :=
    ⟨by decide +kernel, by decide +kernel⟩
  exact ((chair_completes (m := 1) sevenPoints_exact (by decide) (by decide) hdraw
    (by decide : sevenPoints.drawScalar (threeDraw 0 1) 30 0 = .ok 5) threeRun).2 hquiet 2).2

end Chair

namespace Agreement

open MkaKeyExchange

section Mesh

variable {n : Nat} {ids : Fin n → UInt16} {c : Fin n → Nat} {b : Mesh n}

/-- Every node has started, and one that waits has read all that was sent to it. -/
structure Quiet (b : Mesh n) : Prop where
  started : ∀ i, (b.party i).mka.status ≠ .offline
  read : ∀ i, (b.party i).mka.status = .running →
    (b.party i).inQ = [] ∧ ∀ k, b.chan k i = []

/-- Who has completed has sent a packet for every step. -/
def SentAll (c : Fin n → Nat) (b : Mesh n) : Prop :=
  ∀ i, (b.party i).mka.status = .completed → c i = n - 1

theorem mka_give (j : Fin n) (p : Pkt) (k : Fin n) :
    (Function.update b.party j { b.party j with inQ := (b.party j).inQ ++ [p] } k).mka =
      (b.party k).mka := by
  by_cases hk : k = j
  · subst hk
    rw [Function.update_self]
  · rw [Function.update_of_ne hk]

theorem SentAll.init (h : SentAll c b) (g : EcpGroup) (ids : Fin n → UInt16) (i : Fin n) :
    SentAll (Function.update c i
        (c i + ((b.party i).mka.init g (nodeset ids)).2.1.length))
      (step g ids b (.init i)) := by
  intro k hk
  simp only [Agreement.step] at hk
  by_cases hki : k = i
  · subst hki
    rw [Function.update_self] at hk ⊢
    simp only [] at hk
    rcases init_cases g (nodeset ids) (b.party k).mka with
      heq | ⟨herr, -⟩ | ⟨_, _, _, _, -, -, -, -, -, -, heq⟩
    · rw [heq] at hk ⊢
      exact h k hk
    · cases herr.symm.trans hk
    · rw [heq] at hk
      cases hk
  · rw [Function.update_of_ne hki] at hk ⊢
    exact h k hk

theorem SentAll.update (h : SentAll c b) (hapart : Apart ids c b) (g : EcpGroup)
    (hids : Function.Injective ids) (i : Fin n) :
    SentAll (Function.update c i
        (c i + ((b.party i).mka.update (b.party i).inQ).wrote.length))
      (step g ids b (.update i)) := by
  intro k hk
  simp only [Agreement.step] at hk
  by_cases hki : k = i
  · subst hki
    rw [Function.update_self] at hk ⊢
    simp only [] at hk
    by_cases hrun : (b.party k).mka.status = .running
    · obtain ⟨-, hwrote, hcase⟩ := update_cases (b.party k).inQ hrun
      obtain ⟨hgo, -⟩ := (hapart.party k).running hrun
      obtain ⟨hgoing, -⟩ := hgo.readLoop hids (hapart.queued k hrun)
      rw [hwrote]
      generalize ((b.party k).mka.update (b.party k).inQ).state = m',
        ((b.party k).mka.update (b.party k).inQ).ok = ok at hcase hk
      cases hcase with
      | failed herr => cases herr.symm.trans hk
      | completed hok hstep =>
          have hread := (hgoing hok).1
          rw [hread.node.nodes, card_nodeset hids] at hstep
          rw [hread.sent, hstep]
          omega
      | running hok hstatus => cases hstatus.symm.trans hk
    · rw [update_idle _ hrun] at hk ⊢
      exact h k hk
  · rw [Function.update_of_ne hki] at hk ⊢
    exact h k hk

theorem step_sentAll (g : EcpGroup) (hids : Function.Injective ids) (b : Mesh n)
    (act : Action n) (h : ∃ c, Apart ids c b ∧ SentAll c b) :
    ∃ c, Apart ids c (step g ids b act) ∧ SentAll c (step g ids b act) := by
  obtain ⟨c, hapart, hall⟩ := h
  cases act with
  | init i => exact ⟨_, hapart.init g hids i, hall.init g ids i⟩
  | update i => exact ⟨_, hapart.update g hids i, hall.update hapart g hids i⟩
  | deliver i j =>
      refine ⟨c, hapart.deliver g hids i j, fun k hk => ?_⟩
      rw [Agreement.step] at hk
      split at hk
      · exact hall k hk
      · rw [mka_give] at hk
        exact hall k hk
  | other j p =>
      refine ⟨c, hapart.other g j p, fun k hk => ?_⟩
      rw [Agreement.step] at hk
      split at hk
      · exact hall k hk
      · rw [mka_give] at hk
        exact hall k hk

/-- A node that waits for another one is a step ahead of it. -/
theorem Apart.behind (h : Apart ids c b) (hall : SentAll c b) (hquiet : Quiet b)
    (herror : ∀ i, (b.party i).mka.status ≠ .error) (hids : Function.Injective ids)
    {i : Fin n} (hrun : (b.party i).mka.status = .running) :
    ∃ k, (b.party k).mka.status = .running ∧
      (b.party k).mka.currentStep.toNat < (b.party i).mka.currentStep.toNat := by
  obtain ⟨hgo, hlt⟩ := (h.party i).running hrun
  obtain ⟨k, hk, hno⟩ : ∃ k, k ≠ i ∧ ids k ∉ (b.party i).mka.remoteUsers := by
    by_contra hc
    have hsub : (Finset.univ.erase i).image ids ⊆ (b.party i).mka.remoteUsers := by
      intro x hx
      obtain ⟨k, hk, rfl⟩ := Finset.mem_image.mp hx
      by_contra hno
      exact hc ⟨k, Finset.ne_of_mem_erase hk, hno⟩
    have hcard := Finset.card_le_card hsub
    rw [Finset.card_image_of_injective _ hids, Finset.card_erase_of_mem (Finset.mem_univ i),
      Finset.card_univ, Fintype.card_fin] at hcard
    have hwaiting := hgo.waiting hlt
    omega
  rw [hgo.node.users hlt k hk, Nat.not_lt] at hno
  obtain ⟨hinQ, hchan⟩ := hquiet.read i hrun
  have hsent := h.sent k i hk
  rw [hchan, List.length_nil, Nat.add_zero, Mesh.given, hinQ, List.append_nil] at hsent
  cases hstatus : (b.party k).mka.status with
  | offline => exact absurd hstatus (hquiet.started k)
  | error => exact absurd hstatus (herror k)
  | completed =>
      have := hall k hstatus
      omega
  | running =>
      obtain ⟨hgok, hltk⟩ := (h.party k).running hstatus
      have := hgok.sent
      exact ⟨k, hstatus, by omega⟩

end Mesh

/-- Over channels that lose nothing and keep the order: when nothing is left to do and
no node has failed, all have completed. Whatever the curve, the generators and the
order of delivery. -/
theorem mesh_completes (g : EcpGroup) {n : Nat} {ids : Fin n → UInt16}
    (hids : Function.Injective ids) (drbg : Fin n → Option (Nat → Nat))
    (acts : List (Action n))
    (hquiet : Quiet (Runs.run (step g ids) (startWith g drbg) acts))
    (herror : ∀ i, ((Runs.run (step g ids) (startWith g drbg) acts).party i).mka.status ≠ .error)
    (i : Fin n) :
    ((Runs.run (step g ids) (startWith g drbg) acts).party i).mka.status = .completed := by
  obtain ⟨c, hapart, hall⟩ : ∃ c, Apart ids c (Runs.run (step g ids) (startWith g drbg) acts) ∧
      SentAll c (Runs.run (step g ids) (startWith g drbg) acts) :=
    Runs.run_inv (step_sentAll g hids)
      ⟨_, Apart.start g drbg, fun i hi => by cases hi⟩ acts
  generalize Runs.run (step g ids) (startWith g drbg) acts = b at *
  have hnone : ∀ s k, (b.party k).mka.status = .running →
      (b.party k).mka.currentStep.toNat ≠ s := by
    intro s
    -- the node that is furthest behind would wait for one behind it
    induction s using Nat.strongRecOn with
    | ind s ih =>
        intro k hrun hs
        obtain ⟨k', hrun', hlt⟩ := hapart.behind hall hquiet herror hids hrun
        exact ih _ (hs ▸ hlt) k' hrun' rfl
  cases hstatus : (b.party i).mka.status with
  | offline => exact absurd hstatus (hquiet.started i)
  | error => exact absurd hstatus (herror i)
  | running => exact absurd rfl (hnone _ i hstatus)
  | completed => rfl

theorem mesh_completes_three :
    ((Runs.run (step sevenPoints threeIds)
      (startWith sevenPoints fun i => some fun _ => fourTwoOne i)
      (aheadRun 0 1 2 true)).party 2).mka.status = .completed :=
  mesh_completes sevenPoints (show Function.Injective threeIds by decide)
    (fun i => some fun _ => fourTwoOne i) (aheadRun 0 1 2 true)
    ⟨by decide +kernel, by decide +kernel⟩ (by decide +kernel) 2

end Agreement

end LibSmoke
