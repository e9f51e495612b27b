import LibSmoke.Knx.Bd1KeyExchange
import LibSmoke.Knx.Network

/-!
# The cyclic exchange over a network

Every node runs `BD1KeyExchange`, and what it writes is known beforehand: its
point, and then the difference of the points next to it, times its scalar. So a
node never has to look at what another is doing, only at which of these packets
have come. A node that has as many differences as there are nodes has one of
each, and what it adds up behind its own is the sum of all edges of the ring
(`edges_agree`).
-/

namespace LibSmoke

namespace Cycle

open Bd1KeyExchange

local instance (priority := 2000) ring_neZero (m : Nat) : @NeZero Nat Zero.ofOfNat0 (m + 2) :=
  neZero_add_two m

local instance (priority := 2001) three_neZero : @NeZero Nat Zero.ofOfNat0 3 := neZero_three

section Ring

variable (g : EcpGroup) (pt : ZMod g.N → EcpPoint) {m : Nat}
  (ids : Fin (m + 2) → UInt16) (r : Fin (m + 2) → Int)

/-- The edge behind node `k`, as a scalar. -/
def edge (k : Fin (m + 2)) : ZMod g.N := r k * r (k + 1)

/-- The difference node `k` sends. -/
def diff (k : Fin (m + 2)) : ZMod g.N :=
  r k * ((r (around k 1) : ZMod g.N) - r (around k (m + 1)))

def zPacket (k : Fin (m + 2)) : Outgoing :=
  bufferPacket broadcastAddr cmdBd1Zi (pointBytes g (pt (r k)))

def xPacket (k : Fin (m + 2)) : Outgoing :=
  bufferPacket broadcastAddr cmdBd1Xi (pointBytes g (pt (diff g r k)))

/-- What node `k` has to write. -/
def script (k : Fin (m + 2)) : List Outgoing := [zPacket g pt r k, xPacket g pt r k]

/-- The entry of node `k` in a queue. -/
def entry (k : Fin (m + 2)) : UInt16 × List UInt8 :=
  (ids k, padded bd1Bufsize (pointBytes g (pt (diff g r k))))

/-- The differences among some packets. -/
def differences (t : List Pkt) : List (UInt16 × List UInt8) :=
  (t.filter fun p => p.cmd == cmdBd1Xi && p.data.length == bd1Bufsize).map
    fun p => (p.src, p.data)

/-- Which of the two points and whether the own difference is there. -/
def zcnt (prev next sent : Bool) : UInt8 :=
  (if prev then 1 else 0) ||| (if next then 2 else 0) ||| (if sent then 4 else 0)

/-- A running exchange of node `i` that has taken `t` and written `w`. -/
structure Running (i : Fin (m + 2)) (x : Bd1KeyExchange) (t : List Pkt)
    (w : List Outgoing) (prev next sent : Bool) : Prop where
  status : x.status = .running
  nodes : x.nodes = Agreement.nodeset ids
  prevId : x.prev = ids (around i (m + 1))
  nextId : x.next = ids (around i 1)
  count : x.recvZcnt = zcnt prev next sent
  zi : x.zi.length = bd1Bufsize * 2
  prevZ : prev → sent = false →
    x.zi.take bd1Bufsize = g.record (pt (r (around i (m + 1))))
  nextZ : next → sent = false →
    x.zi.drop bd1Bufsize = g.record (pt (r (around i 1)))
  queue : x.xKeys.Perm (differences t ++ if sent then [entry g pt ids r i] else [])
  sorted : x.xKeys.Pairwise fun a b => a.1 ≤ b.1
  own : x.ctx.grp = g ∧ x.ctx.r = r i
  ctx : sent → x.ctx = ⟨g, r i, pt (r (around i (m + 1))), pt (diff g r i)⟩
  wrote : w = if sent then script g pt r i else [zPacket g pt r i]

/-- What holds of node `i`, which draws from `draw`. -/
structure NodeOk (draw : Fin (m + 2) → Nat → Nat) (i : Fin (m + 2))
    (x : Bd1KeyExchange) (t : List Pkt) (w : List Outgoing) : Prop where
  wrote : w <+: script g pt r i
  fresh : x.status = .offline → x = .new g (some (draw i)) ∧ t = [] ∧ w = []
  running : x.status = .running →
    ∃ prev next sent, Running g pt ids r i x t w prev next sent
  completed : x.status = .completed → x.key = keyOf g (pt (∑ k, edge g r k))

end Ring

section Exact

variable {g : EcpGroup} {pt : ZMod g.N → EcpPoint} {m : Nat}
  {ids : Fin (m + 2) → UInt16} {r : Fin (m + 2) → Int}

/-- The difference is that of the edges behind and before the node. -/
theorem diff_eq (k : Fin (m + 2)) :
    diff g r k = edge g r k - edge g r (around k (m + 1)) := by
  have hback : around k (m + 1) + 1 = k := by
    rw [add_one_eq_around, around_around]
    exact (around_full k 0).trans (around_zero k)
  rw [diff, edge, edge, hback, add_one_eq_around]
  ring

/-- The edges met on one round of the ring are all edges. -/
theorem sum_around (i : Fin (m + 2)) (c : Nat) :
    ∑ j ∈ Finset.range (m + 2), edge g r (around i (c + j)) = ∑ k, edge g r k := by
  rw [Finset.sum_range]
  refine Fintype.sum_equiv (Equiv.addLeft (around i c)) _ _ fun j => ?_
  refine congrArg (edge g r) (Fin.ext ?_)
  rw [around_val, Equiv.coe_addLeft, Fin.val_add, around_val, Nat.mod_add_mod,
    Nat.add_assoc]

/-- `p` is a packet of another node than `i`, or none of the exchange. -/
def FromOther (g : EcpGroup) (pt : ZMod g.N → EcpPoint) (ids : Fin (m + 2) → UInt16)
    (r : Fin (m + 2) → Int) (i : Fin (m + 2)) (p : Pkt) : Prop :=
  Bd1KeyExchange.own p.cmd → ∃ k, k ≠ i ∧ (p = (zPacket g pt r k).pkt (ids k) ∨
    p = (xPacket g pt r k).pkt (ids k))

theorem differences_append (t : List Pkt) (p : Pkt) :
    differences (t ++ [p]) = differences t ++
      if p.cmd = cmdBd1Xi ∧ p.data.length = bd1Bufsize then [(p.src, p.data)]
      else [] := by
  rw [differences, List.filter_append, List.map_append, List.filter_singleton]
  refine congrArg _ ?_
  by_cases h : p.cmd = cmdBd1Xi ∧ p.data.length = bd1Bufsize
  · simp [h]
  · rw [if_neg h]
    have : (p.cmd == cmdBd1Xi && p.data.length == bd1Bufsize) = false := by
      rw [Bool.eq_false_iff]
      simpa using h
    rw [this]
    rfl

section Packets

variable (hE : g.Exact pt) (hplen : g.plen = 32)
  (hr : ∀ k, 0 < r k ∧ r k < g.N) (hids : ∀ i j, i < j → ids i < ids j)
  {i : Fin (m + 2)} {x : Bd1KeyExchange} {t : List Pkt} {w : List Outgoing}
  {prev next sent : Bool} {p : Pkt}

theorem Running.skip (h : Running g pt ids r i x t w prev next sent)
    (hp : ¬(p.cmd = cmdBd1Xi ∧ p.data.length = bd1Bufsize)) :
    Running g pt ids r i x (t ++ [p]) w prev next sent := by
  refine { h with queue := ?_ }
  rw [differences_append, if_neg hp, List.append_nil]
  exact h.queue

/-- The point of the node before. -/
theorem Running.fromPrev (h : Running g pt ids r i x t w prev next sent)
    {z : List UInt8} (hz : z = g.record (pt (r (around i (m + 1)))))
    (hlen : z.length = bd1Bufsize) :
    Running g pt ids r i
      { x with zi := memcpy x.zi 0 z, recvZcnt := x.recvZcnt ||| 1 } t w
      true next sent := by
  obtain ⟨htake, hdrop⟩ := memcpy_first x.zi hlen
  have hl := length_half h.zi hlen (Nat.zero_le _)
  refine { h with count := ?_, zi := hl, prevZ := ?_, nextZ := ?_ }
  · simp only [h.count]
    cases prev <;> cases next <;> cases sent <;> rfl
  · exact fun _ _ => htake.trans hz
  · exact fun hn hs => hdrop.trans (h.nextZ hn hs)

/-- The point of the node behind. -/
theorem Running.fromNext (h : Running g pt ids r i x t w prev next sent)
    {z : List UInt8} (hz : z = g.record (pt (r (around i 1))))
    (hlen : z.length = bd1Bufsize) :
    Running g pt ids r i
      { x with zi := memcpy x.zi bd1Bufsize z, recvZcnt := x.recvZcnt ||| 2 } t w
      prev true sent := by
  obtain ⟨htake, hdrop⟩ := memcpy_second h.zi hlen
  have hl := length_half h.zi hlen (Nat.le_refl _)
  refine { h with count := ?_, zi := hl, prevZ := ?_, nextZ := ?_ }
  · simp only [h.count]
    cases prev <;> cases next <;> cases sent <;> rfl
  · exact fun hp hs => htake.trans (h.prevZ hp hs)
  · exact fun _ _ => hdrop.trans hz

/-- A difference of another node. -/
theorem Running.fromX (h : Running g pt ids r i x t w prev next sent)
    (hcmd : p.cmd = cmdBd1Xi) (hlen : p.data.length = bd1Bufsize) :
    Running g pt ids r i { x with xKeys := push (p.src, p.data) x.xKeys }
      (t ++ [p]) w prev next sent := by
  refine { h with queue := ?_, sorted := push_sorted _ h.sorted }
  refine (push_perm _ _).trans ((h.queue.cons _).trans ?_)
  rw [differences_append, if_pos (And.intro hcmd hlen), List.append_assoc]
  exact List.perm_middle.symm

include hr in
theorem scalar_ne (k : Fin (m + 2)) : (r k : ZMod g.N) ≠ 0 :=
  EcpGroup.Exact.cast_ne_zero (hr k).1 (hr k).2

include hE hplen hr in
/-- A point that is broadcast fills its packet. -/
theorem zPacket_body (k : Fin (m + 2)) :
    (zPacket g pt r k).body = g.record (pt (r k)) := by
  show padded bd1Bufsize (pointBytes g (pt (r k))) = _
  rw [pointBytes_of_ne hE (scalar_ne hr k), padded_of_length]
  rw [EcpGroup.record_length, hplen]
  rfl

include hE hplen hr hids

/-- A packet of another node, or none of the exchange, keeps a running node as
it has to be. -/
theorem Running.place (h : Running g pt ids r i x t w prev next sent)
    (hp : FromOther g pt ids r i p) :
    ∃ prev' next', Running g pt ids r i (place p x) (t ++ [p]) w prev' next' sent := by
  by_cases hown : Bd1KeyExchange.own p.cmd
  · obtain ⟨k, hk, hpk | hpk⟩ := hp hown
    · have hcmd : p.cmd = cmdBd1Zi := by rw [hpk]; rfl
      have hsrc : p.src = ids k := by rw [hpk]; rfl
      have hdata : p.data = g.record (pt (r k)) := by
        rw [hpk]
        exact zPacket_body hE hplen hr k
      have hlen : p.data.length = bd1Bufsize := by
        rw [hpk]
        exact padded_length ..
      have hskip := h.skip (p := p) fun hc => absurd (hcmd.symm.trans hc.1) (by decide)
      obtain ⟨y, hy, prev', h'⟩ : ∃ y, (if p.src = x.prev then
            { x with zi := memcpy x.zi 0 p.data, recvZcnt := x.recvZcnt ||| 1 }
          else x) = y ∧
          ∃ prev', Running g pt ids r i y (t ++ [p]) w prev' next sent := by
        refine ⟨_, rfl, ?_⟩
        split
        · next heq =>
            rw [hsrc, h.prevId] at heq
            rw [ids_injective hids heq] at hdata
            exact ⟨true, hskip.fromPrev hdata hlen⟩
        · exact ⟨prev, hskip⟩
      rw [Bd1KeyExchange.place, if_neg (not_not.mpr hlen), if_pos hcmd, hy]
      refine ⟨prev', ?_⟩
      simp only []
      split
      · next heq =>
          rw [hsrc, h'.nextId] at heq
          rw [ids_injective hids heq] at hdata
          exact ⟨true, h'.fromNext hdata hlen⟩
      · exact ⟨next, h'⟩
    · have hcmd : p.cmd = cmdBd1Xi := by rw [hpk]; rfl
      have hlen : p.data.length = bd1Bufsize := by
        rw [hpk]
        exact padded_length ..
      rw [Bd1KeyExchange.place, if_neg (not_not.mpr hlen),
        if_neg (by rw [hcmd]; decide), if_pos hcmd]
      exact ⟨prev, next, h.fromX hcmd hlen⟩
  · have hcmd : p.cmd ≠ cmdBd1Zi ∧ p.cmd ≠ cmdBd1Xi := by
      simpa [Bd1KeyExchange.own] using hown
    have hplace : Bd1KeyExchange.place p x = x := by
      rw [Bd1KeyExchange.place]
      split
      · rfl
      · rw [if_neg hcmd.1, if_neg hcmd.2]
    rw [hplace]
    exact ⟨prev, next, h.skip fun hc => hcmd.2 hc.1⟩

/-- The reading loop. -/
theorem Running.readLoop (h : Running g pt ids r i x t w prev next sent)
    {q : List Pkt} (hq : ∀ p ∈ q, FromOther g pt ids r i p) :
    ∃ prev' next', Running g pt ids r i (readLoop q x).1
      (t ++ q.take (q.length - (Bd1KeyExchange.readLoop q x).2.length)) w prev' next'
      sent := by
  refine readLoop_rule (I := fun t x =>
    ∃ prev next, Running g pt ids r i x t w prev next sent) ?_ hq ⟨prev, next, h⟩
  rintro t x p ⟨prev, next, h⟩ hp -
  exact h.place hE hplen hr hids hp

omit hids in
/-- The own difference joins the others. -/
theorem Running.ownValue (h : Running g pt ids r i x t w prev next sent)
    {x' : Bd1KeyExchange} {w' : List Outgoing}
    (hown : Own (ids i) x (x', w', true)) :
    ∃ prev' next' sent', Running g pt ids r i x' t (w ++ w') prev' next' sent' := by
  cases hown with
  | none =>
      rw [List.append_nil]
      exact ⟨prev, next, sent, h⟩
  | @sent ctx mykey h3 hvalue =>
      have hall : prev = true ∧ next = true ∧ sent = false := by
        rw [h.count] at h3
        revert h3
        cases prev <;> cases next <;> cases sent <;> decide
      obtain ⟨rfl, rfl, rfl⟩ := hall
      have hzi : x.zi = g.record (pt (r (around i (m + 1)))) ++
          g.record (pt (r (around i 1))) := by
        rw [← h.prevZ rfl rfl, ← h.nextZ rfl rfl, List.take_append_drop]
      have hctx : x.ctx = ⟨g, r i, x.ctx.z, x.ctx.X⟩ := by
        rw [← h.own.2]
        exact congrArg (fun g => (⟨g, x.ctx.r, x.ctx.z, x.ctx.X⟩ : Bd1Context)) h.own.1
      have hroom : g.Room (2 * bd1Bufsize) := by
        rw [EcpGroup.Room, hplen]
        decide
      rw [hzi, hctx, bd1GenValue_pt hE (hr i).1 (hr i).2 (scalar_ne hr _)
        (scalar_ne hr _) hroom (by rw [hplen]; decide)] at hvalue
      cases hvalue
      refine ⟨false, false, true, { h with
        count := rfl, prevZ := ?_, nextZ := ?_, queue := ?_
        sorted := push_sorted _ h.sorted, own := ⟨rfl, rfl⟩, ctx := fun _ => rfl
        wrote := ?_ }⟩
      · exact fun hc => absurd hc Bool.false_ne_true
      · exact fun hc => absurd hc Bool.false_ne_true
      · have hqueue := h.queue
        rw [if_neg Bool.false_ne_true, List.append_nil] at hqueue
        refine (push_perm _ _).trans ((hqueue.cons _).trans ?_)
        rw [if_pos rfl]
        exact (List.perm_append_singleton _ _).symm
      · have hwrote := h.wrote
        rw [if_neg Bool.false_ne_true] at hwrote
        rw [hwrote, if_pos rfl]
        rfl

omit hE hplen hr in
theorem entry_injective : Function.Injective (entry g pt ids r) :=
  fun _ _ h => ids_injective hids (congrArg Prod.fst h)

omit hE hplen hr in
/-- The differences among packets of other nodes, none of them twice, are entries of
other nodes, none of them twice. -/
theorem differences_entries (ht : ∀ p ∈ t, FromOther g pt ids r i p)
    (hnodup : (t.filter fun p => Bd1KeyExchange.own p.cmd).Nodup) :
    (∀ e ∈ differences t, ∃ k, k ≠ i ∧ e = entry g pt ids r k) ∧
    (differences t).Nodup := by
  have hpkt : ∀ p ∈ t.filter fun p => p.cmd == cmdBd1Xi && p.data.length == bd1Bufsize,
      ∃ k, k ≠ i ∧ p = (xPacket g pt r k).pkt (ids k) := by
    intro p hp
    rw [List.mem_filter, Bool.and_eq_true, beq_iff_eq] at hp
    obtain ⟨hmem, hcmd, -⟩ := hp
    obtain ⟨k, hk, heq | heq⟩ := ht p hmem (by rw [hcmd]; rfl)
    · rw [heq] at hcmd
      exact absurd (show cmdBd1Zi = cmdBd1Xi from hcmd) (by decide)
    · exact ⟨k, hk, heq⟩
  refine ⟨fun e he => ?_, List.Nodup.map_on ?_ (hnodup.sublist ?_)⟩
  · obtain ⟨p, hp, rfl⟩ := List.mem_map.mp he
    obtain ⟨k, hk, rfl⟩ := hpkt p hp
    exact ⟨k, hk, rfl⟩
  · intro p hp q hq heq
    obtain ⟨k, -, rfl⟩ := hpkt p hp
    obtain ⟨l, -, rfl⟩ := hpkt q hq
    obtain rfl : k = l := ids_injective hids (congrArg Prod.fst heq)
    rfl
  · refine List.monotone_filter_right t fun p hp => ?_
    rw [Bool.and_eq_true, beq_iff_eq] at hp
    rw [hp.1]
    rfl

omit hE hplen hr in
/-- As many entries as there are nodes are one of each. -/
theorem Running.full (h : Running g pt ids r i x t w prev next sent)
    (ht : ∀ p ∈ t, FromOther g pt ids r i p)
    (hnodup : (t.filter fun p => Bd1KeyExchange.own p.cmd).Nodup)
    (hlen : x.xKeys.length = m + 2) :
    sent = true ∧ x.xKeys = List.ofFn (entry g pt ids r) := by
  obtain ⟨hmem, hdiff⟩ := differences_entries hids ht hnodup
  have hself : entry g pt ids r i ∉ differences t := by
    intro hc
    obtain ⟨k, hk, heq⟩ := hmem _ hc
    exact hk (entry_injective hids heq.symm)
  have hqueue := h.queue
  have hlen' := hqueue.length_eq
  rw [hlen] at hlen'
  cases sent with
  | false =>
      rw [if_neg Bool.false_ne_true, List.append_nil] at hlen'
      have hperm := perm_ofFn hdiff (fun e he => (hmem e he).imp fun _ hk => hk.2)
        hlen'.symm
      exact absurd (hperm.mem_iff.mpr (List.mem_ofFn.mpr ⟨i, rfl⟩)) hself
  | true =>
      rw [if_pos rfl] at hlen' hqueue
      have hnodup' : (differences t ++ [entry g pt ids r i]).Nodup :=
        List.nodup_append.mpr ⟨hdiff, List.nodup_singleton _, fun a ha b hb heq =>
          hself (List.mem_singleton.mp hb ▸ heq ▸ ha)⟩
      have hperm := perm_ofFn (f := entry g pt ids r) hnodup' (fun e he => by
        rcases List.mem_append.mp he with he | he
        · exact (hmem e he).imp fun _ hk => hk.2
        · exact ⟨i, List.mem_singleton.mp he⟩) hlen'.symm
      exact ⟨rfl, queue_eq_ofFn hids h.sorted (hqueue.trans hperm)⟩

omit hE hplen hr in
/-- The queue turned to begin behind node `i`. -/
theorem tempbuf_ofFn (i : Fin (m + 2)) :
    tempbuf (ids i) (List.ofFn (entry g pt ids r)) = (List.range (m + 1)).flatMap
      fun j => padded bd1Bufsize (pointBytes g (pt (diff g r (around i (j + 1))))) := by
  have hfilter : ∀ f : Fin (m + 2) → Bool, ∀ f' : UInt16 × List UInt8 → Bool,
      (∀ k, f' (entry g pt ids r k) = f k) →
      (List.ofFn (entry g pt ids r)).filter f' =
        ((List.finRange (m + 2)).filter f).map (entry g pt ids r) := by
    intro f f' hf
    rw [List.ofFn_eq_map, List.filter_map]
    refine congrArg _ (List.filter_congr fun k _ => ?_)
    exact hf k
  rw [tempbuf, hfilter (i < ·) _ fun k => decide_eq_decide.mpr (ids_lt_iff hids),
    hfilter (· < i) _ fun k => decide_eq_decide.mpr (ids_lt_iff hids),
    ← List.map_append, turned, List.map_map, List.flatMap_map]
  rfl

/-- What is added up is the key of all edges. -/
theorem Running.key (h : Running g pt ids r i x t w prev next true)
    (hqueue : x.xKeys = List.ofFn (entry g pt ids r)) {key : List UInt8}
    (hkey : bd1ComputeKey x.ctx (padded (bd1Bufsize * (m + 2)) (tempbuf (ids i) x.xKeys))
      (bd1Bufsize * (m + 2) - 1) (m + 2) bd1Bufsize = .ok key) :
    key = keyOf g (pt (∑ k, edge g r k)) := by
  have hback : around i (m + 1 + 1) = i := (around_full i 0).trans (around_zero i)
  have hfirst : edge g r (around i (m + 1 + 0)) = r i * r (around i (m + 1)) := by
    rw [Nat.add_zero, edge, add_one_eq_around, around_around, hback, mul_comm]
  have hdiff : diff g r i =
      edge g r (around i (m + 1 + 1)) - edge g r (around i (m + 1 + 0)) := by
    rw [hback]
    exact diff_eq i
  have hdiffs : ∀ j, diff g r (around i (j + 1)) =
      edge g r (around i (m + 1 + (j + 2))) - edge g r (around i (m + 1 + (j + 1))) := by
    intro j
    rw [diff_eq, around_around, show m + 1 + (j + 2) = m + 2 + (j + 1) by omega,
      around_full, Nat.add_comm (j + 1)]
  have htwo : m + 2 = 2 →
      edge g r (around i (m + 1 + 1)) = edge g r (around i (m + 1 + 0)) := by
    intro h2
    obtain rfl : m = 0 := by omega
    rw [hfirst, hback, edge, add_one_eq_around]
  have hsize : 2 * g.plen + 2 = bd1Bufsize := by rw [hplen]; rfl
  have hbuf : padded (bd1Bufsize * (m + 2)) (tempbuf (ids i) x.xKeys) =
      buffersOf g pt (fun j => edge g r (around i (m + 1 + (j + 2))) -
        edge g r (around i (m + 1 + (j + 1)))) (m + 2 - 2) ++
      (padded bd1Bufsize (pointBytes g (pt (diff g r (around i (m + 1))))) ++
        List.replicate bd1Bufsize 0) := by
    have hlen : (tempbuf (ids i) x.xKeys).length = bd1Bufsize * (m + 1) := by
      rw [hqueue, tempbuf_ofFn hids, List.length_flatMap]
      simp [Nat.mul_comm]
    have hrest : bd1Bufsize * (m + 2) - bd1Bufsize * (m + 1) = bd1Bufsize := by
      rw [bd1Bufsize]
      omega
    rw [padded, hlen, hrest, List.take_of_length_le (by
      rw [List.length_append, hlen, List.length_replicate, bd1Bufsize]
      omega), hqueue, tempbuf_ofFn hids, List.range_succ, List.flatMap_append,
      List.flatMap_singleton, List.append_assoc, buffersOf, hsize]
    simp only [hdiffs, Nat.add_sub_cancel]
  have hroom : g.Room (bd1Bufsize * (m + 2) - 1) := by
    rw [EcpGroup.Room, hplen, bd1Bufsize]
    omega
  rw [hbuf, h.ctx rfl, hdiff] at hkey
  rw [bd1ComputeKey_ok hE (by omega)
    (b := fun j => edge g r (around i (m + 1 + j))) hfirst htwo rfl hroom hkey,
    sum_around]

/-! ## The run of a node -/

section Node

variable {draw : Fin (m + 2) → Nat → Nat}
  (hdraw : ∀ k, g.drawScalar (draw k) 30 0 = .ok (r k))

omit hE hplen hr hids in
theorem NodeOk.of_error {x : Bd1KeyExchange} (h : x.status = .error)
    (hw : w <+: script g pt r i) : NodeOk g pt ids r draw i x t w := by
  refine ⟨hw, ?_, ?_, ?_⟩ <;> intro hs <;> cases h.symm.trans hs

omit hE hplen hr hids in
theorem Running.wrote_begins (h : Running g pt ids r i x t w prev next sent) :
    w <+: script g pt r i := by
  rw [h.wrote]
  split
  · exact List.prefix_refl _
  · exact ⟨[xPacket g pt r i], rfl⟩

omit hE hplen hr hids in
theorem Running.nodeOk (h : Running g pt ids r i x t w prev next sent) :
    NodeOk g pt ids r draw i x t w := by
  refine ⟨h.wrote_begins, ?_, fun _ => ⟨prev, next, sent, h⟩, ?_⟩ <;> intro hs <;>
    cases h.status.symm.trans hs

omit hE hplen hr hids in
theorem NodeOk.ofNew (i : Fin (m + 2)) :
    NodeOk g pt ids r draw i (.new g (some (draw i))) [] [] := by
  refine ⟨List.nil_prefix, fun _ => ⟨rfl, rfl, rfl⟩, ?_, ?_⟩ <;> intro hs <;> cases hs

include hdraw

omit hr in
theorem NodeOk.init (h : NodeOk g pt ids r draw i x t w) :
    NodeOk g pt ids r draw i
      (Bd1KeyExchange.init g (ids i) (Agreement.nodeset ids) x).1 t
      (w ++ (Bd1KeyExchange.init g (ids i) (Agreement.nodeset ids) x).2.1) := by
  rcases init_cases g (ids i) (Agreement.nodeset ids) x with
    heq | ⟨herr, heq⟩ | ⟨d, ctx, mykey, hoff, -, -, hd, hgen, heq⟩
  · rw [heq, List.append_nil]
    exact h
  · rw [heq, List.append_nil]
    exact .of_error herr h.wrote
  · obtain ⟨rfl, rfl, rfl⟩ := h.fresh hoff
    cases hd
    rw [bd1GenPoint_pt hE (hdraw i) (by rw [hplen]; decide)] at hgen
    cases hgen
    rw [heq, NetworkT.of_ids hids, List.nil_append]
    have hrun : Running g pt ids r i { (new g (some (draw i)) : Bd1KeyExchange) with
        status := .running
        nodes := Agreement.nodeset ids
        prev := ids (around i (m + 1))
        next := ids (around i 1)
        recvZcnt := 0
        ctx := ⟨g, r i, ⟨0, 0, 0⟩, ⟨0, 0, 0⟩⟩ } [] [zPacket g pt r i]
        false false false := {
      status := rfl
      nodes := rfl
      prevId := rfl
      nextId := rfl
      count := rfl
      zi := List.length_replicate
      prevZ := fun hc => absurd hc Bool.false_ne_true
      nextZ := fun hc => absurd hc Bool.false_ne_true
      queue := List.Perm.refl _
      sorted := List.Pairwise.nil
      own := ⟨rfl, rfl⟩
      ctx := fun hc => absurd hc Bool.false_ne_true
      wrote := rfl }
    exact hrun.nodeOk

omit hE hplen hr hids hdraw in
/-- What has been given to a node is from the others, and nothing twice. -/
theorem heard_fromOther {q : List Pkt}
    (h : Network.Heard Bd1KeyExchange.own ids (NodeOk g pt ids r draw) i q) :
    (∀ p ∈ q, FromOther g pt ids r i p) ∧
    (q.filter fun p => Bd1KeyExchange.own p.cmd).Nodup := by
  have hscript : ∀ k s t w, NodeOk g pt ids r draw k s t w → w <+: script g pt r k :=
    fun k s t w h => h.wrote
  refine ⟨fun p hp hown => ?_, Network.heard_nodup hscript h fun k _ => ?_⟩
  · obtain ⟨k, hk, -, o, ho, rfl, -⟩ := Network.heard_script hscript h hp hown
    refine ⟨k, hk, ?_⟩
    rcases List.mem_cons.mp ho with rfl | ho
    · exact .inl rfl
    · exact .inr (by rw [List.mem_singleton.mp ho])
  · have hroute : ∀ cmd bytes, Network.route ids k i (bufferPacket broadcastAddr cmd bytes) =
        some ((bufferPacket broadcastAddr cmd bytes).pkt (ids k)) :=
      fun cmd bytes => if_pos (.inl rfl)
    rw [script, zPacket, xPacket, List.filterMap_cons_some (hroute _ _),
      List.filterMap_cons_some (hroute _ _), List.filterMap_nil, List.nodup_cons]
    refine ⟨fun hc => ?_, List.nodup_singleton _⟩
    have hcmd := congrArg Pkt.cmd (List.mem_singleton.mp hc)
    exact absurd (show cmdBd1Zi = cmdBd1Xi from hcmd) (by decide)

omit hdraw in
theorem NodeOk.update (h : NodeOk g pt ids r draw i x t w) {q : List Pkt}
    (hq : Network.Heard Bd1KeyExchange.own ids (NodeOk g pt ids r draw) i (t ++ q)) :
    NodeOk g pt ids r draw i (Bd1KeyExchange.update (ids i) q x).state
      (t ++ (Bd1KeyExchange.update (ids i) q x).taken q)
      (w ++ (Bd1KeyExchange.update (ids i) q x).wrote) := by
  obtain ⟨hother, hnodup⟩ := heard_fromOther hq
  by_cases hrun : x.status = .running
  · obtain ⟨prev, next, sent, h⟩ := h.running hrun
    obtain ⟨prev', next', hread⟩ := h.readLoop hE hplen hr hids
      fun p hp => hother p (List.mem_append_right t hp)
    have hcase := update_cases (ids i) q hrun
    have htaken : (Bd1KeyExchange.update (ids i) q x).taken q =
        q.take (q.length - (Bd1KeyExchange.readLoop q x).2.length) := by
      rw [Act.taken, hcase.rest_eq]
    have hsub : t ++ q.take (q.length - (Bd1KeyExchange.readLoop q x).2.length) <+:
        t ++ q := (List.prefix_append_right_inj t).mpr (List.take_prefix _ q)
    rw [htaken]
    generalize q.take (q.length - (Bd1KeyExchange.readLoop q x).2.length) = took,
      (Bd1KeyExchange.readLoop q x).1 = y, (Bd1KeyExchange.readLoop q x).2 = rest,
      Bd1KeyExchange.update (ids i) q x = a at hread hcase hsub ⊢
    cases hcase with
    | noValue => exact .of_error rfl (by rw [List.append_nil]; exact hread.wrote_begins)
    | noKey hown =>
        obtain ⟨_, _, _, h'⟩ := hread.ownValue hE hplen hr hown
        exact .of_error rfl h'.wrote_begins
    | wait hown =>
        obtain ⟨_, _, _, h'⟩ := hread.ownValue hE hplen hr hown
        exact h'.nodeOk
    | @done y' w' key hown hlen hkey =>
        obtain ⟨_, _, sent', h'⟩ := hread.ownValue hE hplen hr hown
        rw [h'.nodes, Agreement.card_nodeset (ids_injective hids)] at hlen hkey
        obtain ⟨rfl, hqueue⟩ := h'.full hids
          (fun p hp => hother p (hsub.subset hp))
          (hnodup.sublist (hsub.sublist.filter _)) hlen
        have heq := h'.key hE hplen hr hids hqueue hkey
        refine ⟨h'.wrote_begins, ?_, ?_, fun _ => ?_⟩
        · intro hs
          cases hs
        · intro hs
          cases hs
        · rw [← heq]
          have htake := take_memcpy (Nat.zero_le y'.keyBuffer.length) key
          simpa [Bd1KeyExchange.key] using htake
  · rw [update_idle (ids i) q hrun, List.append_nil, Act.taken_of_rest rfl,
      List.append_nil]
    exact h

end Node

end Packets

theorem speaks (g : EcpGroup) (ids : Fin (m + 2) → UInt16) :
    Network.Speaks (fun i => bd1KeyExchange g (ids i)) Bd1KeyExchange.own where
  reads := fun i q k => update_rest (ids i) q k
  init := fun i nodes k => own_init g (ids i) nodes k
  update := fun i q k => own_update (ids i) q k

/-- The nodes with their exchanges after a run. -/
def runOf (g : EcpGroup) (ids : Fin (m + 2) → UInt16) (draw : Fin (m + 2) → Nat → Nat)
    (acts : List (Network.Action (m + 2))) : Network.Net Bd1KeyExchange (m + 2) :=
  Network.run (fun i => bd1KeyExchange g (ids i)) Bd1KeyExchange.own ids
    (fun i => .new g (some (draw i))) acts

/-- Over links that lose nothing and keep the order, in every run, every node
that has completed holds the key of the sum over all edges of the ring. The curve
is one with coordinates of 32 bytes. -/
theorem edges_agree (hE : g.Exact pt) (hplen : g.plen = 32)
    (hids : ∀ i j, i < j → ids i < ids j) {draw : Fin (m + 2) → Nat → Nat}
    (hdraw : ∀ k, g.drawScalar (draw k) 30 0 = .ok (r k))
    (acts : List (Network.Action (m + 2))) (i : Fin (m + 2))
    (hi : ((runOf g ids draw acts).node i).state.status = .completed) :
    ((runOf g ids draw acts).node i).state.key =
      keyOf g (pt (∑ k, (r k : ZMod g.N) * r (k + 1))) := by
  have hr : ∀ k, 0 < r k ∧ r k < g.N := fun k => drawScalar_range (hdraw k)
  have hrun := Network.run_rule (P := NodeOk g pt ids r draw) (speaks g ids)
    (ids_injective hids) (s := fun i => Bd1KeyExchange.new g (some (draw i)))
    (fun i => .ofNew i)
    (fun i k t w h => h.init hE hplen hids hdraw)
    (fun i k t w q h hq => h.update hE hplen hr hids hq) acts
  exact (hrun.2 i).completed hi

end Exact

/-! ## Three nodes -/

/-- Every node starts and hears the points of the others, then all differences. -/
def threeRun : List (Network.Action 3) :=
  let all : List (Network.Action 3) := [.deliver 0 1, .deliver 0 2, .deliver 1 0,
    .deliver 1 2, .deliver 2 0, .deliver 2 1, .call 0 .update, .call 1 .update,
    .call 2 .update]
  [.call 0 .init, .call 1 .init, .call 2 .init] ++ all ++ all

theorem edges_agree_three :
    ((runOf sevenPoints Agreement.threeIds (fun i _ => Agreement.fourTwoOne i)
      threeRun).node 0).state.key =
      keyOf sevenPoints (sevenPt (∑ k : Fin 3, ((Agreement.fourTwoOne k : Int) :
        ZMod sevenPoints.N) * ((Agreement.fourTwoOne (k + 1) : Int) :
          ZMod sevenPoints.N))) := by
  have hdraw : ∀ i : Fin 3, sevenPoints.drawScalar
      (fun _ => Agreement.fourTwoOne i) 30 0 = .ok (Agreement.fourTwoOne i) := by
    decide
  exact edges_agree (m := 1) sevenPoints_exact (by decide) (by decide) hdraw threeRun 0
    (by decide +kernel)

end Cycle

end LibSmoke
