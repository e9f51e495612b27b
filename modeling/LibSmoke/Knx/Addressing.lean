import LibSmoke.Knx.Overlong

/-!
# Who gets a packet

Nodes write packets and call `update`, and a relay that loses nothing brings every
node an interleaving of what all nodes put on the wire, its own telegrams included.
What ends in the `_in` queue of a node is then decided telegram by telegram: by the
two tests of the destination, by the test of the source, and by the ring of the
source, which a packet that is too long blocks for good.

The broadcast address is not set apart from the ids. A packet for the node that has
drawn it reaches all the others too (`exact_iff`).
-/

namespace LibSmoke

namespace PktWrapper

/-! ## What one node does -/

/-- What a node does: it writes a packet, or it calls `update`, which brings it
telegrams. -/
inductive Act where
  | write (p : Outgoing)
  | update (ts : List Telegram)

/-- A node: its link and its packet layer. -/
structure Node where
  link : List Telegram × List Telegram
  layer : PktWrapper

/-- One action of the node with the given id, if it returns. -/
def act (id : UInt16) (n : Node) : Act → Option Node
  | .write p => some ⟨n.link, (write id n.layer p).1⟩
  | .update ts => (update mailbox id ts n.link n.layer).map fun r => ⟨r.1, r.2⟩

/-- A node that has done nothing yet. -/
def fresh (max : Nat) (hmax : max < 2 ^ 64) : Node := ⟨([], []), new max hmax⟩

/-- The packets written, and the telegrams read. -/
def writes (acts : List Act) : List Outgoing :=
  acts.filterMap fun
    | .write p => some p
    | .update _ => none

def reads (acts : List Act) : List Telegram :=
  acts.flatMap fun
    | .write _ => []
    | .update ts => ts

/-- What is queued for sending plays no part in receiving. -/
theorem recvAll_outQ (id : UInt16) (w : PktWrapper) (out : List Telegram)
    (ts : List Telegram) :
    recvAll id { w with outQ := out } ts = { recvAll id w ts with outQ := out } := by
  induction ts generalizing w with
  | nil => rfl
  | cons t ts ih =>
      have hone : recvOne id { w with outQ := out } t =
          { recvOne id w t with outQ := out } := by
        rw [recvOne, recvOne]
        split
        · rw [recompose, recompose]
          split
          · rfl
          · split
            · rfl
            · simp only []
              split <;> rfl
        · rfl
      show recvAll id (recvOne id { w with outQ := out } t) ts = _
      rw [hone, ih]
      rfl

/-- A node's actions all return. Its telegrams are on the wire or still queued, and
it has received what it read. -/
theorem acts_eq (id : UInt16) (acts : List Act) {n : Node} (hlink : n.link.1 = []) :
    ∃ n', acts.foldlM (act id) n = some n' ∧ n'.link.1 = [] ∧
      n'.link.2 ++ n'.layer.outQ =
        n.link.2 ++ n.layer.outQ ++ (writes acts).flatMap (telegramsOf id) ∧
      n'.layer.inQ = (recvAll id n.layer (reads acts)).inQ := by
  induction acts generalizing n with
  | nil =>
      refine ⟨n, rfl, hlink, ?_, rfl⟩
      rw [writes, List.filterMap_nil, List.flatMap_nil, List.append_nil]
  | cons a acts ih =>
      cases a with
      | write p =>
          obtain ⟨n', hrun, hlink', hwire, hin⟩ :=
            ih (n := ⟨n.link, (write id n.layer p).1⟩) hlink
          refine ⟨n', hrun, hlink', ?_, ?_⟩
          · rw [hwire]
            show n.link.2 ++ (n.layer.outQ ++ telegramsOf id p) ++ _ =
              n.link.2 ++ n.layer.outQ ++ (p :: writes acts).flatMap (telegramsOf id)
            rw [List.flatMap_cons]
            simp only [List.append_assoc]
          · rw [hin]
            show (recvAll id { n.layer with outQ := _ } (reads acts)).inQ =
              (recvAll id n.layer (reads acts)).inQ
            rw [recvAll_outQ]
      | update ts =>
          obtain ⟨⟨on, out⟩, layer⟩ := n
          obtain rfl : on = [] := hlink
          have hupd := update_mailbox id ts [] out layer
          obtain ⟨n', hrun, hlink', hwire, hin⟩ :=
            ih (n := ⟨([], out ++ layer.outQ), recvAll id { layer with outQ := [] } ts⟩) rfl
          have hout : (recvAll id { layer with outQ := [] } ts).outQ = [] :=
            (recvAll_eq id _ ts).2.2
          refine ⟨n', ?_, hlink', ?_, ?_⟩
          · show ((update mailbox id ts ([], out) layer).map _).bind _ = _
            rw [hupd]
            exact hrun
          · rw [hwire, hout, List.append_nil]
            rfl
          · have happend : recvAll id (recvAll id { layer with outQ := [] } ts) (reads acts) =
                recvAll id { layer with outQ := [] } (ts ++ reads acts) :=
              (List.foldl_append ..).symm
            rw [hin]
            show (recvAll id (recvAll id { layer with outQ := [] } ts) (reads acts)).inQ = _
            rw [happend, recvAll_outQ]
            rfl

/-! ## All nodes on a relay -/

/-- All nodes at the end of a run in which nothing was lost: every node has sent what
it wrote, and has read an interleaving of what all nodes sent. -/
structure Lossless (nodes : Finset UInt16) {max : Nat} (hmax : max < 2 ^ 64)
    (acts : UInt16 → List Act) (node : UInt16 → Node) : Prop where
  run : ∀ X ∈ nodes, (acts X).foldlM (act X) (fresh max hmax) = some (node X)
  sent : ∀ X ∈ nodes, (node X).layer.outQ = []
  relayed : ∀ X ∈ nodes, Keyed.Mixes lanes
    (fun s => if s ∈ nodes then (node s).link.2 else []) (reads (acts X))

/-- Who gets what: a packet written to the id of another node is as often in the
queue of that node as it was written, and in no other, and one written to the
broadcast address is in the queue of every node but the writer. -/
def Exact (nodes : Finset UInt16) (sent : UInt16 → List Outgoing)
    (inQ : UInt16 → List Pkt) : Prop :=
  ∀ A ∈ nodes, ∀ p ∈ sent A,
    (∀ X ∈ nodes, X ≠ A → p.dest = X → ∀ Y ∈ nodes, (inQ Y).count (p.pkt A) =
      if Y = X then ((sent A).map (Outgoing.pkt A)).count (p.pkt A) else 0) ∧
    (p.dest = broadcastAddr → ∀ Y ∈ nodes, (inQ Y).count (p.pkt A) =
      if Y = A then 0 else ((sent A).map (Outgoing.pkt A)).count (p.pkt A))

/-- Every packet for another node fits a ring. -/
def AllFit (nodes : Finset UInt16) (sent : UInt16 → List Outgoing) : Prop :=
  ∀ A ∈ nodes, ∀ p ∈ sent A, ∀ X ∈ nodes, X ≠ A → Outgoing.isFor X p = true →
    p.body.length ≤ maxBody

/-- The broadcast address is nobody's id, or there is nobody who could tell. -/
def Apart (nodes : Finset UInt16) (sent : UInt16 → List Outgoing) : Prop :=
  broadcastAddr ∈ nodes → nodes.card ≤ 2 ∨
    ∀ A ∈ nodes, A ≠ broadcastAddr → ∀ p ∈ sent A, p.dest ≠ broadcastAddr

section Relay

variable {nodes : Finset UInt16} {max : Nat} {hmax : max < 2 ^ 64}
  {acts : UInt16 → List Act} {node : UInt16 → Node}

theorem wire_eq (h : Lossless nodes hmax acts node) {s : UInt16} (hs : s ∈ nodes) :
    (node s).link.2 = (writes (acts s)).flatMap (telegramsOf s) := by
  obtain ⟨n, hrun, -, hwire, -⟩ := acts_eq s (acts s) (n := fresh max hmax) rfl
  obtain rfl : n = node s := Option.some.inj (hrun.symm.trans (h.run s hs))
  rw [h.sent s hs, List.append_nil] at hwire
  exact hwire

/-- What a node holds of a source: what the lane of the source makes of the packets
for that node. -/
theorem inQ_source (h : Lossless nodes hmax acts node) (hcard : nodes.card ≤ max)
    {X : UInt16} (hX : X ∈ nodes) (s : UInt16) :
    (node X).layer.inQ.filter (fun q => q.src = s) =
      if s ∈ nodes ∧ s ≠ X then
        (Keyed.laneRun lanes [] (((writes (acts s)).filter (Outgoing.isFor X)).flatMap
          (telegramsOf s))).2
      else [] := by
  obtain ⟨n, hrun, -, -, hin⟩ := acts_eq X (acts X) (n := fresh max hmax) rfl
  obtain rfl : n = node X := Option.some.inj (hrun.symm.trans (h.run X hX))
  have hroom : Room nodes.toList (new max hmax) :=
    room_new hmax (by rw [Finset.length_toList]; exact hcard)
  have hmix : ∀ s, Keyed.only lanes s (reads (acts X)) =
      if s ∈ nodes then (node s).link.2 else [] := h.relayed X hX
  have hsrc : ∀ t ∈ reads (acts X), accepts X t = true → t.src ∈ nodes.toList := by
    intro t ht _
    by_contra hne
    have honly : t ∈ Keyed.only lanes t.src (reads (acts X)) :=
      List.mem_filter.mpr ⟨ht, by simp [lanes]⟩
    rw [hmix t.src, if_neg (fun hc => hne (Finset.mem_toList.mpr hc))] at honly
    cases honly
  rw [hin]
  refine (inQ_of_room hroom (Rings.bytes_new hmax s) hsrc).trans ?_
  rw [hmix s]
  by_cases hs : s ∈ nodes
  · rw [if_pos hs, wire_eq h hs]
    by_cases hne : s = X
    · subst hne
      have hown : ((writes (acts s)).flatMap (telegramsOf s)).filter (accepts s) = [] := by
        refine List.filter_eq_nil_iff.mpr fun t ht => ?_
        obtain ⟨p, -, ht⟩ := List.mem_flatMap.mp ht
        simp [accepts, (addressed_telegramsOf s p t ht).1]
      rw [hown, if_neg fun hc => hc.2 rfl]
      rfl
    · rw [accepts_flatMap hne, if_pos ⟨hs, hne⟩]
      rfl
  · rw [if_neg hs, if_neg fun hc => hs hc.1]
    rfl

/-- Nothing of a node's own is in its queue. -/
theorem count_own (h : Lossless nodes hmax acts node) (hcard : nodes.card ≤ max)
    {A : UInt16} (hA : A ∈ nodes) (p : Outgoing) :
    (node A).layer.inQ.count (p.pkt A) = 0 := by
  have hnone := inQ_source h hcard hA A
  rw [if_neg fun hc => hc.2 rfl] at hnone
  rw [← List.count_filter (p := fun q => q.src = A) (decide_eq_true rfl), hnone]
  rfl

/-- If the packets for a node fit, it holds all of them. -/
theorem count_fit (h : Lossless nodes hmax acts node) (hcard : nodes.card ≤ max)
    {A Y : UInt16} (hA : A ∈ nodes) (hY : Y ∈ nodes) (hne : Y ≠ A)
    (hfit : ∀ p ∈ writes (acts A), Outgoing.isFor Y p = true → p.body.length ≤ maxBody)
    (p : Outgoing) :
    (node Y).layer.inQ.count (p.pkt A) = if Outgoing.isFor Y p = true
      then ((writes (acts A)).map (Outgoing.pkt A)).count (p.pkt A) else 0 := by
  have hsource := inQ_source h hcard hY A
  have hlane : Keyed.laneRun lanes []
      (((writes (acts A)).filter (Outgoing.isFor Y)).flatMap (telegramsOf A)) =
        ([], ((writes (acts A)).filter (Outgoing.isFor Y)).map (Outgoing.pkt A)) := by
    refine laneRun_packets A fun q hq => ?_
    obtain ⟨hq, hfor⟩ := List.mem_filter.mp hq
    have hlen := hfit q hq hfor
    rw [maxBody, ringCapacity] at hlen
    rw [ringCapacity]
    omega
  rw [if_pos ⟨hA, Ne.symm hne⟩, hlane] at hsource
  rw [← List.count_filter (p := fun q => q.src = A) (decide_eq_true rfl), hsource]
  -- packets that look the same are for the same nodes
  have hsame : ∀ q : Outgoing, q.pkt A = p.pkt A →
      Outgoing.isFor Y q = Outgoing.isFor Y p := by
    intro q hq
    have hdest : q.dest = p.dest := congrArg Pkt.dest hq
    rw [Outgoing.isFor, Outgoing.isFor, hdest]
  rw [List.count_eq_countP, List.count_eq_countP, List.countP_map, List.countP_map,
    List.countP_filter]
  cases hfor : Outgoing.isFor Y p with
  | true =>
      rw [if_pos rfl]
      refine List.countP_congr fun q _ => ?_
      simp only [Function.comp_apply, Bool.and_eq_true, beq_iff_eq]
      exact ⟨And.left, fun hq => ⟨hq, (hsame q hq).trans hfor⟩⟩
  | false =>
      rw [if_neg Bool.false_ne_true, List.countP_eq_zero]
      intro q _ hq
      simp only [Function.comp_apply, Bool.and_eq_true, beq_iff_eq] at hq
      rw [hsame q hq.1, hfor] at hq
      exact Bool.false_ne_true hq.2

/-- The first packet for a node that does not fit is not in its queue. -/
theorem count_overlong (h : Lossless nodes hmax acts node) (hcard : nodes.card ≤ max)
    {A Y : UInt16} (hA : A ∈ nodes) (hY : Y ∈ nodes) (hne : Y ≠ A)
    {p : Outgoing} (hp : p ∈ writes (acts A)) (hfor : Outgoing.isFor Y p = true)
    (hlong : maxBody < p.body.length) :
    ∃ q ∈ writes (acts A), Outgoing.isFor Y q = true ∧ maxBody < q.body.length ∧
      (node Y).layer.inQ.count (q.pkt A) = 0 := by
  have hmem : p ∈ (writes (acts A)).filter (Outgoing.isFor Y) :=
    List.mem_filter.mpr ⟨hp, hfor⟩
  have hsome : ((writes (acts A)).filter (Outgoing.isFor Y)).find?
      (fun q => decide (maxBody < q.body.length)) ≠ none := by
    intro hnone
    exact absurd hlong (by simpa using List.find?_eq_none.mp hnone p hmem)
  obtain ⟨q, hq⟩ := Option.ne_none_iff_exists'.mp hsome
  obtain ⟨hql, before, rest, hsplit, hshort⟩ := List.find?_eq_some_iff_append.mp hq
  have hql : maxBody < q.body.length := of_decide_eq_true hql
  have hqmem : q ∈ (writes (acts A)).filter (Outgoing.isFor Y) := by
    rw [hsplit]
    simp
  obtain ⟨hqw, hqfor⟩ := List.mem_filter.mp hqmem
  have hsource := inQ_source h hcard hY A
  have hbefore : Keyed.laneRun lanes [] (before.flatMap (telegramsOf A)) =
      ([], before.map (Outgoing.pkt A)) := by
    refine laneRun_packets A fun r hr => ?_
    have hlen := hshort r hr
    simp only [Bool.not_eq_true', decide_eq_false_iff_not, Nat.not_lt] at hlen
    rw [maxBody, ringCapacity] at hlen
    rw [ringCapacity]
    omega
  rw [if_pos ⟨hA, Ne.symm hne⟩, hsplit, List.flatMap_append, Keyed.laneRun_append, hbefore,
    List.flatMap_cons] at hsource
  simp only [] at hsource
  rw [laneRun_overlong A hql, List.append_nil] at hsource
  refine ⟨q, hqw, hqfor, hql, ?_⟩
  rw [← List.count_filter (p := fun q => q.src = A) (decide_eq_true rfl), hsource,
    List.count_eq_zero]
  intro hmap
  obtain ⟨r, hr, hrq⟩ := List.mem_map.mp hmap
  have hlen := hshort r hr
  have hbody : r.body = q.body := congrArg Pkt.data hrq
  simp only [Bool.not_eq_true', decide_eq_false_iff_not, Nat.not_lt, hbody] at hlen
  omega

theorem isFor_iff {Y : UInt16} {p : Outgoing} :
    Outgoing.isFor Y p = true ↔ p.dest = broadcastAddr ∨ p.dest = Y := by
  rw [Outgoing.isFor, Bool.or_eq_true, beq_iff_eq, beq_iff_eq]

/-- Of a packet that is written for another node every queue it is for has one. -/
theorem Exact.count_pos {sent : UInt16 → List Outgoing} {inQ : UInt16 → List Pkt}
    (h : Exact nodes sent inQ) {A X : UInt16} (hA : A ∈ nodes) (hX : X ∈ nodes)
    (hne : X ≠ A) {p : Outgoing} (hp : p ∈ sent A) (hfor : Outgoing.isFor X p = true) :
    0 < (inQ X).count (p.pkt A) := by
  have hpos : 0 < ((sent A).map (Outgoing.pkt A)).count (p.pkt A) :=
    List.count_pos_iff.mpr (List.mem_map_of_mem hp)
  obtain ⟨hone, hall⟩ := h A hA p hp
  rcases isFor_iff.mp hfor with hdest | hdest
  · rw [hall hdest X hX, if_neg hne]
    exact hpos
  · rw [hone X hX hne hdest X hX, if_pos rfl]
    exact hpos

theorem Exact.allFit (h : Lossless nodes hmax acts node) (hcard : nodes.card ≤ max)
    (hexact : Exact nodes (fun A => writes (acts A)) fun X => (node X).layer.inQ) :
    AllFit nodes fun A => writes (acts A) := by
  intro A hA p hp X hX hne hfor
  by_contra hlong
  obtain ⟨q, hq, hqfor, -, hcount⟩ := count_overlong h hcard hA hX hne hp hfor
    (Nat.lt_of_not_le hlong)
  have hpos := hexact.count_pos hA hX hne hq hqfor
  exact absurd hcount (Nat.ne_of_gt hpos)

/-- A third node would get what is written to a node with the broadcast address. -/
theorem Exact.apart {sent : UInt16 → List Outgoing} {inQ : UInt16 → List Pkt}
    (h : Exact nodes sent inQ) : Apart nodes sent := by
  intro hzero
  by_contra hnot
  rw [not_or] at hnot
  obtain ⟨hthree, hsent⟩ := hnot
  simp only [not_forall, not_not, exists_prop] at hsent
  obtain ⟨A, hA, hne, p, hp, hdest⟩ := hsent
  have hpair : ({A, broadcastAddr} : Finset UInt16).card < nodes.card :=
    Nat.lt_of_le_of_lt Finset.card_le_two (Nat.lt_of_not_le hthree)
  obtain ⟨Y, hY, hYpair⟩ := Finset.exists_mem_notMem_of_card_lt_card hpair
  rw [Finset.mem_insert, Finset.mem_singleton, not_or] at hYpair
  obtain ⟨hYA, hYzero⟩ := hYpair
  have hnone := (h A hA p hp).1 broadcastAddr hzero (Ne.symm hne) hdest Y hY
  have hpos := h.count_pos hA hY hYA hp (isFor_iff.mpr (.inl hdest))
  rw [hnone, if_neg hYzero] at hpos
  exact Nat.lt_irrefl 0 hpos

/-- A packet to the id of another node is for no third one. -/
theorem Apart.isFor_iff_eq {sent : UInt16 → List Outgoing} (h : Apart nodes sent)
    {A X Y : UInt16} (hA : A ∈ nodes) (hX : X ∈ nodes) (hXA : X ≠ A) (hY : Y ∈ nodes)
    (hYA : Y ≠ A) {p : Outgoing} (hp : p ∈ sent A) (hdest : p.dest = X) :
    Outgoing.isFor Y p = true ↔ Y = X := by
  rw [isFor_iff, hdest]
  constructor
  · rintro (hzero | hXY)
    · subst hzero
      rcases h hX with htwo | hnone
      · by_contra hYX
        have hthree : 2 < nodes.card := Finset.two_lt_card.mpr
          ⟨A, hA, broadcastAddr, hX, Y, hY, Ne.symm hXA, Ne.symm hYA, Ne.symm hYX⟩
        omega
      · exact absurd hdest (hnone A hA (Ne.symm hXA) p hp)
    · exact hXY.symm
  · exact fun hY => .inr hY.symm

/-- On a relay that loses nothing, packets get to whom they are addressed and to
nobody else, exactly if those for another node fit a ring, and no packet goes to a
node that has the broadcast address for an id while a third node is there. -/
theorem exact_iff (h : Lossless nodes hmax acts node) (hcard : nodes.card ≤ max) :
    Exact nodes (fun A => writes (acts A)) (fun X => (node X).layer.inQ) ↔
      AllFit nodes (fun A => writes (acts A)) ∧ Apart nodes (fun A => writes (acts A)) := by
  refine ⟨fun hexact => ⟨hexact.allFit h hcard, hexact.apart⟩, ?_⟩
  rintro ⟨hfit, hapart⟩ A hA p hp
  constructor
  · intro X hX hXA hdest Y hY
    by_cases hYA : Y = A
    · subst hYA
      rw [if_neg (Ne.symm hXA)]
      exact count_own h hcard hY p
    · have hcount := count_fit h hcard hA hY hYA (fun q hq => hfit A hA q hq Y hY hYA) p
      rw [if_congr (hapart.isFor_iff_eq hA hX hXA hY hYA hp hdest) rfl rfl] at hcount
      exact hcount
  · intro hdest Y hY
    by_cases hYA : Y = A
    · subst hYA
      rw [if_pos rfl]
      exact count_own h hcard hY p
    · have hcount := count_fit h hcard hA hY hYA (fun q hq => hfit A hA q hq Y hY hYA) p
      rw [if_pos (isFor_iff.mpr (.inl hdest))] at hcount
      rw [if_neg hYA]
      exact hcount

end Relay

/-! ## Three nodes, one of which has drawn the broadcast address -/

theorem length_nil_lt : ([] : List UInt8).length < 2 ^ 16 := Nat.two_pow_pos 16

/-- Node 1 writes an empty packet to node 0. -/
def toZero : Outgoing := ⟨0, 7, [], length_nil_lt⟩

def zeroActs (X : UInt16) : List Act :=
  if X = 1 then [.write toZero, .update (telegramsOf 1 toZero)]
  else [.update (telegramsOf 1 toZero)]

theorem reads_zeroActs (X : UInt16) : reads (zeroActs X) = telegramsOf 1 toZero := by
  rw [zeroActs]
  split <;> rfl

def freshNode : Node := fresh 3 (by decide)

/-- The nodes at the end of that run. -/
def zeroNode (X : UInt16) : Node := ((zeroActs X).foldlM (act X) freshNode).getD freshNode

theorem zero_lossless :
    Lossless {0, 1, 2} (show 3 < 2 ^ 64 by decide) zeroActs zeroNode where
  run X _ := by
    obtain ⟨n, hn, -⟩ := acts_eq X (zeroActs X) (n := freshNode) rfl
    have hrun : (zeroActs X).foldlM (act X) freshNode = some (zeroNode X) := by
      rw [zeroNode, hn]
      rfl
    exact hrun
  sent X hX := by
    simp only [Finset.mem_insert, Finset.mem_singleton] at hX
    rcases hX with rfl | rfl | rfl
    · rfl
    · rfl
    · rfl
  relayed X _ s := by
    have hsrc : ∀ t ∈ telegramsOf 1 toZero, t.src = 1 := fun t ht =>
      (addressed_telegramsOf 1 toZero t ht).1
    rw [reads_zeroActs]
    by_cases hone : s = 1
    · subst hone
      rfl
    · have hnone : Keyed.only lanes s (telegramsOf 1 toZero) = [] := by
        refine List.filter_eq_nil_iff.mpr fun t ht => ?_
        have hkey : lanes.key t = 1 := hsrc t ht
        simp [hkey, Ne.symm hone]
      rw [hnone]
      beta_reduce
      split
      · next hs =>
          simp only [Finset.mem_insert, Finset.mem_singleton, hone, false_or] at hs
          rcases hs with rfl | rfl
          · rfl
          · rfl
      · rfl

theorem exact_iff_zero :
    Exact {0, 1, 2} (fun A => writes (zeroActs A)) (fun X => (zeroNode X).layer.inQ) ↔
      AllFit {0, 1, 2} (fun A => writes (zeroActs A)) ∧
        Apart {0, 1, 2} (fun A => writes (zeroActs A)) :=
  exact_iff zero_lossless (by decide)

/-- Node 2 gets it too. -/
theorem zero_not_exact :
    Lossless {0, 1, 2} (show 3 < 2 ^ 64 by decide) zeroActs zeroNode ∧
      ¬ Exact {0, 1, 2} (fun A => writes (zeroActs A))
        (fun X => (zeroNode X).layer.inQ) := by
  refine ⟨zero_lossless, fun hexact => ?_⟩
  obtain ⟨hone, -⟩ := hexact 1 (by decide) toZero List.mem_cons_self
  have hnone := hone 0 (by decide) (by decide) rfl 2 (by decide)
  rw [if_neg (by decide)] at hnone
  exact absurd hnone (by decide)

end PktWrapper

end LibSmoke
