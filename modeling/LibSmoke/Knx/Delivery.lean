import LibSmoke.Knx.Reassembly

/-!
# Delivery on a clean link

Fragmentation and reassembly are inverse, whatever the interleaving: a receiver
whose table has a slot for every sender ends with exactly the packets meant for
it, sender by sender and in order, as long as each of them fits a ring.

The lanes reduce this to one sender. With a slot for everybody no telegram is
lost to the table (`kept_of_room`), so what a lane sees of a sender is the
telegrams of the packets meant for the receiver, and those it puts together
(`laneRun_packets`).
-/

namespace LibSmoke

namespace PktWrapper

/-- The longest body a ring can hold together with its header. -/
def maxBody : Nat := ringCapacity - 3

/-- What a node with nothing to send has queued after writing these packets. -/
def queued (src : UInt16) (ps : List Outgoing) (max : Nat)
    (hmax : max < 2 ^ 64) : List Telegram :=
  (ps.foldl (fun w p => (write src w p).1) (new max hmax)).outQ

theorem foldl_write (src : UInt16) (ps : List Outgoing) (w : PktWrapper) :
    ps.foldl (fun w p => (write src w p).1) w =
      { w with outQ := w.outQ ++ ps.flatMap (telegramsOf src) } := by
  induction ps generalizing w with
  | nil => rw [List.flatMap_nil, List.append_nil]; rfl
  | cons p ps ih =>
      rw [List.foldl_cons, ih, List.flatMap_cons, write, List.append_assoc]

@[simp] theorem queued_eq (src : UInt16) (ps : List Outgoing) (max : Nat)
    (hmax : max < 2 ^ 64) :
    queued src ps max hmax = ps.flatMap (telegramsOf src) := by
  rw [queued, foldl_write]
  rfl

/-- Over any number of updates, a wrapper with nothing to send has received
what the backend read. -/
theorem updates_eq {β ε : Type} {B : Backend β ε} {I : β → Prop}
    (h : B.Steady I) (id : UInt16) (es : List ε) {b : β} (hb : I b)
    {w : PktWrapper} (hw : w.outQ = []) :
    ∃ b', updates B id es b w = some (b', recvAll id w (B.received es b)) := by
  induction es generalizing b w with
  | nil => exact ⟨b, rfl⟩
  | cons e es ih =>
      have hupd := h.update e hb
      have hempty : { w with outQ := [] } = w := by rw [← hw]
      obtain ⟨b', hrest⟩ := ih (h.drain hupd).1
        (((recvAll_eq id w _).2.2).trans hw)
      refine ⟨b', ?_⟩
      rw [updates, update_eq h id e hb w
        (show (B.update e b).1 = _ by rw [hw]; rfl), hempty]
      simp only []
      rw [hrest, Backend.received, recvAll, recvAll, recvAll, List.foldl_append]

theorem update_mailbox (id : UInt16) (ts on out : List Telegram)
    (w : PktWrapper) :
    update mailbox id ts (on, out) w = some (([], out ++ w.outQ),
      recvAll id { w with outQ := [] } (on ++ ts)) := by
  rw [update_eq mailbox_steady id ts trivial w rfl]
  show some ((mailbox.drain (mailbox.flush w.outQ (on ++ ts, out)).1.length
    (mailbox.flush w.outQ (on ++ ts, out))).1, recvAll id _
      (mailbox.drain (mailbox.flush w.outQ (on ++ ts, out)).1.length
        (mailbox.flush w.outQ (on ++ ts, out))).2) = _
  rw [mailbox_flush, mailbox_drain]

/-- The telegrams of one packet, at a receiver that has nothing of its source. -/
theorem inQ_telegramsOf {S : List UInt16} {id src : UInt16} {w : PktWrapper}
    {p : Outgoing} (hroom : Room S w) (hsrc : src ∈ S) (hne : src ≠ id)
    (hempty : w.buffers.bytes src = []) (hfor : Outgoing.isFor id p = true)
    (hfit : p.body.length + 3 ≤ ringCapacity) :
    (recvAll id w (telegramsOf src p)).inQ = w.inQ ++ [p.pkt src] := by
  have hall := addressed_telegramsOf src p
  rw [(recvAll_eq id w _).2.1,
    kept_of_room hroom fun t ht _ => (hall t ht).1 ▸ hsrc,
    accepts_telegramsOf hne, if_pos hfor,
    Keyed.run_one lanes _ fun t ht => (hall t ht).1, hempty,
    laneRun_packet src hfit]

/-- A sender's telegrams at a receiver with room for everybody: its packets for
that receiver. -/
theorem laneRun_sender {id src : UInt16} (hne : src ≠ id) {ps : List Outgoing}
    (hfit : ∀ p ∈ ps, p.body.length ≤ maxBody) :
    Keyed.laneRun lanes []
        ((ps.flatMap (telegramsOf src)).filter (accepts id)) =
      ([], (ps.filter (Outgoing.isFor id)).map (Outgoing.pkt src)) := by
  rw [accepts_flatMap hne]
  refine laneRun_packets src fun p hp => ?_
  have := hfit p (List.mem_of_mem_filter hp)
  rw [maxBody, ringCapacity] at this
  rw [ringCapacity]
  omega

/-- A new receiver with a slot for every sender, after any number of updates
that brought it an interleaving of what the senders queued: it holds, of every
sender, the packets for it, in order, and nothing of anybody else. -/
theorem reassembly_of_interleaving {max : Nat} (hmax : max < 2 ^ 64)
    {β ε : Type} {B : Backend β ε} {I : β → Prop} (hB : B.Steady I) {b : β}
    (hb : I b) {id : UInt16} {senders : Finset UInt16}
    (hcard : senders.card ≤ max) (hid : id ∉ senders)
    (sent : UInt16 → List Outgoing)
    (hfit : ∀ s ∈ senders, ∀ p ∈ sent s, p.body.length ≤ maxBody)
    {es : List ε} (hmix : Keyed.Mixes lanes
      (fun s => if s ∈ senders then queued s (sent s) max hmax else [])
      (B.received es b)) :
    ∃ b' w, updates B id es b (new max hmax) = some (b', w) ∧
      (∀ s ∈ senders, w.inQ.filter (fun p => p.src = s) =
        ((sent s).filter (Outgoing.isFor id)).map (Outgoing.pkt s)) ∧
      ∀ p ∈ w.inQ, p.src ∈ senders := by
  obtain ⟨b', hrun⟩ := updates_eq hB id es hb
    (rfl : (new max hmax).outQ = [])
  have hroom : Room senders.toList (new max hmax) :=
    room_new hmax (by rw [Finset.length_toList]; exact hcard)
  have hsrc : ∀ t ∈ B.received es b, t.src ∈ senders := by
    intro t ht
    by_contra hne
    have honly : t ∈ Keyed.only lanes t.src (B.received es b) :=
      List.mem_filter.mpr ⟨ht, by simp [lanes]⟩
    rw [hmix t.src] at honly
    simp only [if_neg hne, List.not_mem_nil] at honly
  have hkept : kept id (new max hmax) (B.received es b) =
      (B.received es b).filter (accepts id) :=
    kept_of_room hroom fun t ht _ => Finset.mem_toList.mpr (hsrc t ht)
  -- the lane of `s`: its own telegrams, of which it keeps the accepted ones
  have hlane : ∀ s, (recvAll id (new max hmax) (B.received es b)).inQ.filter
      (fun p => p.src = s) =
        (Keyed.laneRun lanes [] ((if s ∈ senders then
          queued s (sent s) max hmax else []).filter (accepts id))).2 := by
    intro s
    obtain ⟨-, hin⟩ := recvAll_source id (new max hmax) (B.received es b) s
    have honly : Keyed.only lanes s ((B.received es b).filter (accepts id)) =
        (Keyed.only lanes s (B.received es b)).filter (accepts id) := by
      rw [Keyed.only, Keyed.only, List.filter_filter, List.filter_filter]
      exact List.filter_congr fun t _ => Bool.and_comm _ _
    rw [hin, hkept, honly, hmix s]
    simp [new]
  refine ⟨b', _, hrun, fun s hs => ?_, fun p hp => ?_⟩
  · have hne : s ≠ id := fun heq => hid (heq ▸ hs)
    rw [hlane s, if_pos hs, queued_eq, laneRun_sender hne (hfit s hs)]
  · by_contra hne
    have hnone := hlane p.src
    rw [if_neg hne] at hnone
    exact absurd (decide_eq_true rfl)
      (List.filter_eq_nil_iff.mp hnone p hp)

/-- Two senders, two telegrams of the first around the only one of the second,
which goes to somebody else. -/
theorem reassembly_of_interleaving_two :
    let p : Outgoing := ⟨3, 7, List.replicate 14 0, by decide⟩
    let q : Outgoing := ⟨9, 8, [], by decide⟩
    let first := telegramsOf 1 p
    ∃ b' w, updates mailbox 3 [first.take 1 ++ telegramsOf 2 q, first.drop 1]
        ([], []) (new 2 (by decide)) = some (b', w) ∧
      (∀ s ∈ ({1, 2} : Finset UInt16), w.inQ.filter (fun p => p.src = s) =
        ((if s = 1 then [p] else [q]).filter (Outgoing.isFor 3)).map
          (Outgoing.pkt s)) ∧
      ∀ p ∈ w.inQ, p.src ∈ ({1, 2} : Finset UInt16) := by
  intro p q first
  refine reassembly_of_interleaving (by decide) mailbox_steady trivial
    (by decide) (by decide) (fun s => if s = 1 then [p] else [q]) ?_ ?_
  · intro s _ r hr
    split at hr <;> (rw [List.mem_singleton.mp hr]; decide)
  · intro s
    by_cases h1 : s = 1
    · subst h1
      decide
    · by_cases h2 : s = 2
      · subst h2
        decide
      · have hs : s ∉ ({1, 2} : Finset UInt16) := by simp [h1, h2]
        simp only [if_neg hs]
        refine List.filter_eq_nil_iff.mpr fun t ht => ?_
        have hsrc : t.src = 1 ∨ t.src = 2 := by
          revert t
          decide
        intro hts
        obtain rfl : t.src = s := of_decide_eq_true hts
        exact hsrc.elim h1 h2

end PktWrapper

end LibSmoke
