import LibSmoke.Knx.Delivery

/-!
# What a packet layer has taken in

A packet layer that was handed telegrams `T` over its life has put out packets
and holds bytes, and of each source these are what a lane makes of the accepted
telegrams of that source (`Intake`). What was read off the layer's queue in
between makes no difference.

The telegrams of a source are those of its packets in order, as far as they
have come, and so its packets are out as far as their telegrams have
(`laneRun_part`).
-/

namespace LibSmoke

namespace PktWrapper

/-- The telegrams of a source that a device accepts. -/
def lane (id src : UInt16) (ts : List Telegram) : List Telegram :=
  Keyed.only lanes src (ts.filter (accepts id))

theorem lane_append (id src : UInt16) (ts us : List Telegram) :
    lane id src (ts ++ us) = lane id src ts ++ lane id src us := by
  rw [lane, List.filter_append, Keyed.only_append]
  rfl

theorem lane_only (id src : UInt16) (ts : List Telegram) :
    lane id src ts = (Keyed.only lanes src ts).filter (accepts id) :=
  List.filter_comm _ _ _

/-- A packet of a source is there for a telegram of that source. -/
theorem exists_of_laneRun {id src : UInt16} {ts : List Telegram} {p : Pkt}
    (h : p ∈ (Keyed.laneRun lanes [] (lane id src ts)).2) :
    src ≠ id ∧ ∃ t ∈ ts, t.src = src := by
  have hsome : lane id src ts ≠ [] := by
    intro hnil
    rw [hnil] at h
    cases h
  obtain ⟨t, ht⟩ := List.exists_mem_of_ne_nil _ hsome
  obtain ⟨hin, hsrc⟩ := List.mem_filter.mp ht
  obtain ⟨hts, hacc⟩ := List.mem_filter.mp hin
  obtain rfl : t.src = src := of_decide_eq_true hsrc
  simp only [accepts, Bool.and_eq_true, bne_iff_ne] at hacc
  exact ⟨hacc.1.2, t, hts, rfl⟩

/-- A packet layer that was handed `ts`; `out` was read off its queue. -/
structure Intake (id : UInt16) (S : List UInt16) (ts : List Telegram)
    (out : List Pkt) (w : PktWrapper) : Prop where
  room : Room S w
  bytes : ∀ s, w.buffers.bytes s = (Keyed.laneRun lanes [] (lane id s ts)).1
  packets : ∀ s, (out ++ w.inQ).filter (fun p => p.src = s) =
    (Keyed.laneRun lanes [] (lane id s ts)).2

namespace Intake

variable {id : UInt16} {S : List UInt16} {ts : List Telegram} {out : List Pkt}
  {w : PktWrapper}

theorem new {max : Nat} (hmax : max < 2 ^ 64) (h : S.length ≤ max) :
    Intake id S [] [] (new max hmax) where
  room := room_new hmax h
  bytes := fun s => Rings.bytes_new hmax s
  packets := fun _ => rfl

/-- More telegrams. -/
theorem recvAll (h : Intake id S ts out w) {us : List Telegram}
    (hus : ∀ t ∈ us, accepts id t = true → t.src ∈ S) :
    Intake id S (ts ++ us) out (recvAll id w us) where
  room := room_recvAll h.room hus
  bytes := by
    intro s
    rw [(recvAll_source id w us s).1, kept_of_room h.room hus, h.bytes s,
      lane_append, Keyed.laneRun_append]
    rfl
  packets := by
    intro s
    rw [List.filter_append, (recvAll_source id w us s).2,
      kept_of_room h.room hus, h.bytes s, ← List.append_assoc,
      ← List.filter_append, h.packets s, lane_append, Keyed.laneRun_append]
    rfl

/-- Packets are read off the queue. -/
theorem read (h : Intake id S ts out w) {taken rest : List Pkt}
    (hq : taken ++ rest = w.inQ) :
    Intake id S ts (out ++ taken) { w with inQ := rest } where
  room := h.room
  bytes := h.bytes
  packets := by
    intro s
    rw [List.append_assoc, hq]
    exact h.packets s

/-- What is queued for sending is another matter. -/
theorem outQ (h : Intake id S ts out w) (q : List Telegram) :
    Intake id S ts out { w with outQ := q } :=
  ⟨h.room, h.bytes, h.packets⟩

theorem updated (h : Intake id S ts out w) {us : List Telegram}
    (hus : ∀ t ∈ us, accepts id t = true → t.src ∈ S) :
    Intake id S (ts ++ us) out (w.updated id us) :=
  (h.outQ []).recvAll hus

end Intake

/-! ## The packets of a source, as far as its telegrams go -/

theorem body_ne_nil {src : UInt16} {p : Outgoing} {t : Telegram}
    (ht : t ∈ telegramsOf src p) : t.body ≠ [] := by
  rw [telegramsOf_eq] at ht
  obtain ⟨i, hi, rfl⟩ := List.mem_map.mp ht
  have hlt := lt_pieces.mp (List.mem_range.mp hi)
  intro hnil
  have hlen := congrArg List.length hnil
  rw [body_telegramAt, List.length_take, List.length_drop, List.length_nil,
    tgPayload] at hlen
  rw [tgPayload] at hlt
  omega

/-- A lane makes nothing of a part of a packet. -/
theorem laneRun_part_of_packet {src : UInt16} {p : Outgoing}
    (hfit : p.body.length + 3 ≤ ringCapacity) {part rest : List Telegram}
    (h : telegramsOf src p = part ++ rest) (hrest : rest ≠ []) :
    (Keyed.laneRun lanes [] part).2 = [] := by
  have hraw := body_telegramsOf src p
  rw [h, List.flatMap_append] at hraw
  have hmore : rest.flatMap Telegram.body ≠ [] := by
    obtain ⟨t, rest, rfl⟩ := List.exists_cons_of_ne_nil hrest
    have ht : t ∈ telegramsOf src p := by
      rw [h]
      exact List.mem_append_right part List.mem_cons_self
    have hbody := body_ne_nil ht
    intro hnil
    rw [List.flatMap_cons] at hnil
    exact hbody (List.append_eq_nil_iff.mp hnil).1
  have hpart : ¬ Framing.Complete pktFrames (part.flatMap Telegram.body) := by
    refine Framing.IsFrame.not_complete_part ?_ hmore
    rw [hraw]
    exact isFrame_rawOf p
  have haddr : Addressed src p.dest part := by
    intro t ht
    refine addressed_telegramsOf src p t ?_
    rw [h]
    exact List.mem_append_left _ ht
  have hnil : ¬ Framing.Complete pktFrames ([] : List UInt8) := by
    intro hc
    exact absurd hc.1 (by simp [pktFrames])
  have hroom : ([] : List UInt8).length + (part.flatMap Telegram.body).length ≤
      ringCapacity := by
    have hlen := congrArg List.length hraw
    rw [List.length_append, rawOf_length] at hlen
    rw [List.length_nil]
    omega
  rw [laneRun_fits haddr hnil hroom, List.nil_append,
    Framing.decode_of_not_complete hpart]
  rfl

theorem laneRun_part {src : UInt16} {ps : List Outgoing}
    (hfit : ∀ p ∈ ps, p.body.length + 3 ≤ ringCapacity)
    {part rest : List Telegram}
    (h : ps.flatMap (telegramsOf src) = part ++ rest) :
    ∃ done left, ps = done ++ left ∧
      (Keyed.laneRun lanes [] part).2 = done.map (Outgoing.pkt src) ∧
      (left = [] → rest = []) := by
  induction ps generalizing part with
  | nil =>
      obtain ⟨rfl, rfl⟩ := List.append_eq_nil_iff.mp h.symm
      exact ⟨[], [], rfl, rfl, fun _ => rfl⟩
  | cons p ps ih =>
      have hp := hfit p List.mem_cons_self
      have hps := fun q hq => hfit q (List.mem_cons_of_mem p hq)
      rw [List.flatMap_cons] at h
      rcases List.append_eq_append_iff.mp h with ⟨more, hmore, hrest⟩ |
        ⟨more, hmore, hrest⟩
      · -- the packet is there, and more
        obtain ⟨done, left, rfl, hout, hleft⟩ := ih hps hrest
        refine ⟨p :: done, left, rfl, ?_, hleft⟩
        rw [hmore, Keyed.laneRun_append, laneRun_packet src hp]
        simp only []
        rw [hout]
        rfl
      · by_cases hnil : more = []
        · rw [hnil, List.append_nil] at hmore
          refine ⟨[p], ps, rfl, ?_, ?_⟩
          · rw [← hmore, laneRun_packet src hp]
            rfl
          · rintro rfl
            rw [hrest, hnil]
            rfl
        · refine ⟨[], p :: ps, rfl, ?_, fun h' => by cases h'⟩
          exact laneRun_part_of_packet hp hmore hnil

end PktWrapper

end LibSmoke
