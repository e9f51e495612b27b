import LibSmoke.Knx.Delivery

/-!
# Packets longer than a ring

`write` accepts every 16-bit length, a ring holds 1024 bytes. A packet with more
than 1021 body bytes leaves its header at the front of the ring of its source,
announcing more than will ever fit, and nothing takes it off again: from then on
the lane is stuck (`Stuck`), and no later packet of that source comes out.

So a source survives a packet exactly when the packet fits or was meant for
somebody else (`unwedged_iff`).
-/

namespace LibSmoke

namespace PktWrapper

/-- The header at the front announces more than the ring can hold. -/
def Stuck (s : List UInt8) : Prop :=
  3 ≤ s.length ∧ ringCapacity < pktFrames.size s

theorem laneStep_stuck {s : List UInt8} (h : Stuck s)
    (hlen : s.length ≤ ringCapacity) (t : Telegram) :
    Stuck (laneStep s t).1 ∧ (laneStep s t).1.length ≤ ringCapacity ∧
      (laneStep s t).2 = [] := by
  have hkey : ∀ s', Stuck s' → s'.length ≤ ringCapacity →
      Framing.decode pktFrames s' = ([], s') := by
    intro s' hs hl
    refine Framing.decode_of_not_complete fun hc => ?_
    have := hc.2
    have := hs.2
    omega
  rw [laneStep]
  by_cases hfits : s.length + t.bodysize ≤ ringCapacity
  · have happ : Stuck (s ++ t.body) := by
      refine ⟨?_, ?_⟩
      · rw [List.length_append]
        have := h.1
        omega
      · rw [pktFrames.size_append t.body h.1]
        exact h.2
    have hl : (s ++ t.body).length ≤ ringCapacity := by
      rw [List.length_append, t.body_length]
      exact hfits
    rw [if_pos hfits]
    simp only [hkey _ happ hl]
    exact ⟨happ, hl, rfl⟩
  · rw [if_neg hfits]
    simp only [hkey _ h hlen]
    exact ⟨h, hlen, rfl⟩

/-- A stuck lane puts out nothing, ever. -/
theorem laneRun_stuck {s : List UInt8} (h : Stuck s)
    (hlen : s.length ≤ ringCapacity) (ts : List Telegram) :
    (Keyed.laneRun lanes s ts).2 = [] := by
  induction ts generalizing s with
  | nil => rfl
  | cons t ts ih =>
      obtain ⟨hs, hl, hout⟩ := laneStep_stuck h hlen t
      rw [Keyed.laneRun, show lanes.lane s t = laneStep s t from rfl, hout, ih hs hl]
      rfl

theorem telegramsOf_cons (src : UInt16) (p : Outgoing) :
    ∃ ts, telegramsOf src p = telegramAt src p 0 :: ts := by
  have hpos : 0 < pieces p := by
    rw [lt_pieces, rawOf_length]
    omega
  obtain ⟨n, hn⟩ : ∃ n, pieces p = n + 1 := ⟨pieces p - 1, by omega⟩
  rw [telegramsOf_eq, hn, List.range_succ_eq_map, List.map_cons]
  exact ⟨_, rfl⟩

/-- The first telegram of a packet of more than one: it brings the header, and
not all of what that announces. -/
theorem laneStep_first (src : UInt16) {p : Outgoing} (h : 1 < pieces p) :
    laneStep [] (telegramAt src p 0) = ((rawOf p).take tgPayload, []) ∧
      ((rawOf p).take tgPayload).length = tgPayload ∧
      pktFrames.size ((rawOf p).take tgPayload) = p.body.length + 3 ∧
      tgPayload < p.body.length + 3 := by
  have hraw := rawOf_length p
  have hbody : (telegramAt src p 0).body = (rawOf p).take tgPayload := by
    rw [body_telegramAt, Nat.zero_mul, List.drop_zero]
  rw [lt_pieces, hraw, Nat.one_mul] at h
  have hlen : ((rawOf p).take tgPayload).length = tgPayload := by
    rw [List.length_take, hraw]
    omega
  have hsize : pktFrames.size ((rawOf p).take tgPayload) =
      p.body.length + 3 := by
    have happ := pktFrames.size_append ((rawOf p).drop tgPayload)
      (show pktFrames.hdr ≤ _ by rw [hlen]; decide)
    rw [List.take_append_drop] at happ
    rw [← happ, (isFrame_rawOf p).2, hraw]
  refine ⟨?_, hlen, hsize, h⟩
  rw [laneStep_fits (by
    rw [← Telegram.body_length, hbody, hlen, ringCapacity, tgPayload,
      List.length_nil]
    omega), List.nil_append, hbody,
    Framing.decode_of_not_complete fun hc => by
      have := hc.2
      omega]
  rfl

/-- A packet that does not fit leaves an empty lane stuck, and without having
put anything out. -/
theorem laneRun_overlong (src : UInt16) {p : Outgoing}
    (h : maxBody < p.body.length) (ts : List Telegram) :
    (Keyed.laneRun lanes [] (telegramsOf src p ++ ts)).2 = [] := by
  obtain ⟨us, htele⟩ := telegramsOf_cons src p
  rw [maxBody, ringCapacity] at h
  have hpieces : 1 < pieces p := by
    rw [lt_pieces, rawOf_length, tgPayload]
    omega
  obtain ⟨hstep, hlen, hsize, -⟩ := laneStep_first src hpieces
  rw [tgPayload] at hlen
  have hstuck : Stuck ((rawOf p).take tgPayload) :=
    ⟨by rw [tgPayload]; omega, by rw [hsize, ringCapacity]; omega⟩
  rw [htele, List.cons_append, Keyed.laneRun,
    show lanes.lane [] _ = laneStep [] _ from rfl, hstep]
  simp only []
  rw [laneRun_stuck hstuck (by rw [tgPayload, hlen, ringCapacity]; omega)]
  rfl

/-- What a long packet must not do to its source: after its telegrams, and
whatever other sources send in between, every later packet that fits comes out
in order, and the packet itself comes out intact or not at all. -/
def Unwedged (S : List UInt16) (id src : UInt16) (w : PktWrapper)
    (p : Outgoing) : Prop :=
  ∀ (later : List Outgoing) (ts : List Telegram),
    (∀ q ∈ later, q.body.length ≤ maxBody) →
    (∀ t ∈ ts, accepts id t = true → t.src ∈ S) →
    Keyed.only lanes src ts =
      telegramsOf src p ++ later.flatMap (telegramsOf src) →
    ∃ own, (own = [] ∨ own = [p.pkt src]) ∧
      (recvAll id w ts).inQ.filter (fun q => q.src = src) =
        w.inQ.filter (fun q => q.src = src) ++ own ++
          (later.filter (Outgoing.isFor id)).map (Outgoing.pkt src)

variable {S : List UInt16} {id src : UInt16} {w : PktWrapper}

/-- What a source's packets are that a receiver with room has put together. -/
theorem inQ_of_room (hroom : Room S w) (hempty : w.buffers.bytes src = [])
    {ts : List Telegram} (hts : ∀ t ∈ ts, accepts id t = true → t.src ∈ S) :
    (recvAll id w ts).inQ.filter (fun q => q.src = src) =
      w.inQ.filter (fun q => q.src = src) ++ (Keyed.laneRun lanes []
        ((Keyed.only lanes src ts).filter (accepts id))).2 := by
  have honly : Keyed.only lanes src (ts.filter (accepts id)) =
      (Keyed.only lanes src ts).filter (accepts id) := by
    rw [Keyed.only, Keyed.only, List.filter_filter, List.filter_filter]
    exact List.filter_congr fun t _ => Bool.and_comm _ _
  rw [(recvAll_source id w ts src).2, kept_of_room hroom hts, honly, hempty]

theorem unwedged_of_fits (hroom : Room S w) (hne : src ≠ id)
    (hempty : w.buffers.bytes src = []) {p : Outgoing}
    (h : Outgoing.isFor id p = false ∨ p.body.length ≤ maxBody) :
    Unwedged S id src w p := by
  intro later ts hlater hts honly
  rw [inQ_of_room hroom hempty hts, honly, List.filter_append,
    accepts_telegramsOf hne, accepts_flatMap hne]
  cases hfor : Outgoing.isFor id p with
  | false =>
      refine ⟨[], Or.inl rfl, ?_⟩
      rw [if_neg (by simp), List.nil_append, ← accepts_flatMap hne,
        laneRun_sender hne hlater, List.append_nil]
  | true =>
      have hfits : p.body.length ≤ maxBody := by
        rcases h with hfalse | hfits
        · rw [hfor] at hfalse
          cases hfalse
        · exact hfits
      refine ⟨[p.pkt src], Or.inr rfl, ?_⟩
      rw [if_pos rfl, Keyed.laneRun_append, laneRun_packet src (by
        rw [maxBody] at hfits; rw [ringCapacity] at *; omega),
        ← accepts_flatMap hne]
      simp only []
      rw [laneRun_sender hne hlater, List.append_assoc]

/-- A packet of zeros for everybody. -/
def zeros (n : Nat) (h : n < 2 ^ 16) : Outgoing :=
  ⟨broadcastAddr, 0, List.replicate n 0, by rw [List.length_replicate]; exact h⟩

def emptyPacket : Outgoing := zeros 0 (by decide)

theorem wedged_of_overlong (hroom : Room S w) (hne : src ≠ id) (hsrc : src ∈ S)
    (hempty : w.buffers.bytes src = []) {p : Outgoing}
    (hfor : Outgoing.isFor id p = true) (hlong : maxBody < p.body.length) :
    ¬ Unwedged S id src w p := by
  intro h
  have hall : ∀ t ∈ telegramsOf src p ++ [emptyPacket].flatMap (telegramsOf src),
      t.src = src := by
    intro t ht
    rcases List.mem_append.mp ht with ht | ht
    · exact (addressed_telegramsOf src p t ht).1
    · obtain ⟨q, -, ht⟩ := List.mem_flatMap.mp ht
      exact (addressed_telegramsOf src q t ht).1
  have hts := fun t ht (_ : accepts id t = true) => (hall t ht).symm ▸ hsrc
  have honly : Keyed.only lanes src
      (telegramsOf src p ++ [emptyPacket].flatMap (telegramsOf src)) =
        telegramsOf src p ++ [emptyPacket].flatMap (telegramsOf src) :=
    List.filter_eq_self.mpr fun t ht => decide_eq_true (hall t ht)
  obtain ⟨own, -, hin⟩ := h [emptyPacket] _ (by simp [emptyPacket, zeros]) hts honly
  rw [inQ_of_room hroom hempty hts, honly, List.filter_append,
    accepts_telegramsOf hne, if_pos hfor, laneRun_overlong src hlong,
    List.append_assoc, List.append_cancel_left_eq] at hin
  have hempt : [emptyPacket].filter (Outgoing.isFor id) = [emptyPacket] := rfl
  rw [hempt] at hin
  cases own <;> cases hin

/-- A source survives a packet exactly when the packet fits a ring or is not for
this receiver. -/
theorem unwedged_iff (hroom : Room S w) (hne : src ≠ id) (hsrc : src ∈ S)
    (hempty : w.buffers.bytes src = []) (p : Outgoing) :
    Unwedged S id src w p ↔
      Outgoing.isFor id p = false ∨ p.body.length ≤ maxBody := by
  refine ⟨fun h => ?_, unwedged_of_fits hroom hne hempty⟩
  by_contra hcon
  rw [not_or, Nat.not_le] at hcon
  refine wedged_of_overlong hroom hne hsrc hempty ?_ hcon.2 h
  cases hfor : Outgoing.isFor id p with
  | true => rfl
  | false => exact absurd hfor hcon.1

/-- One byte too many, broadcast by node 1 and heard by a new node 3. -/
theorem unwedged_iff_longest :
    Unwedged [1] 3 1 (new 1 (by decide)) (zeros 1022 (by decide)) ↔
      Outgoing.isFor 3 (zeros 1022 (by decide)) = false ∨
        (zeros 1022 (by decide)).body.length ≤ maxBody :=
  unwedged_iff (room_new (by decide) (by decide)) (by decide) (by decide)
    (Rings.bytes_new (by decide) _) _

theorem wedged_by_1022 :
    ¬ Unwedged [1] 3 1 (new 1 (by decide)) (zeros 1022 (by decide)) :=
  wedged_of_overlong (room_new (by decide) (by decide)) (by decide) (by decide)
    (Rings.bytes_new (by decide) _) rfl
    (by rw [zeros, List.length_replicate, maxBody, ringCapacity]; decide)

end PktWrapper

end LibSmoke
