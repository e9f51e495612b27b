import LibSmoke.Knx.PktWrapper

/-!
# Reassembly, source by source

The receiving half of the packet layer keeps one ring per source, and a
telegram touches the ring of its own source alone. So the receiver is a machine
of independent lanes, one a source, run over the telegrams it kept: `lanes` is
that machine and `recvAll_eq` the refinement.

What is left is one lane. It appends the body of a telegram if the ring has
room and then cuts off whole packets, and as long as there is room, it has after
any number of telegrams what one decoding of all their bodies gives
(`laneRun_fits`). The telegrams of a packet carry its bytes in order, so a lane
that starts empty and meets packets that fit puts out those packets and ends
empty (`laneRun_packets`).
-/

namespace LibSmoke

namespace PktWrapper

/-! ## The lanes -/

/-- One telegram on the bytes held for its source. -/
def laneStep (s : List UInt8) (t : Telegram) : List UInt8 × List Pkt :=
  let s := if s.length + t.bodysize ≤ ringCapacity then s ++ t.body else s
  ((Framing.decode pktFrames s).2,
    (Framing.decode pktFrames s).1.map (toPkt t.src t.dest))

def lanes : Keyed.Machine UInt16 Telegram (List UInt8) Pkt where
  key := Telegram.src
  lane := laneStep

/-- The telegram is for this device, from another one, and undamaged. -/
def accepts (id : UInt16) (t : Telegram) : Bool :=
  (t.dest == broadcastAddr || t.dest == id) && t.src != id && t.check

/-- The telegram is accepted and its source gets a ring. -/
def keeps (id : UInt16) (w : PktWrapper) (t : Telegram) : Bool :=
  accepts id t && (w.buffers.get t.src).ptr.isSome

/-- The telegrams of a run that reach a ring. -/
def kept (id : UInt16) : PktWrapper → List Telegram → List Telegram
  | _, [] => []
  | w, t :: ts =>
      if keeps id w t then t :: kept id (recvOne id w t) ts
      else kept id (recvOne id w t) ts

/-- What `recvOne` does with a telegram it accepts. -/
theorem recvOne_of_accepts {id : UInt16} {w : PktWrapper} {t : Telegram}
    (h : accepts id t = true) : recvOne id w t = recompose id w t ∧
      t.src ≠ id ∧ t.check = true := by
  simp only [accepts, Bool.and_eq_true, Bool.or_eq_true, beq_iff_eq,
    bne_iff_ne] at h
  obtain ⟨⟨hdest, hsrc⟩, hcheck⟩ := h
  exact ⟨by rw [recvOne, if_pos hdest], hsrc, hcheck⟩

theorem recvOne_of_not_accepts {id : UInt16} {w : PktWrapper} {t : Telegram}
    (h : accepts id t = false) : recvOne id w t = w := by
  rw [recvOne]
  split
  · next hdest =>
      rw [recompose]
      split
      · rfl
      · next hsrc =>
          have hcheck : t.check = false := by
            cases hc : t.check with
            | false => rfl
            | true => simp [accepts, hc, hsrc, hdest] at h
          rw [if_pos hcheck]
  · rfl

/-- A kept telegram is a step of the machine of lanes. -/
theorem recvOne_keeps {id : UInt16} {w : PktWrapper} {t : Telegram}
    (h : keeps id w t = true) :
    (recvOne id w t).buffers.bytes =
        (Keyed.step lanes w.buffers.bytes t).1 ∧
      (recvOne id w t).inQ =
        w.inQ ++ (Keyed.step lanes w.buffers.bytes t).2 ∧
      (recvOne id w t).outQ = w.outQ := by
  rw [keeps, Bool.and_eq_true] at h
  obtain ⟨heq, hsrc, hcheck⟩ := recvOne_of_accepts (w := w) h.1
  obtain ⟨p, hp⟩ := Option.isSome_iff_exists.mp h.2
  have hbytes : p.ring.contents = w.buffers.bytes t.src :=
    (Rings.bytes_ptr p).trans (w.buffers.bytes_get t.src t.src)
  have hcap := Rings.bufsize_ptr p
  -- the ring after the write holds what the lane appends
  have hwrite : (p.ring.write t.body).1.contents =
      if (w.buffers.bytes t.src).length + t.bodysize ≤ ringCapacity then
        w.buffers.bytes t.src ++ t.body else w.buffers.bytes t.src := by
    rw [(RingBuffer.write_eq p.ring t.body).2.2, hbytes, hcap,
      ← RingBuffer.contents_length, hbytes, t.body_length]
  obtain ⟨hrest, hpkts⟩ := recomposeLoop_eq t.src t.dest
    (Nat.le_refl (p.ring.write t.body).1.size)
  have hstep : recompose id w t =
      { w with
        buffers := (w.buffers.get t.src).rings.put p
          (recomposeLoop t.src t.dest (p.ring.write t.body).1.size
            (p.ring.write t.body).1).1 (bufsize_recomposed ..)
        inQ := w.inQ ++ (recomposeLoop t.src t.dest
          (p.ring.write t.body).1.size (p.ring.write t.body).1).2 } := by
    rw [recompose, if_neg hsrc, if_neg (by rw [hcheck]; simp)]
    simp only [hp]
  rw [heq, hstep]
  refine ⟨?_, ?_, rfl⟩
  · funext id'
    rw [Rings.bytes_put, hrest, hwrite]
    by_cases hid : id' = t.src
    · subst hid
      rw [if_pos rfl]
      exact (Keyed.step_self lanes w.buffers.bytes t).symm
    · rw [if_neg hid, Rings.bytes_get]
      exact (Keyed.step_other lanes w.buffers.bytes (Ne.symm hid)).symm
  · show w.inQ ++ _ = _
    rw [hpkts, hwrite]
    rfl

/-- A telegram that is not kept changes nothing a source has buffered. -/
theorem recvOne_drops {id : UInt16} {w : PktWrapper} {t : Telegram}
    (h : keeps id w t = false) :
    (recvOne id w t).buffers.bytes = w.buffers.bytes ∧
      (recvOne id w t).inQ = w.inQ ∧ (recvOne id w t).outQ = w.outQ := by
  cases ha : accepts id t with
  | false => rw [recvOne_of_not_accepts ha]; exact ⟨rfl, rfl, rfl⟩
  | true =>
      obtain ⟨heq, hsrc, hcheck⟩ := recvOne_of_accepts (w := w) ha
      have hnull : (w.buffers.get t.src).ptr = none := by
        rw [keeps, ha, Bool.true_and] at h
        exact Option.not_isSome_iff_eq_none.mp (by rw [h]; simp)
      have hstep : recompose id w t =
          { w with buffers := (w.buffers.get t.src).rings } := by
        rw [recompose, if_neg hsrc, if_neg (by rw [hcheck]; simp)]
        simp only [hnull]
      rw [heq, hstep]
      exact ⟨funext fun id' => w.buffers.bytes_get t.src id', rfl, rfl⟩

/-- The receiver is the machine of lanes over the telegrams it kept. -/
theorem recvAll_eq (id : UInt16) (w : PktWrapper) (ts : List Telegram) :
    (recvAll id w ts).buffers.bytes =
        (Keyed.run lanes w.buffers.bytes (kept id w ts)).1 ∧
      (recvAll id w ts).inQ =
        w.inQ ++ (Keyed.run lanes w.buffers.bytes (kept id w ts)).2 ∧
      (recvAll id w ts).outQ = w.outQ := by
  induction ts generalizing w with
  | nil => exact ⟨rfl, (List.append_nil _).symm, rfl⟩
  | cons t ts ih =>
      obtain ⟨hbytes, hin, hout⟩ := ih (recvOne id w t)
      cases hk : keeps id w t with
      | true =>
          obtain ⟨hb, hi, ho⟩ := recvOne_keeps hk
          rw [hb] at hbytes hin
          rw [kept, if_pos hk, Keyed.run]
          refine ⟨hbytes, ?_, hout.trans ho⟩
          rw [← List.append_assoc, ← hi]
          exact hin
      | false =>
          obtain ⟨hb, hi, ho⟩ := recvOne_drops hk
          rw [hb] at hbytes hin
          rw [kept, if_neg (by rw [hk]; simp), ← hi]
          exact ⟨hbytes, hin, hout.trans ho⟩

/-- What the packets of one source have to do with the telegrams of that source
alone. -/
theorem recvAll_source (id : UInt16) (w : PktWrapper) (ts : List Telegram)
    (s : UInt16) :
    (recvAll id w ts).buffers.bytes s = (Keyed.laneRun lanes
        (w.buffers.bytes s) (Keyed.only lanes s (kept id w ts))).1 ∧
      (recvAll id w ts).inQ.filter (fun p => p.src = s) =
        w.inQ.filter (fun p => p.src = s) ++ (Keyed.laneRun lanes
          (w.buffers.bytes s) (Keyed.only lanes s (kept id w ts))).2 := by
  have hsrc : ∀ (b : List UInt8) (t : Telegram), ∀ p ∈ (lanes.lane b t).2,
      p.src = lanes.key t := by
    intro b t p hp
    obtain ⟨f, -, rfl⟩ := List.mem_map.mp hp
    rfl
  obtain ⟨hbytes, hin, -⟩ := recvAll_eq id w ts
  rw [hbytes, hin, Keyed.run_lane, List.filter_append,
    Keyed.run_out lanes Pkt.src hsrc]
  exact ⟨rfl, rfl⟩

/-! ## A table with room for every source -/

/-- The sources that have a ring are among `S`, and `S` fits the table. -/
def Room (S : List UInt16) (w : PktWrapper) : Prop :=
  S.length ≤ w.buffers.maxRings ∧ ∀ id ∈ w.buffers.ids, id ∈ S

theorem room_new {S : List UInt16} {max : Nat} (hmax : max < 2 ^ 64)
    (h : S.length ≤ max) : Room S (new max hmax) := by
  refine ⟨?_, fun id hid => ?_⟩
  · simpa [new, Rings.new, MultiRings.new, MultiRings.maxRings] using h
  · obtain ⟨r, hr⟩ := Rings.mem_ids.mp hid
    cases List.eq_of_mem_replicate hr

theorem keeps_of_room {S : List UInt16} {id : UInt16} {w : PktWrapper}
    {t : Telegram} (h : Room S w) (ha : accepts id t = true) (ht : t.src ∈ S) :
    keeps id w t = true := by
  obtain ⟨p, hp⟩ := Rings.get_ne_null h.1 h.2 ht
  rw [keeps, ha, hp]
  rfl

theorem room_recvOne {S : List UInt16} {id : UInt16} {w : PktWrapper}
    {t : Telegram} (h : Room S w) (ht : accepts id t = true → t.src ∈ S) :
    Room S (recvOne id w t) := by
  cases ha : accepts id t with
  | false => rw [recvOne_of_not_accepts ha]; exact h
  | true =>
      obtain ⟨heq, hsrc, hcheck⟩ := recvOne_of_accepts (w := w) ha
      obtain ⟨p, hp⟩ := Rings.get_ne_null h.1 h.2 (ht ha)
      rw [heq, recompose, if_neg hsrc, if_neg (by rw [hcheck]; simp)]
      simp only [hp]
      refine ⟨?_, fun id' hid => ?_⟩
      · rw [Rings.maxRings_put, Rings.maxRings_get]
        exact h.1
      · rcases Rings.ids_get _ _ (Rings.ids_put (bufsize_recomposed ..) hid) with hid | rfl
        · exact h.2 id' hid
        · exact ht ha

theorem room_recvAll {S : List UInt16} {id : UInt16} {w : PktWrapper}
    {ts : List Telegram} (h : Room S w)
    (hts : ∀ t ∈ ts, accepts id t = true → t.src ∈ S) :
    Room S (recvAll id w ts) := by
  induction ts generalizing w with
  | nil => exact h
  | cons t ts ih =>
      exact ih (room_recvOne h (hts t List.mem_cons_self))
        fun u hu => hts u (List.mem_cons_of_mem _ hu)

/-- With room for every source, exactly the accepted telegrams are kept. -/
theorem kept_of_room {S : List UInt16} {id : UInt16} {w : PktWrapper}
    {ts : List Telegram} (h : Room S w)
    (hts : ∀ t ∈ ts, accepts id t = true → t.src ∈ S) :
    kept id w ts = ts.filter (accepts id) := by
  induction ts generalizing w with
  | nil => rfl
  | cons t ts ih =>
      have hrest := ih (room_recvOne h (hts t List.mem_cons_self))
        fun u hu => hts u (List.mem_cons_of_mem _ hu)
      cases ha : accepts id t with
      | true =>
          rw [kept, if_pos (keeps_of_room h ha (hts t List.mem_cons_self ha)),
            hrest, List.filter_cons_of_pos ha]
      | false =>
          have hk : keeps id w t = false := by rw [keeps, ha, Bool.false_and]
          rw [kept, if_neg (by rw [hk]; simp), hrest,
            List.filter_cons_of_neg (by rw [ha]; simp)]

/-! ## One lane -/

theorem laneStep_fits {s : List UInt8} {t : Telegram}
    (h : s.length + t.bodysize ≤ ringCapacity) :
    laneStep s t = ((Framing.decode pktFrames (s ++ t.body)).2,
      (Framing.decode pktFrames (s ++ t.body)).1.map (toPkt t.src t.dest)) := by
  rw [laneStep, if_pos h]

/-- The telegrams all carry these addresses. -/
def Addressed (src dest : UInt16) (ts : List Telegram) : Prop :=
  ∀ t ∈ ts, t.src = src ∧ t.dest = dest

/-- As long as there is room for all of it, what a lane cuts off and what it
holds do not depend on how the bytes were cut into telegrams. -/
theorem laneRun_fits {src dest : UInt16} {s : List UInt8} {ts : List Telegram}
    (hts : Addressed src dest ts) (hs : ¬ Framing.Complete pktFrames s)
    (hfits : s.length + (ts.flatMap Telegram.body).length ≤ ringCapacity) :
    Keyed.laneRun lanes s ts =
      ((Framing.decode pktFrames (s ++ ts.flatMap Telegram.body)).2,
        (Framing.decode pktFrames (s ++ ts.flatMap Telegram.body)).1.map
          (toPkt src dest)) := by
  induction ts generalizing s with
  | nil =>
      rw [List.flatMap_nil, List.append_nil, Framing.decode_of_not_complete hs]
      rfl
  | cons t ts ih =>
      obtain ⟨hsrc, hdest⟩ := hts t List.mem_cons_self
      rw [List.flatMap_cons, List.length_append, t.body_length] at hfits
      have hstep := laneStep_fits (s := s) (t := t) (by omega)
      rw [hsrc, hdest] at hstep
      have hheld : (Framing.decode pktFrames (s ++ t.body)).2.length ≤
          s.length + t.bodysize := by
        have := congrArg List.length
          (Framing.flatten_decode (F := pktFrames) (s ++ t.body))
        rw [List.length_append, List.length_append, t.body_length] at this
        omega
      have hrest := ih (s := (Framing.decode pktFrames (s ++ t.body)).2)
        (fun u hu => hts u (List.mem_cons_of_mem _ hu))
        (Framing.not_complete_rest _) (by omega)
      rw [Keyed.laneRun, show lanes.lane s t = laneStep s t from rfl, hstep]
      simp only []
      rw [hrest, List.flatMap_cons, ← List.append_assoc,
        Framing.decode_append (s ++ t.body), List.map_append]

/-! ## The telegrams of a packet -/

/-- How many telegrams a packet takes. -/
def pieces (p : Outgoing) : Nat :=
  (rawOf p).length / tgPayload + (if (rawOf p).length % tgPayload > 0 then 1 else 0)

def telegramAt (src : UInt16) (p : Outgoing) (i : Nat) : Telegram :=
  Telegram.written src (tgConfig p.dest) (piece (rawOf p) i)
    (piece_length_le (rawOf p) i)

theorem telegramsOf_eq (src : UInt16) (p : Outgoing) :
    telegramsOf src p = (List.range (pieces p)).map (telegramAt src p) := rfl

theorem lt_pieces {p : Outgoing} {i : Nat} :
    i < pieces p ↔ i * tgPayload < (rawOf p).length := by
  rw [pieces, tgPayload]
  split <;> omega

@[simp] theorem body_telegramAt (src : UInt16) (p : Outgoing) (i : Nat) :
    (telegramAt src p i).body = ((rawOf p).drop (i * tgPayload)).take tgPayload := by
  have hcomm : i * tgPayload = tgPayload * i := Nat.mul_comm _ _
  rw [telegramAt, Telegram.body_written, piece]
  by_cases hlt : (rawOf p).length - tgPayload * i < tgPayload
  · rw [if_pos hlt, List.take_of_length_le (by
      rw [List.length_drop]; omega), List.take_of_length_le (by
      rw [List.length_drop]; omega)]
  · rw [if_neg hlt]

theorem addressed_telegramsOf (src : UInt16) (p : Outgoing) :
    Addressed src p.dest (telegramsOf src p) := by
  intro t ht
  obtain ⟨i, -, rfl⟩ := List.mem_map.mp ht
  exact ⟨Telegram.src_written _, Telegram.dest_written _⟩

theorem check_telegramsOf (src : UInt16) (p : Outgoing) :
    ∀ t ∈ telegramsOf src p, t.check = true := by
  intro t ht
  obtain ⟨i, -, rfl⟩ := List.mem_map.mp ht
  exact Telegram.check_written _

theorem flatMap_body_telegramAt (src : UInt16) (p : Outgoing) (n : Nat) :
    (List.range n).flatMap (fun i => (telegramAt src p i).body) =
      (rawOf p).take (n * tgPayload) := by
  induction n with
  | zero => simp
  | succ n ih =>
      rw [List.range_succ, List.flatMap_append, ih, List.flatMap_singleton,
        body_telegramAt, ← List.take_add, Nat.succ_mul]

/-- The telegrams of a packet carry its bytes, in order. -/
theorem body_telegramsOf (src : UInt16) (p : Outgoing) :
    (telegramsOf src p).flatMap Telegram.body = rawOf p := by
  have hall : ¬ pieces p < pieces p := Nat.lt_irrefl _
  rw [lt_pieces] at hall
  rw [telegramsOf_eq, List.flatMap_map, flatMap_body_telegramAt]
  exact List.take_of_length_le (Nat.le_of_not_lt hall)

/-- One packet that fits: an empty lane puts it out and is empty again. -/
theorem laneRun_packet (src : UInt16) {p : Outgoing}
    (h : p.body.length + 3 ≤ ringCapacity) :
    Keyed.laneRun lanes [] (telegramsOf src p) = ([], [p.pkt src]) := by
  have hnil : ¬ Framing.Complete pktFrames ([] : List UInt8) :=
    fun hc => absurd hc.1 (by simp [pktFrames])
  rw [laneRun_fits (addressed_telegramsOf src p) hnil (by
    rw [body_telegramsOf, rawOf_length, List.length_nil]; omega),
    body_telegramsOf, List.nil_append,
    ← List.append_nil (rawOf p), Framing.decode_frame_append (isFrame_rawOf p),
    Framing.decode_nil]
  simp [Outgoing.pkt]

/-- Packets that fit, one after another. -/
theorem laneRun_packets (src : UInt16) {ps : List Outgoing}
    (h : ∀ p ∈ ps, p.body.length + 3 ≤ ringCapacity) :
    Keyed.laneRun lanes [] (ps.flatMap (telegramsOf src)) =
      ([], ps.map (Outgoing.pkt src)) := by
  induction ps with
  | nil => rfl
  | cons p ps ih =>
      rw [List.flatMap_cons, Keyed.laneRun_append,
        laneRun_packet src (h p List.mem_cons_self)]
      simp only []
      rw [ih fun q hq => h q (List.mem_cons_of_mem _ hq)]
      rfl

/-! ## A sender's telegrams at one receiver -/

/-- The packet is for `id`: sent to it or to everybody. -/
def Outgoing.isFor (id : UInt16) (p : Outgoing) : Bool :=
  p.dest == broadcastAddr || p.dest == id

theorem accepts_telegramsOf {id src : UInt16} (hne : src ≠ id) (p : Outgoing) :
    (telegramsOf src p).filter (accepts id) =
      if Outgoing.isFor id p then telegramsOf src p else [] := by
  have hacc : ∀ t ∈ telegramsOf src p, accepts id t = Outgoing.isFor id p := by
    intro t ht
    obtain ⟨hsrc, hdest⟩ := addressed_telegramsOf src p t ht
    rw [accepts, hsrc, hdest, check_telegramsOf src p t ht, Outgoing.isFor,
      Bool.and_true, bne_iff_ne.mpr hne, Bool.and_true]
  rw [List.filter_congr hacc]
  cases Outgoing.isFor id p with
  | true => simp
  | false => simp

theorem accepts_flatMap {id src : UInt16} (hne : src ≠ id)
    (ps : List Outgoing) :
    (ps.flatMap (telegramsOf src)).filter (accepts id) =
      (ps.filter (Outgoing.isFor id)).flatMap (telegramsOf src) := by
  induction ps with
  | nil => rfl
  | cons p ps ih =>
      rw [List.flatMap_cons, List.filter_append, ih, accepts_telegramsOf hne]
      cases hp : Outgoing.isFor id p with
      | true => rw [List.filter_cons_of_pos hp, if_pos rfl, List.flatMap_cons]
      | false =>
          rw [List.filter_cons_of_neg (by rw [hp]; simp),
            if_neg (by simp), List.nil_append]

end PktWrapper

end LibSmoke
