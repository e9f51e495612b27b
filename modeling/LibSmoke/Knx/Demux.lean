import LibSmoke.Lib.Items
import LibSmoke.Lib.Loops
import LibSmoke.Lib.Runs
import LibSmoke.Knx.LinuxTpuart

/-!
# Taking the coupler's stream apart

What the bus coupler says is a code of items: confirmations and error codes are
one byte each, a telegram says how long it is, and the first byte tells which it
is. `_process_packet` reads this code (`round_eq`), so it finds the items however
the stream is cut, and the telegrams in them (`items_demuxed`).

A byte that begins no item is neither taken off nor does it end the loop. So the
loop ends exactly as long as no such byte stands where an item should begin
(`loop_ends_iff`).
-/

namespace LibSmoke

namespace LinuxTpuart

/-! ## The code -/

/-- What the first byte of an item can be. -/
def IsService (x : UInt8) : Prop := x &&& 0x7f = 0x0b ∨ x &&& 0x07 = 0x07

instance (x : UInt8) : Decidable (IsService x) := inferInstanceAs (Decidable (_ ∨ _))

def IsData (x : UInt8) : Prop := x &&& 0xd3 = 0x90

instance (x : UInt8) : Decidable (IsData x) := inferInstanceAs (Decidable (_ = _))

/-- What the bytes on hand begin with. -/
def front : List UInt8 → Items.Front
  | [] => .more
  | x :: xs =>
      if IsService x then .item 1
      else if IsData x then
        if Framing.Complete Telegram.frames (x :: xs) then .item (announced (x :: xs))
        else .more
      else .stray

theorem front_service {x : UInt8} (h : IsService x) (xs : List UInt8) :
    front (x :: xs) = .item 1 :=
  if_pos h

theorem and_and {x m k r : UInt8} (h : x &&& m = r) : x &&& (m &&& k) = r &&& k := by
  rw [← UInt8.and_assoc, h]

/-- The two lowest bits tell the one from the other. -/
theorem IsData.not_service {x : UInt8} (h : IsData x) : ¬ IsService x := by
  have hdata : x &&& 0x03 = 0 := and_and (k := 0x03) h
  rintro (hs | hs)
  · have hlow : x &&& 0x03 = 0x03 := and_and (k := 0x03) hs
    rw [hdata] at hlow
    cases hlow
  · have hlow : x &&& 0x03 = 0x03 := and_and (k := 0x03) hs
    rw [hdata] at hlow
    cases hlow

theorem front_data {x : UInt8} (h : IsData x) (xs : List UInt8) :
    front (x :: xs) = if Framing.Complete Telegram.frames (x :: xs)
      then .item (announced (x :: xs)) else .more := by
  rw [front, if_neg h.not_service, if_pos h]

theorem front_stray {x : UInt8} {xs : List UInt8} :
    front (x :: xs) = .stray ↔ ¬ IsService x ∧ ¬ IsData x := by
  by_cases hs : IsService x
  · rw [front_service hs]
    exact iff_of_false nofun fun h => h.1 hs
  · by_cases hd : IsData x
    · rw [front_data hd]
      refine iff_of_false ?_ fun h => h.2 hd
      split <;> nofun
    · rw [front, if_neg hs, if_neg hd]
      exact iff_of_true rfl ⟨hs, hd⟩

/-- The items of the coupler. -/
def items : Items.Code UInt8 where
  front := front
  front_nil := rfl
  item_bounds := by
    intro bs n h
    cases bs with
    | nil => cases h
    | cons x xs =>
        by_cases hs : IsService x
        · rw [front_service hs] at h
          cases h
          exact ⟨Nat.one_pos, Nat.succ_pos _⟩
        · by_cases hd : IsData x
          · rw [front_data hd] at h
            split at h
            · next hc =>
                cases h
                exact ⟨Framing.size_pos (F := Telegram.frames) _, hc.2⟩
            · cases h
          · rw [front_stray.mpr ⟨hs, hd⟩] at h
            cases h
  item_append := by
    intro bs n cs h
    cases bs with
    | nil => cases h
    | cons x xs =>
        rw [List.cons_append]
        by_cases hs : IsService x
        · rw [front_service hs] at h ⊢
          exact h
        · by_cases hd : IsData x
          · rw [front_data hd] at h ⊢
            split at h
            · next hc =>
                have hsize : announced (x :: xs ++ cs) = announced (x :: xs) :=
                  Telegram.frames.size_append cs hc.1
                rw [← List.cons_append, if_pos (hc.append cs), hsize]
                exact h
            · cases h
          · rw [front_stray.mpr ⟨hs, hd⟩] at h
            cases h
  item_take := by
    intro bs n h
    cases bs with
    | nil => cases h
    | cons x xs =>
        by_cases hs : IsService x
        · rw [front_service hs] at h
          cases h
          exact front_service hs _
        · by_cases hd : IsData x
          · rw [front_data hd] at h
            split at h
            · next hc =>
                cases h
                have hframe := hc.isFrame_take
                have hsize : announced ((x :: xs).take (announced (x :: xs))) =
                    announced (x :: xs) := by
                  refine hframe.2.trans ?_
                  rw [List.length_take]
                  exact Nat.min_eq_left hc.2
                obtain ⟨k, hk⟩ : ∃ k, announced (x :: xs) = k + 1 :=
                  Nat.exists_eq_add_one.mpr (Framing.size_pos (F := Telegram.frames) _)
                have hcons : (x :: xs).take (announced (x :: xs)) = x :: xs.take k := by
                  rw [hk, List.take_succ_cons]
                have hwhole : Framing.Complete Telegram.frames
                    ((x :: xs).take (announced (x :: xs))) := hframe.complete
                rw [hcons] at hsize hwhole ⊢
                rw [front_data hd, if_pos hwhole, hsize]
            · cases h
          · rw [front_stray.mpr ⟨hs, hd⟩] at h
            cases h
  stray_append := by
    intro bs cs h
    cases bs with
    | nil => cases h
    | cons x xs => exact front_stray.mpr (front_stray.mp h)

/-! ## One round -/

/-- One round of the loop of `_process_packet`; `none` leaves it. -/
def round (id : UInt16) (b : LinuxTpuart) : Option LinuxTpuart :=
  if b.pktbuffer.size > 0 then
    let opcode := ((b.pktbuffer.peek 1).getD []).getD 0 0
    let rest := (b.pktbuffer.remove 1).1
    if opcode &&& 0x7f = 0x0b then
      some { b with isPacketOutgoing := false, pktbuffer := rest }
    else if opcode &&& 0x07 = 0x07 then some { b with pktbuffer := rest }
    else if opcode &&& 0xd3 = 0x90 then
      if b.pktbuffer.size < tgHdr then none
      else if h : LinuxTcp.dsize b.pktbuffer > b.pktbuffer.size then none
      else
        let pkt := LinuxTcp.front b.pktbuffer (hdr_le h) (dsize_le h)
        let rest := (b.pktbuffer.read (LinuxTcp.dsize b.pktbuffer)).1
        let pkts := if pkt.src ≠ id ∧ pkt.check then b.pkts ++ [pkt] else b.pkts
        some { b with pktbuffer := rest, pkts := pkts }
    else some b
  else none

/-- What is kept of an item. -/
def kept (id : UInt16) (i : List UInt8) : List Telegram :=
  if h : Framing.IsFrame Telegram.frames i then
    if (Telegram.ofFrame i h).src ≠ id ∧ (Telegram.ofFrame i h).check then
      [Telegram.ofFrame i h]
    else []
  else []

theorem kept_short (id : UInt16) {i : List UInt8} (h : i.length < tgHdr + 1) :
    kept id i = [] :=
  dif_neg fun hc => Nat.not_lt.mpr hc.1 h

theorem kept_raw (id : UInt16) (t : Telegram) :
    kept id t.raw = if t.src ≠ id ∧ t.check then [t] else [] :=
  dif_pos t.isFrame

section Round

variable (id : UInt16) {b : LinuxTpuart} {x : UInt8} {xs : List UInt8}

theorem size_of_contents (h : b.pktbuffer.contents = x :: xs) : b.pktbuffer.size > 0 := by
  rw [← RingBuffer.contents_length, h]
  exact Nat.succ_pos _

theorem opcode_eq (h : b.pktbuffer.contents = x :: xs) :
    ((b.pktbuffer.peek 1).getD []).getD 0 0 = x := by
  have hone : 1 ≤ b.pktbuffer.size := size_of_contents h
  rw [RingBuffer.peek_eq, if_pos hone, h]
  rfl

/-- The service bytes are taken off one by one. -/
theorem round_service (h : b.pktbuffer.contents = x :: xs) (hx : IsService x) :
    ∃ b', round id b = some b' ∧ b'.pktbuffer = (b.pktbuffer.remove 1).1 ∧
      b'.pkts = b.pkts := by
  unfold round
  rw [if_pos (size_of_contents h), opcode_eq h]
  simp only []
  split
  · exact ⟨_, rfl, rfl, rfl⟩
  · next hconfirm =>
      rw [if_pos (hx.resolve_left hconfirm)]
      exact ⟨_, rfl, rfl, rfl⟩

/-- Below the header a telegram is incomplete, whatever was read of it. -/
theorem dsize_gt_iff (h : tgHdr ≤ b.pktbuffer.size) :
    LinuxTcp.dsize b.pktbuffer > b.pktbuffer.size ↔
      ¬ Framing.Complete Telegram.frames b.pktbuffer.contents := by
  have hcomplete : Framing.Complete Telegram.frames b.pktbuffer.contents ↔
      tgHdr + 1 ≤ b.pktbuffer.size ∧
        announced b.pktbuffer.contents ≤ b.pktbuffer.size := by
    rw [← RingBuffer.contents_length]
    rfl
  rw [hcomplete]
  by_cases hsize : tgHdr + 1 ≤ b.pktbuffer.size
  · rw [LinuxTcp.dsize_eq hsize]
    omega
  · have hlow : tgHdr + 1 ≤ LinuxTcp.dsize b.pktbuffer := Nat.le_add_right _ _
    omega

theorem round_part (h : b.pktbuffer.contents = x :: xs) (hx : IsData x)
    (hpart : ¬ Framing.Complete Telegram.frames (x :: xs)) : round id b = none := by
  unfold round
  rw [if_pos (size_of_contents h), opcode_eq h]
  simp only []
  rw [if_neg fun hc => hx.not_service (.inl hc),
    if_neg fun hc => hx.not_service (.inr hc), if_pos (show x &&& 0xd3 = 0x90 from hx)]
  split
  · rfl
  · next hhdr =>
      rw [dif_pos ((dsize_gt_iff (Nat.le_of_not_lt hhdr)).mpr (h ▸ hpart))]

theorem round_frame (h : b.pktbuffer.contents = x :: xs) (hx : IsData x)
    (hall : Framing.Complete Telegram.frames (x :: xs)) :
    ∃ b', round id b = some b' ∧
      b'.pktbuffer = (b.pktbuffer.remove (announced (x :: xs))).1 ∧
      b'.pkts = b.pkts ++ kept id ((x :: xs).take (announced (x :: xs))) := by
  have hsize : tgHdr + 1 ≤ b.pktbuffer.size := by
    rw [← RingBuffer.contents_length, h]
    exact hall.1
  have hfit : ¬ LinuxTcp.dsize b.pktbuffer > b.pktbuffer.size := by
    rw [dsize_gt_iff (by omega), h]
    exact not_not.mpr hall
  have hread : (b.pktbuffer.read (LinuxTcp.dsize b.pktbuffer)).1 =
      (b.pktbuffer.remove (announced (x :: xs))).1 := by
    rw [RingBuffer.read_eq, if_pos (dsize_le hfit), LinuxTcp.dsize_eq hsize, h]
  have hraw := LinuxTcp.raw_front (hdr_le hfit) (dsize_le hfit)
  rw [h] at hraw
  unfold round
  rw [if_pos (size_of_contents h), opcode_eq h]
  simp only []
  rw [if_neg fun hc => hx.not_service (.inl hc),
    if_neg fun hc => hx.not_service (.inr hc), if_pos (show x &&& 0xd3 = 0x90 from hx),
    if_neg (by omega), dif_neg hfit]
  refine ⟨_, rfl, hread, ?_⟩
  rw [← hraw, kept_raw]
  simp only []
  split
  · rfl
  · rw [List.append_nil]

/-- A byte that begins nothing stays where it is. -/
theorem round_stray (h : b.pktbuffer.contents = x :: xs) (hs : ¬ IsService x)
    (hd : ¬ IsData x) : round id b = some b := by
  unfold round
  rw [if_pos (size_of_contents h), opcode_eq h]
  simp only []
  rw [if_neg fun hc => hs (.inl hc), if_neg fun hc => hs (.inr hc),
    if_neg (show ¬ x &&& 0xd3 = 0x90 from hd)]

theorem round_nil (h : b.pktbuffer.contents = []) : round id b = none := by
  have hsize := RingBuffer.contents_eq_nil_iff.mp h
  unfold round
  rw [if_neg (by omega)]

/-- A round takes the item at the front off. -/
theorem round_item {n : Nat} (h : front b.pktbuffer.contents = .item n) :
    ∃ b', round id b = some b' ∧ b'.pktbuffer = (b.pktbuffer.remove n).1 ∧
      b'.pkts = b.pkts ++ kept id (b.pktbuffer.contents.take n) := by
  cases hc : b.pktbuffer.contents with
  | nil =>
      rw [hc] at h
      cases h
  | cons x xs =>
      rw [hc] at h
      by_cases hs : IsService x
      · rw [front_service hs] at h
        cases h
        obtain ⟨b', hround, hbuf, hpkts⟩ := round_service id hc hs
        have hnone : kept id [x] = [] := kept_short id (show 1 < tgHdr + 1 by decide)
        refine ⟨b', hround, hbuf, ?_⟩
        rw [hpkts, List.take_succ_cons, List.take_zero, hnone, List.append_nil]
      · by_cases hd : IsData x
        · rw [front_data hd] at h
          split at h
          · next hall =>
              cases h
              exact round_frame id hc hd hall
          · cases h
        · rw [front_stray.mpr ⟨hs, hd⟩] at h
          cases h

theorem round_more (h : front b.pktbuffer.contents = .more) : round id b = none := by
  cases hc : b.pktbuffer.contents with
  | nil => exact round_nil id hc
  | cons x xs =>
      rw [hc] at h
      by_cases hs : IsService x
      · rw [front_service hs] at h
        cases h
      · by_cases hd : IsData x
        · rw [front_data hd] at h
          split at h
          · cases h
          · next hpart => exact round_part id hc hd hpart
        · rw [front_stray.mpr ⟨hs, hd⟩] at h
          cases h

theorem round_of_stray (h : front b.pktbuffer.contents = .stray) : round id b = some b := by
  cases hc : b.pktbuffer.contents with
  | nil =>
      rw [hc] at h
      cases h
  | cons x xs =>
      rw [hc] at h
      obtain ⟨hs, hd⟩ := front_stray.mp h
      exact round_stray id hc hs hd

/-- The loop is its rounds, save that it does not go on where it would stay. -/
theorem processLoop_round (fuel : Nat) (b : LinuxTpuart) :
    processLoop id (fuel + 1) b =
      match round id b with
      | none => some b
      | some b' =>
          if front b.pktbuffer.contents = .stray then none else processLoop id fuel b' := by
  cases hc : b.pktbuffer.contents with
  | nil =>
      have hsize := RingBuffer.contents_eq_nil_iff.mp hc
      rw [round_nil id hc]
      rw [processLoop, if_neg (by omega)]
  | cons x xs =>
      rw [processLoop]
      unfold round
      rw [if_pos (size_of_contents hc), if_pos (size_of_contents hc), opcode_eq hc]
      simp only []
      by_cases hconfirm : x &&& 0x7f = 0x0b
      · rw [if_pos hconfirm, if_pos hconfirm, front_service (.inl hconfirm)]
        rfl
      · rw [if_neg hconfirm, if_neg hconfirm]
        by_cases herror : x &&& 0x07 = 0x07
        · rw [if_pos herror, if_pos herror, front_service (.inr herror)]
          rfl
        · rw [if_neg herror, if_neg herror]
          by_cases hdata : x &&& 0xd3 = 0x90
          · have hnot : front (x :: xs) ≠ .stray := fun hf => (front_stray.mp hf).2 hdata
            rw [if_pos hdata, if_pos hdata]
            split
            · rfl
            · split <;> rfl
          · have hstray : front (x :: xs) = .stray := front_stray.mpr
              ⟨fun hs => hs.elim hconfirm herror, hdata⟩
            rw [if_neg hdata, if_neg hdata]
            exact (if_pos hstray).symm

end Round

/-! ## The loop -/

/-- The ring once the item at the front is off. -/
theorem ring_item {r r' : RingBuffer} {n : Nat} (h : items.front r.contents = .item n)
    (hr : r' = (r.remove n).1) :
    r'.contents = r.contents.drop n ∧ r'.bufsize = r.bufsize ∧ r'.size < r.size := by
  obtain ⟨hpos, hle⟩ := items.item_bounds h
  rw [RingBuffer.contents_length] at hle
  obtain ⟨-, hsize, hcont⟩ := RingBuffer.remove_eq r n
  rw [if_pos hle, ← hr] at hcont
  rw [← hr] at hsize
  refine ⟨hcont, hsize, ?_⟩
  rw [← RingBuffer.contents_length, hcont, List.length_drop, RingBuffer.contents_length]
  omega

/-- A round with an item at the front. What is behind the item is as clean as before. -/
theorem round_takes (id : UInt16) {b : LinuxTpuart} {n : Nat}
    (h : items.front b.pktbuffer.contents = .item n) :
    ∃ b', round id b = some b' ∧
      b'.pktbuffer.contents = b.pktbuffer.contents.drop n ∧
      b'.pktbuffer.bufsize = b.pktbuffer.bufsize ∧
      b'.pktbuffer.size < b.pktbuffer.size ∧
      b'.pkts = b.pkts ++ kept id (b.pktbuffer.contents.take n) ∧
      (Items.Clean items b'.pktbuffer.contents ↔
        Items.Clean items b.pktbuffer.contents) := by
  obtain ⟨b', hround, hbuf, hpkts⟩ := round_item id h
  obtain ⟨hcont, hsize, hless⟩ := ring_item h hbuf
  refine ⟨b', hround, hcont, hsize, hless, hpkts, ?_⟩
  rw [hcont]
  exact Items.clean_drop h

/-- What the loop comes to, for a ring it can work off in so many rounds. -/
theorem processLoop_eq (id : UInt16) {fuel : Nat} {b : LinuxTpuart}
    (hfuel : b.pktbuffer.size ≤ fuel)
    (hclean : Items.Clean items b.pktbuffer.contents) :
    ∃ b', processLoop id fuel b = some b' ∧
      b'.pktbuffer.contents = (Items.scan items b.pktbuffer.contents).2 ∧
      b'.pktbuffer.bufsize = b.pktbuffer.bufsize ∧
      b'.pkts = b.pkts ++
        (Items.scan items b.pktbuffer.contents).1.flatMap (kept id) := by
  induction fuel generalizing b with
  | zero =>
      have hnil := RingBuffer.contents_eq_nil_iff.mpr (Nat.le_zero.mp hfuel)
      rw [hnil, Items.scan_nil]
      exact ⟨b, rfl, hnil, rfl, (List.append_nil _).symm⟩
  | succ fuel ih =>
      rw [processLoop_round]
      cases hf : items.front b.pktbuffer.contents with
      | more =>
          rw [round_more id hf, Items.scan_of_not_item (by simp [hf])]
          exact ⟨b, rfl, rfl, rfl, (List.append_nil _).symm⟩
      | item n =>
          obtain ⟨b', hround, hcont, hsize, hless, hpkts, hsame⟩ := round_takes id hf
          obtain ⟨c, hloop, hrest, hbuf', hkept⟩ := ih (by omega) (hsame.mpr hclean)
          rw [hcont] at hrest hkept
          rw [hround, Items.scan_of_item hf]
          refine ⟨c, ?_, hrest, hbuf'.trans hsize, ?_⟩
          · show (if front b.pktbuffer.contents = .stray then none else _) = _
            exact (if_neg hclean.front_ne).trans hloop
          · rw [hkept, hpkts, List.flatMap_cons, List.append_assoc]
      | stray => exact absurd hf hclean.front_ne

/-- Where an item is out of place the loop is without end. -/
theorem processLoop_none (id : UInt16) {fuel : Nat} {b : LinuxTpuart}
    (hfuel : b.pktbuffer.size ≤ fuel)
    (hstray : ¬ Items.Clean items b.pktbuffer.contents) : processLoop id fuel b = none := by
  induction fuel generalizing b with
  | zero =>
      have hnil := RingBuffer.contents_eq_nil_iff.mpr (Nat.le_zero.mp hfuel)
      rw [hnil] at hstray
      exact absurd (Items.clean_of_more items.front_nil) hstray
  | succ fuel ih =>
      rw [processLoop_round]
      cases hf : items.front b.pktbuffer.contents with
      | more => exact absurd (Items.clean_of_more hf) hstray
      | item n =>
          obtain ⟨b', hround, -, -, hless, -, hsame⟩ := round_takes id hf
          have hloop := ih (by omega) (mt hsame.mp hstray)
          rw [hround]
          show (if front b.pktbuffer.contents = .stray then none else _) = _
          split
          · rfl
          · exact hloop
      | stray =>
          rw [round_of_stray id hf]
          exact if_pos hf

theorem shrinks_of_clean (id : UInt16) {b : LinuxTpuart}
    (h : Items.Clean items b.pktbuffer.contents) :
    Loops.Shrinks (round id) (fun b => b.pktbuffer.size) b := by
  refine Loops.shrinks_of_inv (I := fun b => Items.Clean items b.pktbuffer.contents) ?_ h
  intro s t hs ht
  cases hf : items.front s.pktbuffer.contents with
  | more =>
      rw [round_more id hf] at ht
      cases ht
  | item n =>
      obtain ⟨s', hround, -, -, hless, -, hsame⟩ := round_takes id hf
      obtain rfl : s' = t := Option.some.inj (hround.symm.trans ht)
      exact ⟨hsame.mpr hs, hless⟩
  | stray => exact absurd hf hs.front_ne

theorem clean_of_ends (id : UInt16) {b : LinuxTpuart} (h : Loops.Ends (round id) b) :
    Items.Clean items b.pktbuffer.contents := by
  by_contra hstray
  induction hlen : b.pktbuffer.size using Nat.strongRecOn generalizing b with
  | ind k ih =>
      cases hf : items.front b.pktbuffer.contents with
      | more => exact hstray (Items.clean_of_more hf)
      | item n =>
          obtain ⟨b', hround, -, -, hless, -, hsame⟩ := round_takes id hf
          refine Loops.not_ends_of_next hround ?_ h
          exact fun h' => ih _ (hlen ▸ hless) h' (mt hsame.mp hstray) rfl
      | stray => exact Loops.not_ends_of_fixed (round_of_stray id hf) h

/-! ## Between two calls -/

/-- Between two calls the ring holds part of a telegram. -/
structure Idle (b : LinuxTpuart) : Prop where
  front : items.front b.pktbuffer.contents = .more
  bufsize : b.pktbuffer.bufsize = uartRingbufsize

theorem length_of_more {bs : List UInt8} (h : items.front bs = .more) :
    bs.length < tgMax := by
  cases bs with
  | nil => exact Nat.succ_pos _
  | cons x xs =>
      refine LinuxTcp.length_of_not_complete fun hc => ?_
      have h : LinuxTpuart.front (x :: xs) = .more := h
      by_cases hs : IsService x
      · rw [front_service hs] at h
        cases h
      · by_cases hd : IsData x
        · rw [front_data hd, if_pos hc] at h
          cases h
        · rw [front_stray.mpr ⟨hs, hd⟩] at h
          cases h

/-- The ring has room for the bytes of one `read`. -/
theorem Idle.room {b : LinuxTpuart} (h : Idle b) {buf : List UInt8}
    (hbuf : buf.length ≤ uartReadsize) :
    b.pktbuffer.size + buf.length ≤ b.pktbuffer.bufsize := by
  have hheld := length_of_more h.front
  rw [RingBuffer.contents_length, tgMax] at hheld
  rw [h.bufsize, uartRingbufsize]
  rw [uartReadsize] at hbuf
  omega

/-- The state the loop of `_process_packet` starts in. -/
def filled (buf : List UInt8) (b : LinuxTpuart) : LinuxTpuart :=
  { b with pktbuffer := (b.pktbuffer.write buf).1 }

theorem Idle.contents_filled {b : LinuxTpuart} (h : Idle b) {buf : List UInt8}
    (hbuf : buf.length ≤ uartReadsize) :
    (b.filled buf).pktbuffer.contents = b.pktbuffer.contents ++ buf := by
  show (b.pktbuffer.write buf).1.contents = _
  rw [(RingBuffer.write_eq b.pktbuffer buf).2.2, if_pos (h.room hbuf)]

theorem Idle.bufsize_filled {b : LinuxTpuart} (h : Idle b) (buf : List UInt8) :
    (b.filled buf).pktbuffer.bufsize = uartRingbufsize :=
  (RingBuffer.write_eq b.pktbuffer buf).2.1.trans h.bufsize

/-- A call on a clean stream takes its items off and leaves the rest. -/
theorem Idle.processPacket {b : LinuxTpuart} (h : Idle b) (id : UInt16) {buf : List UInt8}
    (hbuf : buf.length ≤ uartReadsize)
    (hclean : Items.Clean items (b.pktbuffer.contents ++ buf)) :
    ∃ b', b.processPacket id buf = some b' ∧ Idle b' ∧
      b'.pktbuffer.contents = (Items.scan items (b.pktbuffer.contents ++ buf)).2 ∧
      b'.pkts = b.pkts ++
        (Items.scan items (b.pktbuffer.contents ++ buf)).1.flatMap (kept id) := by
  rw [LinuxTpuart.processPacket]
  by_cases hnil : buf.length = 0
  · rw [List.length_eq_zero_iff.mp hnil, List.append_nil,
      Items.scan_of_not_item (by simp [h.front])]
    exact ⟨b, if_pos rfl, h, rfl, (List.append_nil _).symm⟩
  · have hcont := h.contents_filled hbuf
    rw [← hcont] at hclean ⊢
    obtain ⟨b', hloop, hrest, hsize, hkept⟩ :=
      processLoop_eq id (Nat.le_refl (b.filled buf).pktbuffer.size) hclean
    refine ⟨b', (if_neg hnil).trans hloop, ⟨?_, hsize.trans (h.bufsize_filled buf)⟩, hrest,
      hkept⟩
    rw [hrest]
    exact Items.clean_iff.mp hclean

/-! ## Any calls on the backend -/

def pop (b : LinuxTpuart) : LinuxTpuart := { b with pkts := b.pkts.tail }

def shutdown (b : LinuxTpuart) : LinuxTpuart := { b with ready := false }

/-- The calls made on a backend. -/
inductive Call where
  | init (up : Bool)
  | update (e : UartEvent)
  | broadcast (t : Telegram)
  | read
  | pop
  | shutdown

/-- A call, if it returns. -/
def call (id : UInt16) (b : LinuxTpuart) : Call → Option LinuxTpuart
  | .init up => some (b.init up).1
  | .update e => (tryUpdate id e b).map Prod.fst
  | .broadcast t => some (b.broadcast t).1
  | .read => some b.read.1
  | .pop => some b.pop
  | .shutdown => some b.shutdown

theorem Idle.new : Idle .new := ⟨rfl, rfl⟩

theorem Idle.of_ring {b b' : LinuxTpuart} (h : Idle b) (hring : b'.pktbuffer = b.pktbuffer) :
    Idle b' :=
  ⟨hring ▸ h.front, hring ▸ h.bufsize⟩

theorem pktbuffer_processOutgoing (b : LinuxTpuart) :
    b.processOutgoing.pktbuffer = b.pktbuffer := by
  rw [processOutgoing]
  split
  · rfl
  · split <;> rfl

theorem Idle.of_processPacket {b b' : LinuxTpuart} (h : Idle b) {id : UInt16}
    {buf : List UInt8} (hbuf : buf.length ≤ uartReadsize)
    (hb' : b.processPacket id buf = some b') : Idle b' := by
  by_cases hclean : Items.Clean items (b.pktbuffer.contents ++ buf)
  · obtain ⟨c, hc, hidle, -⟩ := h.processPacket id hbuf hclean
    obtain rfl : c = b' := Option.some.inj (hc.symm.trans hb')
    exact hidle
  · rw [LinuxTpuart.processPacket] at hb'
    split at hb'
    · cases hb'
      exact h
    · rw [← h.contents_filled hbuf] at hclean
      have hnone := processLoop_none id (Nat.le_refl _) hclean
      cases hnone.symm.trans hb'

theorem Idle.call {b b' : LinuxTpuart} (h : Idle b) {id : UInt16} {c : Call}
    (hb' : b.call id c = some b') : Idle b' := by
  cases c with
  | update e =>
      obtain ⟨res, hres, rfl⟩ := Option.map_eq_some_iff.mp hb'
      have hout : Idle b.processOutgoing := h.of_ring (pktbuffer_processOutgoing b)
      rw [tryUpdate] at hres
      split at hres
      · cases hres
        exact h
      · cases e with
        | read buf hbuf =>
            obtain ⟨b', hpacket, rfl⟩ := Option.map_eq_some_iff.mp hres
            exact hout.of_processPacket hbuf hpacket
        | _ =>
            cases hres
            exact hout
  | init up =>
      cases hb'
      refine h.of_ring ?_
      rw [LinuxTpuart.init]
      split
      · rfl
      · split <;> rfl
  | broadcast t =>
      cases hb'
      refine h.of_ring ?_
      rw [LinuxTpuart.broadcast]
      split <;> rfl
  | read =>
      cases hb'
      refine h.of_ring ?_
      rw [LinuxTpuart.read]
      split
      · rfl
      · split <;> rfl
  | pop =>
      cases hb'
      exact h.of_ring rfl
  | shutdown =>
      cases hb'
      exact h.of_ring rfl

theorem Idle.calls {id : UInt16} {cs : List Call} {b b' : LinuxTpuart} (h : Idle b)
    (hb' : cs.foldlM (LinuxTpuart.call id) b = some b') : Idle b' := by
  induction cs generalizing b with
  | nil =>
      cases hb'
      exact h
  | cons c cs ih =>
      obtain ⟨b₁, hcall, hrest⟩ := Option.bind_eq_some_iff.mp hb'
      exact ih (h.call hcall) hrest

/-- After whole items, the next byte begins one. -/
def Begun (bs : List UInt8) : Prop :=
  ∀ (is : List (List UInt8)) x rest, (∀ i ∈ is, Items.IsItem items i) →
    bs = is.flatten ++ x :: rest → IsService x ∨ IsData x

theorem begun_iff {bs : List UInt8} : Begun bs ↔ Items.Clean items bs := by
  constructor
  · intro h is rest his hbs hstray
    cases rest with
    | nil => cases hstray
    | cons x rest =>
        obtain ⟨hs, hd⟩ := front_stray.mp hstray
        exact (h is x rest his hbs).elim hs hd
  · intro h is x rest his hbs
    by_contra hnot
    exact h is (x :: rest) his hbs (front_stray.mpr (not_or.mp hnot))

/-- In every state the backend can be in, the loop ends, each of its rounds having
taken a byte off or left, exactly if no byte stands in the place of an item that
begins none. -/
theorem loop_ends_iff {id : UInt16} {calls : List Call} {b : LinuxTpuart}
    (hb : calls.foldlM (call id) .new = some b) {buf : List UInt8}
    (hbuf : buf.length ≤ uartReadsize) :
    (Loops.Ends (round id) (b.filled buf) ∧
        Loops.Shrinks (round id) (fun b => b.pktbuffer.size) (b.filled buf)) ↔
      Begun (b.pktbuffer.contents ++ buf) := by
  have hidle := Idle.new.calls hb
  rw [begun_iff, ← hidle.contents_filled hbuf]
  constructor
  · intro h
    exact clean_of_ends id h.1
  · intro hclean
    exact ⟨(shrinks_of_clean id hclean).ends, shrinks_of_clean id hclean⟩

theorem loop_ends_confirm :
    (Loops.Ends (round 1) ((LinuxTpuart.new.init true).1.filled [0x0b]) ∧
        Loops.Shrinks (round 1) (fun b => b.pktbuffer.size)
          ((LinuxTpuart.new.init true).1.filled [0x0b])) ↔
      Begun ((LinuxTpuart.new.init true).1.pktbuffer.contents ++ [0x0b]) :=
  @loop_ends_iff 1 [.init true] _ rfl [0x0b] (by decide)

/-- A zero byte right after `init`. -/
theorem loop_endless :
    ∃ b, [Call.init true].foldlM (call 1) .new = some b ∧
      ¬ Loops.Ends (round 1) (b.filled [0]) :=
  ⟨_, rfl, Loops.not_ends_of_fixed (round_of_stray 1 rfl)⟩

/-! ## Streams of items -/

/-- An item of the coupler. -/
inductive Item where
  | confirm (ok : Bool)
  | error (code : UInt8) (h : code &&& 0x07 = 0x07)
  | data (t : Telegram) (h : t.ctrl &&& 0xd3 = 0x90)

namespace Item

def bytes : Item → List UInt8
  | .confirm ok => [if ok then 0x8b else 0x0b]
  | .error code _ => [code]
  | .data t _ => t.raw

/-- The telegrams passed on: not the own ones, and those in good order. -/
def passed (id : UInt16) : Item → List Telegram
  | .confirm _ => []
  | .error _ _ => []
  | .data t _ => if t.src ≠ id ∧ t.check then [t] else []

theorem isItem (i : Item) : Items.IsItem items i.bytes := by
  cases i with
  | confirm ok => cases ok <;> rfl
  | error code h => exact front_service (.inr h) []
  | data t h =>
      have hframe := t.isFrame
      have hctrl : IsData (t.raw.getD 0 0) := h
      show front t.raw = .item t.raw.length
      cases hraw : t.raw with
      | nil =>
          rw [hraw] at hframe
          exact absurd hframe.length_pos (Nat.lt_irrefl 0)
      | cons x xs =>
          rw [hraw] at hframe hctrl
          have hdata : IsData x := hctrl
          have hsize : announced (x :: xs) = (x :: xs).length := hframe.2
          rw [front_data hdata, if_pos hframe.complete, hsize]

theorem kept_bytes (id : UInt16) (i : Item) : kept id i.bytes = i.passed id := by
  cases i with
  | confirm ok => exact kept_short id (show 1 < tgHdr + 1 by decide)
  | error code h => exact kept_short id (show 1 < tgHdr + 1 by decide)
  | data t h => exact kept_raw id t

end Item

/-- The backend after it has received the bytes `got`. -/
structure Demuxed (id : UInt16) (got : List UInt8) (b : LinuxTpuart) : Prop where
  idle : Idle b
  held : b.pktbuffer.contents = (Items.scan items got).2
  pkts : b.pkts = (Items.scan items got).1.flatMap (kept id)

theorem Demuxed.new (id : UInt16) : Demuxed id [] .new := ⟨Idle.new, rfl, rfl⟩

theorem Demuxed.processPacket {id : UInt16} {got : List UInt8} {b : LinuxTpuart}
    (h : Demuxed id got b) {buf : List UInt8} (hbuf : buf.length ≤ uartReadsize)
    (hclean : Items.Clean items (got ++ buf)) :
    ∃ b', b.processPacket id buf = some b' ∧ Demuxed id (got ++ buf) b' := by
  have happend := Items.scan_append (C := items) got buf
  rw [Items.clean_iff, happend, ← h.held, ← Items.clean_iff] at hclean
  obtain ⟨b', hpacket, hidle, hheld, hpkts⟩ := h.idle.processPacket id hbuf hclean
  refine ⟨b', hpacket, hidle, ?_, ?_⟩
  · rw [happend, ← h.held, hheld]
  · rw [happend, ← h.held, hpkts, h.pkts, List.flatMap_append]

/-- Successive calls of `_process_packet`. -/
def processAll (id : UInt16) (chunks : List (List UInt8)) (b : LinuxTpuart) :
    Option LinuxTpuart :=
  chunks.foldlM (fun b buf => b.processPacket id buf) b

theorem Demuxed.processAll {id : UInt16} {got : List UInt8} {b : LinuxTpuart}
    (h : Demuxed id got b) {chunks : List (List UInt8)}
    (hchunks : ∀ c ∈ chunks, c.length ≤ uartReadsize)
    (hclean : Items.Clean items (got ++ chunks.flatten)) :
    ∃ b', b.processAll id chunks = some b' ∧ Demuxed id (got ++ chunks.flatten) b' := by
  induction chunks generalizing got b with
  | nil =>
      rw [List.flatten_nil, List.append_nil]
      exact ⟨b, rfl, h⟩
  | cons c cs ih =>
      rw [List.flatten_cons, ← List.append_assoc] at hclean ⊢
      obtain ⟨b₁, hpacket, h₁⟩ := h.processPacket (hchunks c (by simp)) hclean.left
      obtain ⟨b', hrest, h'⟩ :=
        ih h₁ (fun d hd => hchunks d (List.mem_cons_of_mem c hd)) hclean
      refine ⟨b', ?_, h'⟩
      show (b.processPacket id c).bind _ = _
      rw [hpacket]
      exact hrest

/-- A stream of items, however cut, is taken apart: every call returns, no byte is
lost, nothing is left, and the telegrams to be passed on are there in their order. -/
theorem items_demuxed (id : UInt16) (stream : List Item) (chunks : List (List UInt8))
    (hchunks : ∀ c ∈ chunks, 0 < c.length ∧ c.length ≤ uartReadsize)
    (hflat : chunks.flatten = stream.flatMap Item.bytes) :
    (∀ before c rest, chunks = before ++ c :: rest →
      ∃ b, processAll id before .new = some b ∧ (b.pktbuffer.write c).2 = true) ∧
    ∃ b, processAll id chunks .new = some b ∧ b.pktbuffer.size = 0 ∧
      b.pkts = stream.flatMap (Item.passed id) := by
  have hitems : ∀ i ∈ stream.map Item.bytes, Items.IsItem items i := by
    intro i hi
    obtain ⟨j, -, rfl⟩ := List.mem_map.mp hi
    exact j.isItem
  have hclean : Items.Clean items ([] ++ chunks.flatten) := by
    rw [List.nil_append, hflat, List.flatMap_def]
    exact Items.clean_flatten hitems
  have hscan : Items.scan items chunks.flatten = (stream.map Item.bytes, []) := by
    have hscan := Items.scan_flatten hitems []
    rw [List.append_nil, Items.scan_nil, List.append_nil] at hscan
    rw [hflat, List.flatMap_def]
    exact hscan
  constructor
  · rintro before c rest rfl
    have hc := (hchunks c (List.mem_append_right _ List.mem_cons_self)).2
    rw [List.flatten_append, ← List.append_assoc] at hclean
    obtain ⟨b, hb, hdemux⟩ := (Demuxed.new id).processAll
      (fun d hd => (hchunks d (List.mem_append_left _ hd)).2) hclean.left
    refine ⟨b, hb, ?_⟩
    rw [(RingBuffer.write_eq _ c).1]
    exact decide_eq_true (hdemux.idle.room hc)
  · obtain ⟨b, hb, hdemux⟩ :=
      (Demuxed.new id).processAll (fun c hc => (hchunks c hc).2) hclean
    have hheld := hdemux.held
    have hpkts := hdemux.pkts
    rw [List.nil_append, hscan] at hheld hpkts
    refine ⟨b, hb, RingBuffer.contents_eq_nil_iff.mp hheld, ?_⟩
    rw [hpkts, List.flatMap_map]
    exact List.flatMap_congr fun i _ => i.kept_bytes id

theorem items_demuxed_short :
    ∃ b, processAll 1 [[0x8b, 0xff] ++ LinuxTcp.shortTelegram.raw.take 2,
        LinuxTcp.shortTelegram.raw.drop 2] .new = some b ∧
      b.pktbuffer.size = 0 ∧ b.pkts = [LinuxTcp.shortTelegram] :=
  (items_demuxed 1 [.confirm true, .error 0xff rfl, .data LinuxTcp.shortTelegram rfl]
    [[0x8b, 0xff] ++ LinuxTcp.shortTelegram.raw.take 2, LinuxTcp.shortTelegram.raw.drop 2]
    (by decide) rfl).2

end LinuxTpuart

end LibSmoke
