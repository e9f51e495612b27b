import LibSmoke.Lib.Items

/-!
# Self-delimiting frames on a stream

A frame opens with a header of fixed length, and the header alone says how
long the whole frame is. A decoder that owns nothing but the bytes it has not
yet cut can then work on a stream that arrives in pieces of any size: it cuts
off frames while the front of what it holds is a whole one, and keeps the rest.

Two facts carry every use of such a decoder. `decode_flatten` says it inverts
concatenation: a stream that is a list of frames decodes to that list.
`decode_append` says it does not see how the stream was cut: decoding a prefix
first and the rest of it together with what follows afterwards gives the frames
one decoding of the whole gives. Both are those of the reader of a stream of items,
which the decoder is (`decode_eq_scan`).
-/

namespace Framing

/-- A frame format: how long the header is, and the length of the whole frame
as the header announces it. `size_append` says that the announcement is read
off the header alone. -/
structure Format (α : Type) where
  hdr : Nat
  size : List α → Nat
  hdr_pos : 0 < hdr
  hdr_le_size : ∀ bs, hdr ≤ size bs
  size_append : ∀ {bs : List α} (cs : List α), hdr ≤ bs.length →
    size (bs ++ cs) = size bs

variable {α : Type} (F : Format α)

/-- The front of the stream holds a whole frame. -/
def Complete (bs : List α) : Prop := F.hdr ≤ bs.length ∧ F.size bs ≤ bs.length

instance (bs : List α) : Decidable (Complete F bs) :=
  inferInstanceAs (Decidable (_ ∧ _))

/-- The stream is one frame, no more and no less. -/
def IsFrame (f : List α) : Prop := F.hdr ≤ f.length ∧ F.size f = f.length

instance (f : List α) : Decidable (IsFrame F f) :=
  inferInstanceAs (Decidable (_ ∧ _))

/-- Cut off at most `fuel` frames. -/
def decodeN : Nat → List α → List (List α) × List α
  | 0, bs => ([], bs)
  | fuel + 1, bs =>
      if Complete F bs then
        let (fs, rest) := decodeN fuel (bs.drop (F.size bs))
        (bs.take (F.size bs) :: fs, rest)
      else ([], bs)

/-- Cut off every whole frame at the front; the second component is what is
left. A frame is never empty, so the length of the stream is fuel enough. -/
def decode (bs : List α) : List (List α) × List α := decodeN F bs.length bs

variable {F}

theorem size_pos (bs : List α) : 0 < F.size bs :=
  Nat.lt_of_lt_of_le F.hdr_pos (F.hdr_le_size bs)

theorem IsFrame.length_pos {f : List α} (h : IsFrame F f) : 0 < f.length := by
  rw [← h.2]
  exact size_pos f

theorem Complete.append {bs : List α} (h : Complete F bs) (cs : List α) :
    Complete F (bs ++ cs) := by
  refine ⟨?_, ?_⟩
  · rw [List.length_append]
    exact Nat.le_trans h.1 (Nat.le_add_right _ _)
  · rw [F.size_append cs h.1, List.length_append]
    exact Nat.le_trans h.2 (Nat.le_add_right _ _)

theorem Complete.isFrame_take {bs : List α} (h : Complete F bs) :
    IsFrame F (bs.take (F.size bs)) := by
  have hlen : (bs.take (F.size bs)).length = F.size bs := by
    rw [List.length_take, Nat.min_eq_left h.2]
  refine ⟨by rw [hlen]; exact F.hdr_le_size bs, ?_⟩
  have hhdr : F.hdr ≤ (bs.take (F.size bs)).length := by
    rw [hlen]; exact F.hdr_le_size bs
  have hsize := F.size_append (bs.drop (F.size bs)) hhdr
  rw [List.take_append_drop] at hsize
  rw [hlen, ← hsize]

theorem IsFrame.complete {f : List α} (h : IsFrame F f) : Complete F f :=
  ⟨h.1, Nat.le_of_eq h.2⟩

/-- No part of a frame is a whole one. -/
theorem IsFrame.not_complete_part {bs cs : List α} (h : IsFrame F (bs ++ cs))
    (hcs : cs ≠ []) : ¬ Complete F bs := by
  intro hc
  have hsize := h.2
  have hpos := List.length_pos_iff.mpr hcs
  have hle := hc.2
  rw [F.size_append cs hc.1, List.length_append] at hsize
  omega

/-! ## Frames as items

A stream of frames is a stream of items with nothing stray in it, and the decoder
is the reader of these items. -/

def front (F : Format α) (bs : List α) : Items.Front :=
  if Complete F bs then .item (F.size bs) else .more

theorem front_of_complete {bs : List α} (h : Complete F bs) :
    front F bs = .item (F.size bs) :=
  if_pos h

theorem front_of_not_complete {bs : List α} (h : ¬ Complete F bs) : front F bs = .more :=
  if_neg h

theorem front_eq_item {bs : List α} {n : Nat} (h : front F bs = .item n) :
    Complete F bs ∧ F.size bs = n := by
  unfold front at h
  split at h
  · next hc => exact ⟨hc, Items.Front.item.inj h⟩
  · cases h

theorem front_ne_stray (bs : List α) : front F bs ≠ .stray := by
  unfold front
  split
  · simp
  · simp

theorem front_nil : front F ([] : List α) = .more :=
  front_of_not_complete fun h => Nat.not_le_of_lt F.hdr_pos h.1

theorem front_bounds {bs : List α} {n : Nat} (h : front F bs = .item n) :
    0 < n ∧ n ≤ bs.length := by
  obtain ⟨hc, rfl⟩ := front_eq_item h
  exact ⟨size_pos bs, hc.2⟩

theorem front_append {bs : List α} {n : Nat} (cs : List α) (h : front F bs = .item n) :
    front F (bs ++ cs) = .item n := by
  obtain ⟨hc, rfl⟩ := front_eq_item h
  rw [front_of_complete (hc.append cs), F.size_append cs hc.1]

theorem front_take {bs : List α} {n : Nat} (h : front F bs = .item n) :
    front F (bs.take n) = .item n := by
  obtain ⟨hc, rfl⟩ := front_eq_item h
  have hframe := hc.isFrame_take
  rw [front_of_complete hframe.complete, hframe.2, List.length_take, Nat.min_eq_left hc.2]

theorem front_stray_append {bs : List α} (cs : List α) (h : front F bs = .stray) :
    front F (bs ++ cs) = .stray :=
  absurd h (front_ne_stray bs)

def items (F : Format α) : Items.Code α where
  front := front F
  front_nil := front_nil
  item_bounds := front_bounds
  item_append := front_append
  item_take := front_take
  stray_append := front_stray_append

theorem isItem_iff {f : List α} : Items.IsItem (items F) f ↔ IsFrame F f := by
  constructor
  · intro h
    obtain ⟨hc, hsize⟩ := front_eq_item (show front F f = .item f.length from h)
    exact ⟨hc.1, hsize⟩
  · intro h
    show front F f = .item f.length
    rw [front_of_complete h.complete, h.2]

theorem decode_eq_scan (bs : List α) : decode F bs = Items.scan (items F) bs := by
  suffices h : ∀ fuel bs, decodeN F fuel bs = Items.scanN (items F) fuel bs from h _ bs
  intro fuel
  induction fuel with
  | zero => exact fun _ => rfl
  | succ fuel ih =>
      intro bs
      by_cases hc : Complete F bs
      · have hfront : (items F).front bs = .item (F.size bs) := front_of_complete hc
        rw [decodeN, if_pos hc, Items.scanN, hfront, ih]
      · have hfront : (items F).front bs = .more := front_of_not_complete hc
        rw [decodeN, if_neg hc, Items.scanN, hfront]

theorem decode_of_not_complete {bs : List α} (h : ¬ Complete F bs) :
    decode F bs = ([], bs) := by
  rw [decode_eq_scan]
  exact Items.scan_of_not_item fun n hn => h (front_eq_item hn).1

theorem decode_of_complete {bs : List α} (h : Complete F bs) :
    decode F bs = (bs.take (F.size bs) :: (decode F (bs.drop (F.size bs))).1,
      (decode F (bs.drop (F.size bs))).2) := by
  rw [decode_eq_scan, decode_eq_scan]
  exact Items.scan_of_item (front_of_complete h)

theorem decode_nil : decode F ([] : List α) = ([], []) := rfl

/-! ## What the decoder gives back -/

theorem decode_frame_append {f : List α} (h : IsFrame F f) (bs : List α) :
    decode F (f ++ bs) = (f :: (decode F bs).1, (decode F bs).2) := by
  rw [decode_eq_scan, decode_eq_scan]
  exact Items.scan_item_append (isItem_iff.mpr h) bs

/-- A stream of whole frames decodes to those frames, and whatever follows them
is decoded on its own. -/
theorem decode_flatten {fs : List (List α)} (h : ∀ f ∈ fs, IsFrame F f)
    (bs : List α) :
    decode F (fs.flatten ++ bs) = (fs ++ (decode F bs).1, (decode F bs).2) := by
  rw [decode_eq_scan, decode_eq_scan]
  exact Items.scan_flatten (fun f hf => isItem_iff.mpr (h f hf)) bs

/-- The frames and the rest are the stream again. -/
theorem flatten_decode (bs : List α) :
    (decode F bs).1.flatten ++ (decode F bs).2 = bs := by
  rw [decode_eq_scan]
  exact Items.flatten_scan bs

theorem isFrame_of_mem_decode {bs f : List α} (h : f ∈ (decode F bs).1) :
    IsFrame F f := by
  rw [decode_eq_scan] at h
  exact isItem_iff.mp (Items.isItem_of_mem_scan h)

/-- What is left over never holds a whole frame. -/
theorem not_complete_rest (bs : List α) : ¬ Complete F (decode F bs).2 := by
  rw [decode_eq_scan]
  exact fun hc => Items.front_rest (C := items F) bs _ (front_of_complete hc)

/-- The decoder does not see where the stream was cut. -/
theorem decode_append (bs cs : List α) :
    decode F (bs ++ cs) =
      ((decode F bs).1 ++ (decode F ((decode F bs).2 ++ cs)).1,
        (decode F ((decode F bs).2 ++ cs)).2) := by
  simp only [decode_eq_scan]
  exact Items.scan_append bs cs

end Framing
