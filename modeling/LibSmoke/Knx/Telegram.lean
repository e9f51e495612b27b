import LibSmoke.Lib.Framing
import Mathlib.Data.UInt
import Mathlib.Tactic.IntervalCases

/-!
# The KNX telegram

The unit of transfer on the link: a six byte header, a body of at most fifteen
bytes and a checksum. The source keeps it in a union of a packed header and the
raw bytes; here a telegram is its `size()` raw bytes, and the one thing that
makes a byte string a telegram, that the length nibble of byte 5 agrees with its
length, is a field. A default-constructed telegram is only ever a buffer to read
into, so it has no counterpart.

Byte order: `toBigEndian16` swaps the two bytes of a word and the struct stores
the result in the memory order of the (little-endian) host, which puts the high
byte of every address first on the wire.
-/

namespace LibSmoke

/-! ## Words and bytes -/

/-- `toBigEndian16` of common.h. -/
def toBigEndian16 (x : UInt16) : UInt16 := (x <<< 8) ||| (x >>> 8)

/-- `fromBigEndian16` of common.h is the same macro. -/
def fromBigEndian16 (x : UInt16) : UInt16 := toBigEndian16 x

/-- A 16-bit word in the memory of a little-endian host. -/
def bytes16 (x : UInt16) : List UInt8 := [x.toUInt8, (x >>> 8).toUInt8]

/-- The word stored at two consecutive bytes of such a memory. -/
def word16 (b₀ b₁ : UInt8) : UInt16 := b₀.toUInt16 ||| (b₁.toUInt16 <<< 8)

@[simp] theorem word16_bytes (x : UInt16) :
    word16 x.toUInt8 (x >>> 8).toUInt8 = x := by
  apply UInt16.eq_of_toBitVec_eq
  simp only [word16, UInt16.toBitVec_or, UInt16.toBitVec_shiftLeft,
    UInt8.toBitVec_toUInt16, UInt16.toBitVec_toUInt8,
    UInt16.toBitVec_shiftRight]
  apply BitVec.eq_of_getLsbD_eq
  intro i hi
  simp
  grind

@[simp] theorem fromBigEndian16_toBigEndian16 (x : UInt16) :
    fromBigEndian16 (toBigEndian16 x) = x := by
  apply UInt16.eq_of_toBitVec_eq
  simp only [fromBigEndian16, toBigEndian16, UInt16.toBitVec_or,
    UInt16.toBitVec_shiftLeft, UInt16.toBitVec_shiftRight]
  apply BitVec.eq_of_getLsbD_eq
  intro i hi
  simp
  grind

/-! ## Building a telegram -/

/-- `tg_size`: the longest telegram, the header and the longest body. -/
def tgMax : Nat := 22
def tgHdr : Nat := 6
def tgPayload : Nat := 15

inductive Level where
  | system
  | high
  | alarm
  | normal
  deriving DecidableEq

def Level.toUInt8 : Level → UInt8
  | .system => 0
  | .high => 1
  | .alarm => 2
  | .normal => 3

inductive DestType where
  | individual
  | group
  deriving DecidableEq

def DestType.toUInt8 : DestType → UInt8
  | .individual => 0
  | .group => 1

/-- `telegram::address::broadcast`. -/
def broadcastAddr : UInt16 := 0x00

/-- `telegram::config`. -/
structure Config where
  dest : UInt16
  priority : Level
  dtype : DestType
  routingCnt : UInt8

/-- The header a constructed telegram starts from: the control byte, the two
addresses as stored, and the routing and group bits of byte 5, whose low nibble
`write` fills in. -/
structure Header where
  ctrl : UInt8
  src : UInt16
  dest : UInt16
  flags : UInt8

/-- The bit fields of byte 5, `size` in the low nibble first. -/
def flagBits (routing group : UInt8) : UInt8 :=
  ((routing &&& 7) <<< 4) ||| (group <<< 7)

/-- `telegram(config)`, on the device with the given id. -/
def Header.ofConfig (id : UInt16) (c : Config) : Header where
  ctrl := (0xB0 : UInt8) ||| (c.priority.toUInt8 <<< 2)
  src := toBigEndian16 id
  dest := toBigEndian16 c.dest
  flags := flagBits c.routingCnt c.dtype.toUInt8

/-- `checksum`: the complement of the XOR of the bytes before it. -/
def checksumOf (bs : List UInt8) : UInt8 := ~~~ (bs.foldl (· ^^^ ·) 0)

theorem sizeNibble (routing group : UInt8) {size : UInt8}
    (h : size.toNat ≤ 15) :
    (flagBits routing group ||| size) &&& 0x0f = size := by
  have hsize : size &&& 0x0f = size := by
    apply UInt8.toNat_inj.mp
    rw [UInt8.toNat_and]
    show size.toNat &&& (2 ^ 4 - 1) = size.toNat
    rw [Nat.and_two_pow_sub_one_eq_mod]
    omega
  have hflags : flagBits routing group &&& 0x0f = 0 := by
    apply UInt8.eq_of_toBitVec_eq
    apply BitVec.eq_of_getLsbD_eq
    intro i hi
    simp only [flagBits]
    interval_cases i <;> simp
  have hdist : (flagBits routing group ||| size) &&& 0x0f =
      (flagBits routing group &&& 0x0f) ||| (size &&& 0x0f) := by
    apply UInt8.eq_of_toBitVec_eq
    simp only [UInt8.toBitVec_and, UInt8.toBitVec_or]
    apply BitVec.eq_of_getLsbD_eq
    intro i hi
    simp only [BitVec.getLsbD_and, BitVec.getLsbD_or, Bool.and_or_distrib_right]
  rw [hdist, hflags, hsize]
  exact UInt8.zero_or

/-- How long the telegram is that starts with these bytes: header, checksum and
as many body bytes as the low nibble of byte 5 says. -/
def announced (bs : List UInt8) : Nat :=
  tgHdr + 1 + ((bs.getD 5 0) &&& 0x0f).toNat

structure Telegram where
  raw : List UInt8
  raw_length : raw.length = announced raw
  deriving DecidableEq

namespace Telegram

/-- The raw bytes before the body. -/
def headerBytes (h : Header) (size : UInt8) : List UInt8 :=
  h.ctrl :: bytes16 h.src ++ bytes16 h.dest ++ [h.flags ||| size]

/-- What `write` leaves behind when the body fits: the body and its checksum. -/
def written (id : UInt16) (c : Config) (data : List UInt8)
    (h : data.length ≤ tgPayload) : Telegram :=
  let hdr := headerBytes (Header.ofConfig id c) (UInt8.ofNat data.length)
  { raw := hdr ++ data ++ [checksumOf (hdr ++ data)]
    raw_length := by
      rw [tgPayload] at h
      have hnat : (UInt8.ofNat data.length).toNat = data.length :=
        UInt8.toNat_ofNat_of_lt (by simp only [UInt8.size]; omega)
      have hnib := sizeNibble c.routingCnt c.dtype.toUInt8
        (by rw [hnat]; exact h)
      simp only [announced, hdr, headerBytes, Header.ofConfig, bytes16,
        List.cons_append, List.nil_append, List.length_cons,
        List.length_append, List.length_nil, List.getD_cons_succ,
        List.getD_cons_zero, hnib, hnat, tgHdr]
      omega }

/-- `write`, refused when the body is longer than the payload. -/
def write (id : UInt16) (c : Config) (data : List UInt8) : Option Telegram :=
  if h : data.length > tgPayload then none
  else some (written id c data (Nat.le_of_not_lt h))

/-! ## Getters -/

def byte (t : Telegram) (i : Nat) : UInt8 := t.raw.getD i 0

def ctrl (t : Telegram) : UInt8 := t.byte 0
def src (t : Telegram) : UInt16 := fromBigEndian16 (word16 (t.byte 1) (t.byte 2))
def dest (t : Telegram) : UInt16 :=
  fromBigEndian16 (word16 (t.byte 3) (t.byte 4))
def bodysize (t : Telegram) : Nat := (t.byte 5 &&& 0x0f).toNat
def size (t : Telegram) : Nat := tgHdr + t.bodysize + 1
def body (t : Telegram) : List UInt8 := (t.raw.drop tgHdr).take t.bodysize
def checksum (t : Telegram) : UInt8 := checksumOf (t.raw.take (t.size - 1))

/-- `check`: the fixed bits of the control byte and the checksum. -/
def check (t : Telegram) : Bool :=
  ((t.ctrl &&& 0b11010011) == 0b10010000) &&
    (t.checksum == t.byte (tgHdr + t.bodysize))

theorem raw_length_eq (t : Telegram) : t.raw.length = t.size := by
  have := t.raw_length
  simp only [announced, size, bodysize, byte] at this ⊢
  omega

theorem bodysize_le (t : Telegram) : t.bodysize ≤ tgPayload := by
  have : t.bodysize = (t.byte 5).toNat &&& (2 ^ 4 - 1) := UInt8.toNat_and ..
  rw [this, Nat.and_two_pow_sub_one_eq_mod, tgPayload]
  omega

theorem body_length (t : Telegram) : t.body.length = t.bodysize := by
  rw [body, List.length_take, List.length_drop, raw_length_eq, size]
  omega

/-! ## A telegram that was written -/

section Written

variable {id : UInt16} {c : Config} {data : List UInt8}
  (h : data.length ≤ tgPayload)

theorem written_of_write {t : Telegram} (hw : write id c data = some t) :
    ∃ h, t = written id c data h := by
  unfold write at hw
  split at hw
  · cases hw
  · next hlen =>
      injection hw with hw
      exact ⟨Nat.le_of_not_lt hlen, hw.symm⟩

@[simp] theorem src_written : (written id c data h).src = id := by
  simp [src, byte, written, headerBytes, Header.ofConfig, bytes16]

@[simp] theorem dest_written : (written id c data h).dest = c.dest := by
  simp [dest, byte, written, headerBytes, Header.ofConfig, bytes16]

@[simp] theorem bodysize_written :
    (written id c data h).bodysize = data.length := by
  have hlen : (written id c data h).raw.length = data.length + 7 := by
    simp only [written, headerBytes, bytes16, List.cons_append,
      List.nil_append, List.length_cons, List.length_append, List.length_nil]
  rw [raw_length_eq, size, tgHdr] at hlen
  omega

@[simp] theorem body_written : (written id c data h).body = data := by
  rw [body, bodysize_written]
  simp [written, headerBytes, bytes16, tgHdr]

/-- A telegram the constructor and `write` built passes its own check. -/
@[simp] theorem check_written : (written id c data h).check = true := by
  have hctrl :
      (((written id c data h).ctrl &&& 0b11010011) == 0b10010000) = true := by
    have : (written id c data h).ctrl =
        (0xB0 : UInt8) ||| (c.priority.toUInt8 <<< 2) := rfl
    rw [this]
    cases c.priority <;> decide
  have hsize : (written id c data h).size - 1 = (headerBytes
      (Header.ofConfig id c) (UInt8.ofNat data.length) ++ data).length := by
    rw [size, bodysize_written]
    simp only [headerBytes, bytes16, tgHdr, List.cons_append, List.nil_append,
      List.length_cons]
    omega
  have hlast : tgHdr + (written id c data h).bodysize =
      (written id c data h).size - 1 := by
    rw [size]; omega
  have hsum : (written id c data h).checksum =
      (written id c data h).byte (tgHdr + (written id c data h).bodysize) := by
    rw [checksum, byte, hlast, hsize]
    simp only [written, List.take_left]
    simp
  rw [check, hctrl, hsum]
  simp

end Written

/-! ## A telegram with a byte changed -/

/-- The telegram with byte `i` replaced, which leaves the length nibble alone. -/
def change (t : Telegram) (i : Nat) (b : UInt8)
    (h : i = 5 → b &&& 0x0f = t.byte 5 &&& 0x0f) : Telegram where
  raw := t.raw.set i b
  raw_length := by
    have hbyte : (t.raw.set i b).getD 5 0 &&& 0x0f = t.raw.getD 5 0 &&& 0x0f := by
      by_cases hi : i = 5
      · subst hi
        have hlt : 5 < t.raw.length := by
          rw [t.raw_length, announced, tgHdr]
          omega
        rw [List.getD_eq_getElem?_getD, List.getElem?_set_self hlt]
        exact h rfl
      · rw [List.getD_eq_getElem?_getD, List.getD_eq_getElem?_getD, List.getElem?_set_ne hi]
    rw [List.length_set, t.raw_length, announced, announced, hbyte]

theorem foldl_xor (a : UInt8) (bs : List UInt8) :
    bs.foldl (· ^^^ ·) a = a ^^^ bs.foldl (· ^^^ ·) 0 := by
  induction bs generalizing a with
  | nil => exact UInt8.xor_zero.symm
  | cons b bs ih =>
      rw [List.foldl_cons, List.foldl_cons, ih, ih (0 ^^^ b), UInt8.zero_xor, UInt8.xor_assoc]

/-- The XOR of all bytes moves with the one that is replaced. -/
theorem foldl_xor_set {bs : List UInt8} {i : Nat} (h : i < bs.length) (b : UInt8) :
    (bs.set i b).foldl (· ^^^ ·) 0 = bs.foldl (· ^^^ ·) 0 ^^^ (bs[i] ^^^ b) := by
  induction bs generalizing i with
  | nil => cases h
  | cons c bs ih =>
      cases i with
      | zero =>
          rw [List.set_cons_zero, List.foldl_cons, List.foldl_cons, UInt8.zero_xor,
            UInt8.zero_xor, foldl_xor b, foldl_xor c, List.getElem_cons_zero]
          symm
          calc c ^^^ bs.foldl (· ^^^ ·) 0 ^^^ (c ^^^ b)
              = (c ^^^ c) ^^^ (b ^^^ bs.foldl (· ^^^ ·) 0) := by ac_rfl
            _ = b ^^^ bs.foldl (· ^^^ ·) 0 := by rw [UInt8.xor_self, UInt8.zero_xor]
      | succ i =>
          rw [List.set_cons_succ, List.foldl_cons, List.foldl_cons, UInt8.zero_xor,
            foldl_xor c, foldl_xor c bs, ih (Nat.lt_of_succ_lt_succ h), UInt8.xor_assoc,
            List.getElem_cons_succ]

/-- The checksum is right exactly if the bytes of the telegram cancel out to ones. -/
theorem checksum_iff (t : Telegram) :
    t.checksum = t.byte (tgHdr + t.bodysize) ↔ t.raw.foldl (· ^^^ ·) 0 = -1 := by
  have hlen : t.raw.length = tgHdr + t.bodysize + 1 := t.raw_length_eq
  have hlast : t.raw.take (t.size - 1) ++ [t.byte (tgHdr + t.bodysize)] = t.raw := by
    have hlt : tgHdr + t.bodysize < t.raw.length := by
      rw [hlen]
      exact Nat.lt_succ_self _
    rw [size, Nat.add_sub_cancel, byte, List.getD_eq_getElem?_getD,
      List.getElem?_eq_getElem hlt, Option.getD_some, List.take_concat_get' _ _ hlt,
      ← hlen, List.take_length]
  have hfold : t.raw.foldl (· ^^^ ·) 0 =
      (t.raw.take (t.size - 1)).foldl (· ^^^ ·) 0 ^^^ t.byte (tgHdr + t.bodysize) := by
    conv_lhs => rw [← hlast, List.foldl_append]
    rfl
  rw [hfold, checksum, checksumOf, ← UInt8.xor_neg_one]
  constructor
  · intro h
    rw [← h, ← UInt8.xor_assoc, UInt8.xor_self, UInt8.zero_xor]
  · intro h
    rw [← h, ← UInt8.xor_assoc, UInt8.xor_self, UInt8.zero_xor]

theorem check_change {t : Telegram} (ht : t.check = true) {i : Nat} (hi : i < t.size)
    {b : UInt8} (hb : b ≠ t.byte i) (h : i = 5 → b &&& 0x0f = t.byte 5 &&& 0x0f) :
    (t.change i b h).check = false := by
  rw [check, Bool.and_eq_true, beq_iff_eq, beq_iff_eq, checksum_iff] at ht
  have hlt : i < t.raw.length := t.raw_length_eq.symm ▸ hi
  have hold : t.byte i = t.raw[i] := by
    rw [byte, List.getD_eq_getElem?_getD, List.getElem?_eq_getElem hlt, Option.getD_some]
  rw [check, Bool.and_eq_false_iff]
  refine .inr (beq_eq_false_iff_ne.mpr fun hsum => hb ?_)
  have hcancel : (-1 : UInt8) ^^^ (t.raw[i] ^^^ b) = -1 ^^^ 0 := by
    rw [← ht.2, ← foldl_xor_set hlt, UInt8.xor_zero, ht.2]
    exact (checksum_iff _).mp hsum
  rw [hold]
  exact (UInt8.xor_eq_zero_iff.mp ((UInt8.xor_right_inj _).mp hcancel)).symm

/-- A telegram that was written passes the check, and fails it as soon as one of its
bytes is another, wherever that is outside the length. -/
theorem change_detected (id : UInt16) (c : Config) (data : List UInt8)
    (h : data.length ≤ tgPayload) :
    (written id c data h).check = true ∧
    ∀ (i : Nat) (b : UInt8)
      (hb : i = 5 → b &&& 0x0f = (written id c data h).byte 5 &&& 0x0f),
      i < (written id c data h).size → b ≠ (written id c data h).byte i →
      ((written id c data h).change i b hb).check = false :=
  ⟨check_written h, fun _ _ hb hi hne => check_change (check_written h) hi hne hb⟩

theorem change_detected_body :
    ((written 1 ⟨2, .normal, .individual, 0⟩ [1, 2, 3] (by decide)).change 7 9
      (by decide)).check = false :=
  (change_detected 1 ⟨2, .normal, .individual, 0⟩ [1, 2, 3] (by decide)).2 7 9 (by decide)
    (by decide) (by decide)

/-! ## Telegrams as frames

A stream of telegrams is self-delimiting: seven bytes are on hand as soon as
anything is, and byte 5 of them says how many there are in all. -/

/-- The frame format of the link. -/
def frames : Framing.Format UInt8 where
  hdr := tgHdr + 1
  size := announced
  hdr_pos := Nat.succ_pos _
  hdr_le_size := fun bs => by rw [announced]; omega
  size_append := fun {bs} cs h => by
    rw [tgHdr] at h
    have hget : (bs ++ cs).getD 5 0 = bs.getD 5 0 := by
      rw [List.getD_eq_getElem?_getD, List.getD_eq_getElem?_getD,
        List.getElem?_append_left (by omega)]
    rw [announced, announced, hget]

theorem isFrame (t : Telegram) : Framing.IsFrame frames t.raw := by
  refine ⟨?_, t.raw_length.symm⟩
  rw [t.raw_length]
  exact frames.hdr_le_size t.raw

/-- A frame of that format is a telegram's bytes. -/
def ofFrame (bs : List UInt8) (h : Framing.IsFrame frames bs) : Telegram :=
  ⟨bs, h.2.symm⟩

theorem ext_raw {t u : Telegram} (h : t.raw = u.raw) : t = u := by
  cases t; cases u; cases h; rfl

theorem raw_injective : Function.Injective raw := fun _ _ => ext_raw

/-- The telegrams a stream of bytes begins with. -/
def ofBytes (bs : List UInt8) : List Telegram :=
  (Framing.decode frames bs).1.attach.map fun f =>
    ofFrame f.1 (Framing.isFrame_of_mem_decode f.2)

@[simp] theorem map_raw_ofBytes (bs : List UInt8) :
    (ofBytes bs).map raw = (Framing.decode frames bs).1 := by
  rw [ofBytes, List.map_map]
  exact List.attach_map_subtype_val _

theorem flatMap_raw_ofBytes (bs : List UInt8) :
    (ofBytes bs).flatMap raw ++ (Framing.decode frames bs).2 = bs := by
  rw [List.flatMap_def, map_raw_ofBytes]
  exact Framing.flatten_decode bs

@[simp] theorem ofBytes_flatMap (ts : List Telegram) :
    ofBytes (ts.flatMap raw) = ts := by
  refine List.map_injective_iff.mpr raw_injective ?_
  have hisFrame : ∀ f ∈ ts.map raw, Framing.IsFrame frames f := by
    intro f hf
    obtain ⟨t, -, rfl⟩ := List.mem_map.mp hf
    exact t.isFrame
  have hdec := Framing.decode_flatten hisFrame []
  rw [List.append_nil, Framing.decode_nil, List.append_nil] at hdec
  rw [map_raw_ofBytes, List.flatMap_def, hdec]

/-- A stream of telegrams is cut somewhere. -/
theorem flatMap_raw_split {ts : List Telegram} {bs cs : List UInt8}
    (h : ts.flatMap raw = bs ++ cs) :
    ∃ us, ts = ofBytes bs ++ us ∧
      us.flatMap raw = (Framing.decode frames bs).2 ++ cs := by
  have hall : ts = ofBytes bs ++
      ofBytes ((Framing.decode frames bs).2 ++ cs) := by
    refine List.map_injective_iff.mpr raw_injective ?_
    rw [← ofBytes_flatMap ts, h, List.map_append, map_raw_ofBytes,
      map_raw_ofBytes, map_raw_ofBytes, Framing.decode_append]
  refine ⟨_, hall, ?_⟩
  rw [hall, List.flatMap_append] at h
  refine List.append_cancel_left (h.trans ?_)
  rw [← List.append_assoc, flatMap_raw_ofBytes]

end Telegram

end LibSmoke
