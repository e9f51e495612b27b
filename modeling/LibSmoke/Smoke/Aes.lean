import Mathlib.Data.List.Basic
import Mathlib.Data.UInt

/-!
# AES in counter mode

The vendored cipher as the client uses it: 256-bit keys, and of the modes only
`AES_CTR_xcrypt_buffer`. A state is four columns of four bytes, as the source's
`state_t`, and a counter block is sixteen bytes.

The loop of `AES_CTR_xcrypt_buffer` looks at the data in one place, the XOR, so
its output is the data XORed with a keystream that the key and the counter
decide (`out_eq`), and the counter blocks it feeds to the cipher are the first
ones counted from `Iv` on (`fed_eq`). `fed` is not in the source: it records the
values of `Iv` at the moment they are encrypted.
-/

namespace LibSmoke

namespace Aes

/-- A column of the state, or a word of the key schedule. -/
structure Word where
  b0 : UInt8
  b1 : UInt8
  b2 : UInt8
  b3 : UInt8
  deriving DecidableEq

namespace Word

def xor (v w : Word) : Word :=
  ⟨v.b0 ^^^ w.b0, v.b1 ^^^ w.b1, v.b2 ^^^ w.b2, v.b3 ^^^ w.b3⟩

def bytes (w : Word) : List UInt8 := [w.b0, w.b1, w.b2, w.b3]

end Word

/-- `state_t`. -/
structure State where
  c0 : Word
  c1 : Word
  c2 : Word
  c3 : Word
  deriving DecidableEq

def sbox : List UInt8 := [
  0x63, 0x7c, 0x77, 0x7b, 0xf2, 0x6b, 0x6f, 0xc5, 0x30, 0x01, 0x67, 0x2b, 0xfe,
  0xd7, 0xab, 0x76, 0xca, 0x82, 0xc9, 0x7d, 0xfa, 0x59, 0x47, 0xf0, 0xad, 0xd4,
  0xa2, 0xaf, 0x9c, 0xa4, 0x72, 0xc0, 0xb7, 0xfd, 0x93, 0x26, 0x36, 0x3f, 0xf7,
  0xcc, 0x34, 0xa5, 0xe5, 0xf1, 0x71, 0xd8, 0x31, 0x15, 0x04, 0xc7, 0x23, 0xc3,
  0x18, 0x96, 0x05, 0x9a, 0x07, 0x12, 0x80, 0xe2, 0xeb, 0x27, 0xb2, 0x75, 0x09,
  0x83, 0x2c, 0x1a, 0x1b, 0x6e, 0x5a, 0xa0, 0x52, 0x3b, 0xd6, 0xb3, 0x29, 0xe3,
  0x2f, 0x84, 0x53, 0xd1, 0x00, 0xed, 0x20, 0xfc, 0xb1, 0x5b, 0x6a, 0xcb, 0xbe,
  0x39, 0x4a, 0x4c, 0x58, 0xcf, 0xd0, 0xef, 0xaa, 0xfb, 0x43, 0x4d, 0x33, 0x85,
  0x45, 0xf9, 0x02, 0x7f, 0x50, 0x3c, 0x9f, 0xa8, 0x51, 0xa3, 0x40, 0x8f, 0x92,
  0x9d, 0x38, 0xf5, 0xbc, 0xb6, 0xda, 0x21, 0x10, 0xff, 0xf3, 0xd2, 0xcd, 0x0c,
  0x13, 0xec, 0x5f, 0x97, 0x44, 0x17, 0xc4, 0xa7, 0x7e, 0x3d, 0x64, 0x5d, 0x19,
  0x73, 0x60, 0x81, 0x4f, 0xdc, 0x22, 0x2a, 0x90, 0x88, 0x46, 0xee, 0xb8, 0x14,
  0xde, 0x5e, 0x0b, 0xdb, 0xe0, 0x32, 0x3a, 0x0a, 0x49, 0x06, 0x24, 0x5c, 0xc2,
  0xd3, 0xac, 0x62, 0x91, 0x95, 0xe4, 0x79, 0xe7, 0xc8, 0x37, 0x6d, 0x8d, 0xd5,
  0x4e, 0xa9, 0x6c, 0x56, 0xf4, 0xea, 0x65, 0x7a, 0xae, 0x08, 0xba, 0x78, 0x25,
  0x2e, 0x1c, 0xa6, 0xb4, 0xc6, 0xe8, 0xdd, 0x74, 0x1f, 0x4b, 0xbd, 0x8b, 0x8a,
  0x70, 0x3e, 0xb5, 0x66, 0x48, 0x03, 0xf6, 0x0e, 0x61, 0x35, 0x57, 0xb9, 0x86,
  0xc1, 0x1d, 0x9e, 0xe1, 0xf8, 0x98, 0x11, 0x69, 0xd9, 0x8e, 0x94, 0x9b, 0x1e,
  0x87, 0xe9, 0xce, 0x55, 0x28, 0xdf, 0x8c, 0xa1, 0x89, 0x0d, 0xbf, 0xe6, 0x42,
  0x68, 0x41, 0x99, 0x2d, 0x0f, 0xb0, 0x54, 0xbb, 0x16]

def rcon : List UInt8 :=
  [0x8d, 0x01, 0x02, 0x04, 0x08, 0x10, 0x20, 0x40, 0x80, 0x1b, 0x36]

def getSBoxValue (num : UInt8) : UInt8 := sbox.getD num.toNat 0

/-- `Nk` and `Nr` for a 256-bit key. -/
def nk : Nat := 8
def nr : Nat := 14

def subWord (w : Word) : Word :=
  ⟨getSBoxValue w.b0, getSBoxValue w.b1, getSBoxValue w.b2, getSBoxValue w.b3⟩

def rotWord (w : Word) : Word := ⟨w.b1, w.b2, w.b3, w.b0⟩

/-! ## The key schedule -/

def zeroWord : Word := ⟨0, 0, 0, 0⟩

/-- Word `i` of the schedule, the words before it being `ws`. -/
def nextWord (ws : List Word) (i : Nat) : Word :=
  let tempa := ws.getD (i - 1) zeroWord
  let tempa :=
    if i % nk = 0 then
      let w := subWord (rotWord tempa)
      { w with b0 := w.b0 ^^^ rcon.getD (i / nk) 0 }
    else if i % nk = 4 then subWord tempa
    else tempa
  (ws.getD (i - nk) zeroWord).xor tempa

/-- `KeyExpansion`: the first words are the key itself. -/
def keyExpansion (key : List UInt8) : List Word :=
  let first := (List.range nk).map fun i =>
    ⟨key.getD (i * 4) 0, key.getD (i * 4 + 1) 0, key.getD (i * 4 + 2) 0,
      key.getD (i * 4 + 3) 0⟩
  (List.range (4 * (nr + 1) - nk)).foldl
    (fun ws i => ws ++ [nextWord ws (nk + i)]) first

/-! ## The cipher -/

def addRoundKey (round : Nat) (s : State) (roundKey : List Word) : State :=
  ⟨s.c0.xor (roundKey.getD (round * 4) zeroWord),
    s.c1.xor (roundKey.getD (round * 4 + 1) zeroWord),
    s.c2.xor (roundKey.getD (round * 4 + 2) zeroWord),
    s.c3.xor (roundKey.getD (round * 4 + 3) zeroWord)⟩

def subBytes (s : State) : State :=
  ⟨subWord s.c0, subWord s.c1, subWord s.c2, subWord s.c3⟩

/-- Row `j`, byte `j` of every column, moves `j` columns to the left. -/
def shiftRows (s : State) : State :=
  ⟨⟨s.c0.b0, s.c1.b1, s.c2.b2, s.c3.b3⟩, ⟨s.c1.b0, s.c2.b1, s.c3.b2, s.c0.b3⟩,
    ⟨s.c2.b0, s.c3.b1, s.c0.b2, s.c1.b3⟩, ⟨s.c3.b0, s.c0.b1, s.c1.b2, s.c2.b3⟩⟩

def xtime (x : UInt8) : UInt8 := (x <<< 1) ^^^ (((x >>> 7) &&& 1) * 0x1b)

def mixColumn (w : Word) : Word :=
  let tmp := w.b0 ^^^ w.b1 ^^^ w.b2 ^^^ w.b3
  ⟨w.b0 ^^^ (xtime (w.b0 ^^^ w.b1) ^^^ tmp),
    w.b1 ^^^ (xtime (w.b1 ^^^ w.b2) ^^^ tmp),
    w.b2 ^^^ (xtime (w.b2 ^^^ w.b3) ^^^ tmp),
    w.b3 ^^^ (xtime (w.b3 ^^^ w.b0) ^^^ tmp)⟩

def mixColumns (s : State) : State :=
  ⟨mixColumn s.c0, mixColumn s.c1, mixColumn s.c2, mixColumn s.c3⟩

/-- `Cipher`: all rounds but the last mix the columns. -/
def cipher (s : State) (roundKey : List Word) : State :=
  let s := addRoundKey 0 s roundKey
  let s := (List.range (nr - 1)).foldl (fun s i =>
    addRoundKey (i + 1) (mixColumns (shiftRows (subBytes s))) roundKey) s
  addRoundKey nr (shiftRows (subBytes s)) roundKey

-- the test vector of the standard for 256-bit keys
example : cipher ⟨⟨0x00, 0x11, 0x22, 0x33⟩, ⟨0x44, 0x55, 0x66, 0x77⟩,
      ⟨0x88, 0x99, 0xaa, 0xbb⟩, ⟨0xcc, 0xdd, 0xee, 0xff⟩⟩
      (keyExpansion ((List.range 32).map UInt8.ofNat)) =
    ⟨⟨0x8e, 0xa2, 0xb7, 0xca⟩, ⟨0x51, 0x67, 0x45, 0xbf⟩,
      ⟨0xea, 0xfc, 0x49, 0x90⟩, ⟨0x4b, 0x49, 0x60, 0x89⟩⟩ := by
  decide +kernel

/-! ## Counter mode -/

/-- Sixteen bytes in memory. -/
structure Block where
  bytes : List UInt8
  length_eq : bytes.length = 16
  deriving DecidableEq

namespace Block

def state (b : Block) : State :=
  let w := fun i => ⟨b.bytes.getD i 0, b.bytes.getD (i + 1) 0,
    b.bytes.getD (i + 2) 0, b.bytes.getD (i + 3) 0⟩
  ⟨w 0, w 4, w 8, w 12⟩

def ofState (s : State) : Block :=
  ⟨s.c0.bytes ++ s.c1.bytes ++ s.c2.bytes ++ s.c3.bytes, rfl⟩

/-- The bytes from the last to the first: a byte that overflows passes the
carry on. -/
def incBytes : List UInt8 → List UInt8
  | [] => []
  | b :: bs => if b = 255 then 0 :: incBytes bs else (b + 1) :: bs

theorem length_incBytes (bs : List UInt8) :
    (incBytes bs).length = bs.length := by
  induction bs with
  | nil => rfl
  | cons b bs ih =>
      rw [incBytes]
      split
      · rw [List.length_cons, ih, List.length_cons]
      · rfl

/-- The increment of `Iv`. -/
def inc (b : Block) : Block :=
  ⟨(incBytes b.bytes.reverse).reverse, by
    rw [List.length_reverse, length_incBytes, List.length_reverse, b.length_eq]⟩

end Block

/-- `AES_ctx`. -/
structure Ctx where
  roundKey : List Word
  iv : Block
  deriving DecidableEq

/-- `AES_init_ctx_iv`. -/
def initCtxIv (key : List UInt8) (iv : Block) : Ctx := ⟨keyExpansion key, iv⟩

/-- What a run of `AES_CTR_xcrypt_buffer` leaves: the buffer, the context, and
the counter blocks it encrypted. -/
structure Xcrypt where
  out : List UInt8
  ctx : Ctx
  fed : List Block
  deriving DecidableEq

def ctrLoop : Ctx → Nat → Block → List UInt8 → Xcrypt
  | ctx, _, _, [] => ⟨[], ctx, []⟩
  | ctx, bi, buffer, b :: bs =>
      if bi = 16 then
        let buffer := Block.ofState (cipher ctx.iv.state ctx.roundKey)
        let r := ctrLoop { ctx with iv := ctx.iv.inc } 1 buffer bs
        ⟨(b ^^^ buffer.bytes.getD 0 0) :: r.out, r.ctx, ctx.iv :: r.fed⟩
      else
        let r := ctrLoop ctx (bi + 1) buffer bs
        ⟨(b ^^^ buffer.bytes.getD bi 0) :: r.out, r.ctx, r.fed⟩

/-- `AES_CTR_xcrypt_buffer`. The first byte needs a new block, so it does not
matter what the local buffer held. -/
def ctrXcryptBuffer (ctx : Ctx) (buf : List UInt8) : Xcrypt :=
  ctrLoop ctx 16 ctx.iv buf

/-! ## The keystream -/

/-- What a run XORs to its data: its output on zeros. -/
def keystream (ctx : Ctx) (n : Nat) : List UInt8 :=
  (ctrXcryptBuffer ctx (List.replicate n 0)).out

theorem length_ctrLoop (ctx : Ctx) (bi : Nat) (buffer : Block)
    (bs : List UInt8) : (ctrLoop ctx bi buffer bs).out.length = bs.length := by
  induction bs generalizing ctx bi buffer with
  | nil => rfl
  | cons b bs ih =>
      rw [ctrLoop]
      split <;> simp only [List.length_cons, ih]

theorem ctrLoop_eq (ctx : Ctx) (bi : Nat) (buffer : Block) (bs : List UInt8) :
    (ctrLoop ctx bi buffer bs).out = List.zipWith (· ^^^ ·) bs
      (ctrLoop ctx bi buffer (List.replicate bs.length 0)).out := by
  induction bs generalizing ctx bi buffer with
  | nil => rfl
  | cons b bs ih =>
      rw [ctrLoop, List.length_cons, List.replicate_succ, ctrLoop]
      split
      · simp only [List.zipWith_cons_cons, UInt8.zero_xor]
        rw [ih]
      · simp only [List.zipWith_cons_cons, UInt8.zero_xor]
        rw [ih]

theorem out_eq (ctx : Ctx) (buf : List UInt8) :
    (ctrXcryptBuffer ctx buf).out =
      List.zipWith (· ^^^ ·) buf (keystream ctx buf.length) :=
  ctrLoop_eq ctx 16 ctx.iv buf

@[simp] theorem length_out (ctx : Ctx) (buf : List UInt8) :
    (ctrXcryptBuffer ctx buf).out.length = buf.length :=
  length_ctrLoop ..

@[simp] theorem length_keystream (ctx : Ctx) (n : Nat) :
    (keystream ctx n).length = n := by
  rw [keystream, length_out, List.length_replicate]

/-- XOR with a list of the same length gives the data back only if the list is
all zeros. -/
theorem zipWith_xor_eq_self {bs ks : List UInt8} (h : ks.length = bs.length) :
    List.zipWith (· ^^^ ·) bs ks = bs ↔ ks = List.replicate bs.length 0 := by
  induction bs generalizing ks with
  | nil => simp [List.length_eq_zero_iff.mp h]
  | cons b bs ih =>
      cases ks with
      | nil => cases h
      | cons k ks =>
          have hbyte : b ^^^ k = b ↔ k = 0 := by
            constructor
            · intro hk
              have hboth : b ^^^ (b ^^^ k) = b ^^^ b := by rw [hk]
              rwa [← UInt8.xor_assoc, UInt8.xor_self, UInt8.zero_xor] at hboth
            · rintro rfl
              exact UInt8.xor_zero
          rw [List.zipWith_cons_cons, List.length_cons, List.replicate_succ,
            List.cons.injEq, List.cons.injEq, hbyte, ih (Nat.succ.inj h)]

/-- Encrypting leaves a buffer as it was only where the keystream is zero. -/
theorem out_eq_self_iff (ctx : Ctx) (buf : List UInt8) :
    (ctrXcryptBuffer ctx buf).out = buf ↔
      keystream ctx buf.length = List.replicate buf.length 0 := by
  rw [out_eq, zipWith_xor_eq_self (length_keystream _ _)]

theorem zipWith_xor_xor {bs ks : List UInt8} (h : ks.length = bs.length) :
    List.zipWith (· ^^^ ·) (List.zipWith (· ^^^ ·) bs ks) ks = bs := by
  induction bs generalizing ks with
  | nil => rfl
  | cons b bs ih =>
      cases ks with
      | nil => cases h
      | cons k ks =>
          rw [List.zipWith_cons_cons, List.zipWith_cons_cons,
            ih (Nat.succ.inj h), UInt8.xor_assoc, UInt8.xor_self,
            UInt8.xor_zero]

/-- Decrypting what was encrypted under the same key and counter. -/
theorem out_out (ctx : Ctx) (buf : List UInt8) :
    (ctrXcryptBuffer ctx (ctrXcryptBuffer ctx buf).out).out = buf := by
  rw [out_eq, length_out, out_eq ctx buf]
  exact zipWith_xor_xor (length_keystream _ _)

/-! ## The counter blocks -/

/-- The first `n` counter blocks from `iv` on. -/
def counters (iv : Block) : Nat → List Block
  | 0 => []
  | n + 1 => iv :: counters iv.inc n

theorem fed_ctrLoop (ctx : Ctx) {bi : Nat} (hbi : bi ≤ 16) (buffer : Block)
    (bs : List UInt8) : (ctrLoop ctx bi buffer bs).fed =
      counters ctx.iv ((bs.length + bi - 1) / 16) := by
  induction bs generalizing ctx bi buffer with
  | nil =>
      have hzero : (([] : List UInt8).length + bi - 1) / 16 = 0 := by
        rw [List.length_nil]
        omega
      rw [hzero]
      rfl
  | cons b bs ih =>
      rw [ctrLoop]
      split
      · next h =>
          subst h
          have hone : ((b :: bs).length + 16 - 1) / 16 =
              (bs.length + 1 - 1) / 16 + 1 := by
            rw [List.length_cons]
            omega
          simp only [hone, counters]
          rw [ih _ (by omega)]
      · next h =>
          have hsame : ((b :: bs).length + bi - 1) / 16 =
              (bs.length + (bi + 1) - 1) / 16 := by
            rw [List.length_cons]
            omega
          simp only [hsame]
          exact ih _ (by omega) _

/-- A run on `n` bytes encrypts a counter block for every sixteen bytes begun. -/
theorem fed_eq (ctx : Ctx) (buf : List UInt8) :
    (ctrXcryptBuffer ctx buf).fed =
      counters ctx.iv ((buf.length + 15) / 16) :=
  fed_ctrLoop ctx (Nat.le_refl 16) ctx.iv buf

end Aes

end LibSmoke
