import LibSmoke.Lib.Chaining
import LibSmoke.Smoke.Aes

/-!
# AES on blocks

The other modes of the vendored cipher, which decrypt: `AES_ECB_*` and `AES_CBC_*`. Both
directions go through the same states with the rounds cut at different places: what is
undone is the rows shifted, the round key and the columns mixed (`shiftRows_foldl`).
Mixing columns is linear, so it is enough to undo it on columns with one byte
(`invMixColumn_mixColumn`).

A buffer is the blocks in memory from the pointer on. Both loops of the chained mode take
a block as long as they are below the length, so that a length within a block counts to
its end (`cbcEncryptLoop_eq`).
-/

namespace LibSmoke

namespace Aes

def rsbox : List UInt8 := [
  0x52, 0x09, 0x6a, 0xd5, 0x30, 0x36, 0xa5, 0x38, 0xbf, 0x40, 0xa3, 0x9e, 0x81,
  0xf3, 0xd7, 0xfb, 0x7c, 0xe3, 0x39, 0x82, 0x9b, 0x2f, 0xff, 0x87, 0x34, 0x8e,
  0x43, 0x44, 0xc4, 0xde, 0xe9, 0xcb, 0x54, 0x7b, 0x94, 0x32, 0xa6, 0xc2, 0x23,
  0x3d, 0xee, 0x4c, 0x95, 0x0b, 0x42, 0xfa, 0xc3, 0x4e, 0x08, 0x2e, 0xa1, 0x66,
  0x28, 0xd9, 0x24, 0xb2, 0x76, 0x5b, 0xa2, 0x49, 0x6d, 0x8b, 0xd1, 0x25, 0x72,
  0xf8, 0xf6, 0x64, 0x86, 0x68, 0x98, 0x16, 0xd4, 0xa4, 0x5c, 0xcc, 0x5d, 0x65,
  0xb6, 0x92, 0x6c, 0x70, 0x48, 0x50, 0xfd, 0xed, 0xb9, 0xda, 0x5e, 0x15, 0x46,
  0x57, 0xa7, 0x8d, 0x9d, 0x84, 0x90, 0xd8, 0xab, 0x00, 0x8c, 0xbc, 0xd3, 0x0a,
  0xf7, 0xe4, 0x58, 0x05, 0xb8, 0xb3, 0x45, 0x06, 0xd0, 0x2c, 0x1e, 0x8f, 0xca,
  0x3f, 0x0f, 0x02, 0xc1, 0xaf, 0xbd, 0x03, 0x01, 0x13, 0x8a, 0x6b, 0x3a, 0x91,
  0x11, 0x41, 0x4f, 0x67, 0xdc, 0xea, 0x97, 0xf2, 0xcf, 0xce, 0xf0, 0xb4, 0xe6,
  0x73, 0x96, 0xac, 0x74, 0x22, 0xe7, 0xad, 0x35, 0x85, 0xe2, 0xf9, 0x37, 0xe8,
  0x1c, 0x75, 0xdf, 0x6e, 0x47, 0xf1, 0x1a, 0x71, 0x1d, 0x29, 0xc5, 0x89, 0x6f,
  0xb7, 0x62, 0x0e, 0xaa, 0x18, 0xbe, 0x1b, 0xfc, 0x56, 0x3e, 0x4b, 0xc6, 0xd2,
  0x79, 0x20, 0x9a, 0xdb, 0xc0, 0xfe, 0x78, 0xcd, 0x5a, 0xf4, 0x1f, 0xdd, 0xa8,
  0x33, 0x88, 0x07, 0xc7, 0x31, 0xb1, 0x12, 0x10, 0x59, 0x27, 0x80, 0xec, 0x5f,
  0x60, 0x51, 0x7f, 0xa9, 0x19, 0xb5, 0x4a, 0x0d, 0x2d, 0xe5, 0x7a, 0x9f, 0x93,
  0xc9, 0x9c, 0xef, 0xa0, 0xe0, 0x3b, 0x4d, 0xae, 0x2a, 0xf5, 0xb0, 0xc8, 0xeb,
  0xbb, 0x3c, 0x83, 0x53, 0x99, 0x61, 0x17, 0x2b, 0x04, 0x7e, 0xba, 0x77, 0xd6,
  0x26, 0xe1, 0x69, 0x14, 0x63, 0x55, 0x21, 0x0c, 0x7d]

def getSBoxInvert (num : UInt8) : UInt8 := rsbox.getD num.toNat 0

def invSubWord (w : Word) : Word :=
  ⟨getSBoxInvert w.b0, getSBoxInvert w.b1, getSBoxInvert w.b2, getSBoxInvert w.b3⟩

def invSubBytes (s : State) : State :=
  ⟨invSubWord s.c0, invSubWord s.c1, invSubWord s.c2, invSubWord s.c3⟩

/-- Row `j`, byte `j` of every column, moves `j` columns to the right. -/
def invShiftRows (s : State) : State :=
  ⟨⟨s.c0.b0, s.c3.b1, s.c2.b2, s.c1.b3⟩, ⟨s.c1.b0, s.c0.b1, s.c3.b2, s.c2.b3⟩,
    ⟨s.c2.b0, s.c1.b1, s.c0.b2, s.c3.b3⟩, ⟨s.c3.b0, s.c2.b1, s.c1.b2, s.c0.b3⟩⟩

def multiply (x y : UInt8) : UInt8 :=
  (y &&& 1) * x ^^^ ((y >>> (1 : UInt8)) &&& 1) * xtime x ^^^
    ((y >>> (2 : UInt8)) &&& 1) * xtime (xtime x) ^^^
    ((y >>> (3 : UInt8)) &&& 1) * xtime (xtime (xtime x)) ^^^
    ((y >>> (4 : UInt8)) &&& 1) * xtime (xtime (xtime (xtime x)))

def invMixColumn (w : Word) : Word :=
  ⟨multiply w.b0 0x0e ^^^ multiply w.b1 0x0b ^^^ multiply w.b2 0x0d ^^^ multiply w.b3 0x09,
    multiply w.b0 0x09 ^^^ multiply w.b1 0x0e ^^^ multiply w.b2 0x0b ^^^ multiply w.b3 0x0d,
    multiply w.b0 0x0d ^^^ multiply w.b1 0x09 ^^^ multiply w.b2 0x0e ^^^ multiply w.b3 0x0b,
    multiply w.b0 0x0b ^^^ multiply w.b1 0x0d ^^^ multiply w.b2 0x09 ^^^ multiply w.b3 0x0e⟩

def invMixColumns (s : State) : State :=
  ⟨invMixColumn s.c0, invMixColumn s.c1, invMixColumn s.c2, invMixColumn s.c3⟩

/-- `InvCipher`: the rounds from the last but one down to the first. -/
def invCipher (s : State) (roundKey : List Word) : State :=
  let s := addRoundKey nr s roundKey
  let s := (List.range (nr - 1)).reverse.foldl (fun s i =>
    invMixColumns (addRoundKey (i + 1) (invSubBytes (invShiftRows s)) roundKey)) s
  addRoundKey 0 (invSubBytes (invShiftRows s)) roundKey

/-! ## A round undone -/

/-- A function that takes a table to the indices undoes a look at the table. -/
theorem table_undone {t : List UInt8} {f : UInt8 → UInt8}
    (h : t.map (fun x => (f x).toNat) = List.range 256) (x : UInt8) :
    f (t.getD x.toNat 0) = x := by
  have hx : x.toNat < 256 := x.toNat_lt
  have hlen : t.length = 256 := by
    simpa using congrArg List.length h
  have hat := congrArg (fun ns : List Nat => ns.getD x.toNat 0) h
  simp only [List.getD_eq_getElem?_getD, List.getElem?_map, List.getElem?_range hx] at hat
  rw [← UInt8.toNat_inj, List.getD_eq_getElem?_getD]
  rw [List.getElem?_eq_getElem (by omega)] at hat ⊢
  exact hat

theorem getSBoxInvert_getSBoxValue (x : UInt8) : getSBoxInvert (getSBoxValue x) = x :=
  table_undone (by decide +kernel) x

theorem getSBoxValue_getSBoxInvert (x : UInt8) : getSBoxValue (getSBoxInvert x) = x :=
  table_undone (by decide +kernel) x

theorem xor_left_comm (a b c : UInt8) : a ^^^ (b ^^^ c) = b ^^^ (a ^^^ c) := by
  rw [← UInt8.xor_assoc, UInt8.xor_comm a b, UInt8.xor_assoc]

theorem xor_xor_self (a b : UInt8) : a ^^^ (a ^^^ b) = b := by
  rw [← UInt8.xor_assoc, UInt8.xor_self, UInt8.zero_xor]

theorem bit_cases (z : UInt8) : z &&& 1 = 0 ∨ z &&& 1 = 1 := by
  have hbit : (z &&& 1).toNat = z.toNat % 2 := by
    rw [UInt8.toNat_and]
    exact Nat.and_one_is_mod _
  rw [← UInt8.toNat_inj, ← UInt8.toNat_inj, hbit]
  exact Nat.mod_two_eq_zero_or_one _

theorem bit_mul_xor (z x y : UInt8) :
    (z &&& 1) * (x ^^^ y) = (z &&& 1) * x ^^^ (z &&& 1) * y := by
  rcases bit_cases z with hz | hz <;> rw [hz]
  · rw [UInt8.zero_mul, UInt8.zero_mul, UInt8.zero_mul, UInt8.xor_self]
  · rw [UInt8.one_mul, UInt8.one_mul, UInt8.one_mul]

theorem xtime_xor (x y : UInt8) : xtime (x ^^^ y) = xtime x ^^^ xtime y := by
  have hshift : (x ^^^ y) <<< 1 = x <<< 1 ^^^ y <<< 1 := by
    rw [← UInt8.toBitVec_inj]
    exact BitVec.shiftLeft_xor_distrib _ _ _
  have hlow : (x ^^^ y) >>> (7 : UInt8) &&& (1 : UInt8) =
      (x >>> (7 : UInt8) &&& (1 : UInt8)) ^^^ (y >>> (7 : UInt8) &&& (1 : UInt8)) := by
    rw [← UInt8.toBitVec_inj]
    ext i
    simp [Bool.and_xor_distrib_right]
  rw [xtime, xtime, xtime, hshift, hlow]
  rcases bit_cases (x >>> 7) with hx | hx <;> rcases bit_cases (y >>> 7) with hy | hy <;>
    simp [hx, hy, UInt8.xor_assoc, UInt8.xor_comm, xor_left_comm]

theorem multiply_xor (x x' y : UInt8) :
    multiply (x ^^^ x') y = multiply x y ^^^ multiply x' y := by
  simp only [multiply, xtime_xor, bit_mul_xor, UInt8.xor_assoc, xor_left_comm]

namespace Word

@[simp] theorem xor_mk (a b c d a' b' c' d' : UInt8) : xor ⟨a, b, c, d⟩ ⟨a', b', c', d'⟩ =
    ⟨a ^^^ a', b ^^^ b', c ^^^ c', d ^^^ d'⟩ := rfl

/-- A linear map that keeps the columns with one byte keeps all. -/
theorem eq_of_linear {f : Word → Word} (hf : ∀ v w, f (v.xor w) = (f v).xor (f w))
    (h0 : ∀ x, f ⟨x, 0, 0, 0⟩ = ⟨x, 0, 0, 0⟩) (h1 : ∀ x, f ⟨0, x, 0, 0⟩ = ⟨0, x, 0, 0⟩)
    (h2 : ∀ x, f ⟨0, 0, x, 0⟩ = ⟨0, 0, x, 0⟩) (h3 : ∀ x, f ⟨0, 0, 0, x⟩ = ⟨0, 0, 0, x⟩)
    (w : Word) : f w = w := by
  obtain ⟨a, b, c, d⟩ := w
  have hsum : (⟨a, b, c, d⟩ : Word) = xor (xor ⟨a, 0, 0, 0⟩ ⟨0, b, 0, 0⟩)
      (xor ⟨0, 0, c, 0⟩ ⟨0, 0, 0, d⟩) := by
    simp
  rw [hsum, hf, hf, hf, h0, h1, h2, h3]

end Word

theorem mixColumn_xor (v w : Word) :
    mixColumn (v.xor w) = (mixColumn v).xor (mixColumn w) := by
  obtain ⟨a, b, c, d⟩ := v
  obtain ⟨a', b', c', d'⟩ := w
  simp only [mixColumn, Word.xor_mk, xtime_xor, Word.mk.injEq]
  refine ⟨?_, ?_, ?_, ?_⟩ <;> ac_rfl

theorem invMixColumn_xor (v w : Word) :
    invMixColumn (v.xor w) = (invMixColumn v).xor (invMixColumn w) := by
  obtain ⟨a, b, c, d⟩ := v
  obtain ⟨a', b', c', d'⟩ := w
  simp only [invMixColumn, Word.xor_mk, multiply_xor, Word.mk.injEq]
  refine ⟨?_, ?_, ?_, ?_⟩ <;> ac_rfl

@[simp] theorem xtime_zero : xtime 0 = 0 := rfl

@[simp] theorem multiply_zero (y : UInt8) : multiply 0 y = 0 := by
  simp [multiply]

theorem multiply_9 (x : UInt8) : multiply x 0x09 = x ^^^ xtime (xtime (xtime x)) := by
  change 1 * x ^^^ 0 * _ ^^^ 0 * _ ^^^ 1 * _ ^^^ 0 * _ = _
  simp

theorem multiply_b (x : UInt8) :
    multiply x 0x0b = x ^^^ xtime x ^^^ xtime (xtime (xtime x)) := by
  change 1 * x ^^^ 1 * _ ^^^ 0 * _ ^^^ 1 * _ ^^^ 0 * _ = _
  simp

theorem multiply_d (x : UInt8) :
    multiply x 0x0d = x ^^^ xtime (xtime x) ^^^ xtime (xtime (xtime x)) := by
  change 1 * x ^^^ 0 * _ ^^^ 1 * _ ^^^ 1 * _ ^^^ 0 * _ = _
  simp

theorem multiply_e (x : UInt8) :
    multiply x 0x0e = xtime x ^^^ xtime (xtime x) ^^^ xtime (xtime (xtime x)) := by
  change 0 * x ^^^ 1 * _ ^^^ 1 * _ ^^^ 1 * _ ^^^ 0 * _ = _
  simp

section Mixing

-- the source's factors, and what makes terms that occur twice cancel
attribute [local simp] multiply_9 multiply_b multiply_d multiply_e xtime_xor
  UInt8.xor_assoc UInt8.xor_comm xor_left_comm xor_xor_self

theorem invMixColumn_mixColumn (w : Word) : invMixColumn (mixColumn w) = w := by
  refine Word.eq_of_linear (f := fun w => invMixColumn (mixColumn w)) ?_ ?_ ?_ ?_ ?_ w
  · intro v w
    rw [mixColumn_xor, invMixColumn_xor]
  all_goals
    intro x
    simp [mixColumn, invMixColumn]

theorem mixColumn_invMixColumn (w : Word) : mixColumn (invMixColumn w) = w := by
  refine Word.eq_of_linear (f := fun w => mixColumn (invMixColumn w)) ?_ ?_ ?_ ?_ ?_ w
  · intro v w
    rw [invMixColumn_xor, mixColumn_xor]
  all_goals
    intro x
    simp [mixColumn, invMixColumn]

end Mixing

@[simp] theorem invMixColumns_mixColumns (s : State) : invMixColumns (mixColumns s) = s := by
  simp only [mixColumns, invMixColumns, invMixColumn_mixColumn]

@[simp] theorem mixColumns_invMixColumns (s : State) : mixColumns (invMixColumns s) = s := by
  simp only [mixColumns, invMixColumns, mixColumn_invMixColumn]

@[simp] theorem addRoundKey_addRoundKey (round : Nat) (s : State) (roundKey : List Word) :
    addRoundKey round (addRoundKey round s roundKey) roundKey = s := by
  have hword : ∀ v w : Word, (v.xor w).xor w = v := by
    intro v w
    simp only [Word.xor, UInt8.xor_assoc, UInt8.xor_self, UInt8.xor_zero]
  simp only [addRoundKey, hword]

@[simp] theorem invSubBytes_invShiftRows (s : State) :
    invSubBytes (invShiftRows (shiftRows (subBytes s))) = s := by
  simp only [shiftRows, subBytes, subWord, invShiftRows, invSubBytes, invSubWord,
    getSBoxInvert_getSBoxValue]

@[simp] theorem shiftRows_subBytes (s : State) :
    shiftRows (subBytes (invSubBytes (invShiftRows s))) = s := by
  simp only [shiftRows, subBytes, subWord, invShiftRows, invSubBytes, invSubWord,
    getSBoxValue_getSBoxInvert]

/-- The rounds of `Cipher` but the last, seen after the rows are shifted: they end where
the rounds of `InvCipher` begin. -/
theorem shiftRows_foldl (roundKey : List Word) (is : List Nat) (s : State) :
    shiftRows (subBytes (is.foldl (fun s i =>
        addRoundKey (i + 1) (mixColumns (shiftRows (subBytes s))) roundKey) s)) =
      is.foldl (fun s i => shiftRows (subBytes (addRoundKey (i + 1) (mixColumns s) roundKey)))
        (shiftRows (subBytes s)) := by
  induction is generalizing s with
  | nil => rfl
  | cons i is ih => rw [List.foldl_cons, List.foldl_cons, ih]

theorem invShiftRows_foldl (roundKey : List Word) (is : List Nat) (s : State) :
    invSubBytes (invShiftRows (is.foldl (fun s i => invMixColumns
        (addRoundKey (i + 1) (invSubBytes (invShiftRows s)) roundKey)) s)) =
      is.foldl (fun s i =>
          invSubBytes (invShiftRows (invMixColumns (addRoundKey (i + 1) s roundKey))))
        (invSubBytes (invShiftRows s)) := by
  induction is generalizing s with
  | nil => rfl
  | cons i is ih => rw [List.foldl_cons, List.foldl_cons, ih]

theorem invCipher_cipher (s : State) (roundKey : List Word) :
    invCipher (cipher s roundKey) roundKey = s := by
  rw [invCipher, cipher, addRoundKey_addRoundKey, shiftRows_foldl,
    Chaining.foldl_undo (fun s i => by
      rw [invSubBytes_invShiftRows, addRoundKey_addRoundKey, invMixColumns_mixColumns]),
    invSubBytes_invShiftRows, addRoundKey_addRoundKey]

theorem cipher_invCipher (s : State) (roundKey : List Word) :
    cipher (invCipher s roundKey) roundKey = s := by
  have hrounds := Chaining.foldl_undo
    (f := fun s i =>
      invSubBytes (invShiftRows (invMixColumns (addRoundKey (i + 1) s roundKey))))
    (g := fun s i => addRoundKey (i + 1) (mixColumns (shiftRows (subBytes s))) roundKey)
    (fun s i => by
      rw [shiftRows_subBytes, mixColumns_invMixColumns, addRoundKey_addRoundKey])
    (List.range (nr - 1)).reverse (invSubBytes (invShiftRows (addRoundKey nr s roundKey)))
  rw [List.reverse_reverse] at hrounds
  rw [cipher, invCipher, addRoundKey_addRoundKey, invShiftRows_foldl, hrounds,
    shiftRows_subBytes, addRoundKey_addRoundKey]

/-! ## Blocks -/

namespace Block

theorem ofState_state (b : Block) : ofState b.state = b := by
  obtain ⟨bytes, h⟩ := b
  match bytes, h with
  | [_, _, _, _, _, _, _, _, _, _, _, _, _, _, _, _], _ => rfl

theorem state_ofState (s : State) : (ofState s).state = s := rfl

end Block

/-- `Cipher` on the sixteen bytes a pointer is cast to. -/
def cipherAt (roundKey : List Word) (buf : Block) : Block :=
  .ofState (cipher buf.state roundKey)

def invCipherAt (roundKey : List Word) (buf : Block) : Block :=
  .ofState (invCipher buf.state roundKey)

theorem invCipherAt_cipherAt (roundKey : List Word) (buf : Block) :
    invCipherAt roundKey (cipherAt roundKey buf) = buf := by
  rw [invCipherAt, cipherAt, Block.state_ofState, invCipher_cipher, Block.ofState_state]

theorem cipherAt_invCipherAt (roundKey : List Word) (buf : Block) :
    cipherAt roundKey (invCipherAt roundKey buf) = buf := by
  rw [invCipherAt, cipherAt, Block.state_ofState, cipher_invCipher, Block.ofState_state]

/-- `AES_ECB_encrypt`. -/
def ecbEncrypt (ctx : Ctx) (buf : Block) : Block := cipherAt ctx.roundKey buf

/-- `AES_ECB_decrypt`. -/
def ecbDecrypt (ctx : Ctx) (buf : Block) : Block := invCipherAt ctx.roundKey buf

/-- Under every round key the two are each other's inverse, so no two blocks are
encrypted to the same one. -/
theorem ecb_inverse (ctx : Ctx) :
    Function.LeftInverse (ecbDecrypt ctx) (ecbEncrypt ctx) ∧
      Function.RightInverse (ecbDecrypt ctx) (ecbEncrypt ctx) :=
  ⟨invCipherAt_cipherAt ctx.roundKey, cipherAt_invCipherAt ctx.roundKey⟩

/-! ## The chained mode -/

def xorWithIv (buf iv : Block) : Block :=
  ⟨List.zipWith (· ^^^ ·) buf.bytes iv.bytes, by
    rw [List.length_zipWith, buf.length_eq, iv.length_eq, Nat.min_self]⟩

theorem xorWithIv_xorWithIv (buf iv : Block) : xorWithIv (xorWithIv buf iv) iv = buf := by
  obtain ⟨bytes, h⟩ := buf
  simp only [xorWithIv, Block.mk.injEq]
  exact zipWith_xor_xor (iv.length_eq.trans h.symm)

/-- The loop of `AES_CBC_encrypt_buffer` with `i` bytes behind it, over the blocks from
`buf` on: what is in memory then, and the block `Iv` points to. -/
def cbcEncryptLoop (roundKey : List Word) (length : Nat) :
    Nat → Block → List Block → List Block × Block
  | _, iv, [] => ([], iv)
  | i, iv, buf :: rest =>
      if i < length then
        let buf := cipherAt roundKey (xorWithIv buf iv)
        let r := cbcEncryptLoop roundKey length (i + 16) buf rest
        (buf :: r.1, r.2)
      else (buf :: rest, iv)

/-- `AES_CBC_encrypt_buffer`. -/
def cbcEncryptBuffer (ctx : Ctx) (buf : List Block) (length : Nat) : List Block × Ctx :=
  let r := cbcEncryptLoop ctx.roundKey length 0 ctx.iv buf
  (r.1, { ctx with iv := r.2 })

/-- The loop of `AES_CBC_decrypt_buffer`. -/
def cbcDecryptLoop (roundKey : List Word) (length : Nat) :
    Nat → Block → List Block → List Block × Block
  | _, iv, [] => ([], iv)
  | i, iv, buf :: rest =>
      if i < length then
        let storeNextIv := buf
        let buf := xorWithIv (invCipherAt roundKey buf) iv
        let r := cbcDecryptLoop roundKey length (i + 16) storeNextIv rest
        (buf :: r.1, r.2)
      else (buf :: rest, iv)

/-- `AES_CBC_decrypt_buffer`. -/
def cbcDecryptBuffer (ctx : Ctx) (buf : List Block) (length : Nat) : List Block × Ctx :=
  let r := cbcDecryptLoop ctx.roundKey length 0 ctx.iv buf
  (r.1, { ctx with iv := r.2 })

/-- The loop takes the blocks that are begun below the length, and leaves the memory
after them. -/
theorem cbcEncryptLoop_eq (roundKey : List Word) (length i : Nat) (iv : Block)
    (buf : List Block) : cbcEncryptLoop roundKey length i iv buf =
      let r := Chaining.encrypt (cipherAt roundKey) xorWithIv iv
        (buf.take ((length - i + 15) / 16))
      (r.1 ++ buf.drop ((length - i + 15) / 16), r.2) := by
  induction buf generalizing i iv with
  | nil => simp [cbcEncryptLoop, Chaining.encrypt]
  | cons b rest ih =>
      rw [cbcEncryptLoop]
      split
      · next h =>
          have hmore : (length - i + 15) / 16 = (length - (i + 16) + 15) / 16 + 1 := by
            omega
          simp only [hmore, List.take_succ_cons, List.drop_succ_cons, Chaining.encrypt, ih,
            List.cons_append]
      · next h =>
          have hnone : (length - i + 15) / 16 = 0 := by omega
          simp [hnone, Chaining.encrypt]

theorem cbcDecryptLoop_eq (roundKey : List Word) (length i : Nat) (iv : Block)
    (buf : List Block) : cbcDecryptLoop roundKey length i iv buf =
      let r := Chaining.decrypt (invCipherAt roundKey) xorWithIv iv
        (buf.take ((length - i + 15) / 16))
      (r.1 ++ buf.drop ((length - i + 15) / 16), r.2) := by
  induction buf generalizing i iv with
  | nil => simp [cbcDecryptLoop, Chaining.decrypt]
  | cons b rest ih =>
      rw [cbcDecryptLoop]
      split
      · next h =>
          have hmore : (length - i + 15) / 16 = (length - (i + 16) + 15) / 16 + 1 := by
            omega
          simp only [hmore, List.take_succ_cons, List.drop_succ_cons, Chaining.decrypt, ih,
            List.cons_append]
      · next h =>
          have hnone : (length - i + 15) / 16 = 0 := by omega
          simp [hnone, Chaining.decrypt]

/-! ## Calls one after the other -/

/-- Calls on buffers of whole blocks: what they leave in the buffers, and the context. -/
def cbcEncryptCalls : Ctx → List (List Block) → List (List Block) × Ctx :=
  Chaining.calls fun ctx buf => cbcEncryptBuffer ctx buf (16 * buf.length)

def cbcDecryptCalls : Ctx → List (List Block) → List (List Block) × Ctx :=
  Chaining.calls fun ctx buf => cbcDecryptBuffer ctx buf (16 * buf.length)

theorem cbcEncryptBuffer_whole (ctx : Ctx) (buf : List Block) :
    cbcEncryptBuffer ctx buf (16 * buf.length) =
      let r := Chaining.encrypt (cipherAt ctx.roundKey) xorWithIv ctx.iv buf
      (r.1, { ctx with iv := r.2 }) := by
  have hall : (16 * buf.length - 0 + 15) / 16 = buf.length := by omega
  simp only [cbcEncryptBuffer, cbcEncryptLoop_eq, hall, List.take_length, List.drop_length,
    List.append_nil]

theorem cbcDecryptBuffer_whole (ctx : Ctx) (buf : List Block) :
    cbcDecryptBuffer ctx buf (16 * buf.length) =
      let r := Chaining.decrypt (invCipherAt ctx.roundKey) xorWithIv ctx.iv buf
      (r.1, { ctx with iv := r.2 }) := by
  have hall : (16 * buf.length - 0 + 15) / 16 = buf.length := by omega
  simp only [cbcDecryptBuffer, cbcDecryptLoop_eq, hall, List.take_length, List.drop_length,
    List.append_nil]

theorem cbcEncryptCalls_eq (ctx : Ctx) (parts : List (List Block)) :
    (cbcEncryptCalls ctx parts).1.flatten =
        (Chaining.encrypt (cipherAt ctx.roundKey) xorWithIv ctx.iv parts.flatten).1 ∧
      (cbcEncryptCalls ctx parts).2 = { ctx with
        iv := (Chaining.encrypt (cipherAt ctx.roundKey) xorWithIv ctx.iv parts.flatten).2 } := by
  have hcalls := Chaining.calls_flatten
    (f := fun ctx buf => cbcEncryptBuffer ctx buf (16 * buf.length))
    (fun _ => rfl)
    (fun ctx x y => by
      simp only [cbcEncryptBuffer_whole, Chaining.encrypt_append]) ctx parts
  rw [cbcEncryptBuffer_whole] at hcalls
  exact ⟨(congrArg Prod.fst hcalls).symm, (congrArg Prod.snd hcalls).symm⟩

theorem cbcDecryptCalls_eq (ctx : Ctx) (parts : List (List Block)) :
    (cbcDecryptCalls ctx parts).1.flatten =
        (Chaining.decrypt (invCipherAt ctx.roundKey) xorWithIv ctx.iv parts.flatten).1 ∧
      (cbcDecryptCalls ctx parts).2 = { ctx with
        iv := (Chaining.decrypt (invCipherAt ctx.roundKey) xorWithIv ctx.iv parts.flatten).2 } := by
  have hcalls := Chaining.calls_flatten
    (f := fun ctx buf => cbcDecryptBuffer ctx buf (16 * buf.length))
    (fun _ => rfl)
    (fun ctx x y => by
      simp only [cbcDecryptBuffer_whole, Chaining.decrypt_append]) ctx parts
  rw [cbcDecryptBuffer_whole] at hcalls
  exact ⟨(congrArg Prod.fst hcalls).symm, (congrArg Prod.snd hcalls).symm⟩

/-- Both sides start from the same context. However the message was cut into calls, and
however the ciphertext is cut where it is decrypted, the message comes back, and the
contexts are the same again. -/
theorem cbc_round_trip (ctx : Ctx) (parts cuts : List (List Block))
    (hcut : cuts.flatten = (cbcEncryptCalls ctx parts).1.flatten) :
    (cbcDecryptCalls ctx cuts).1.flatten = parts.flatten ∧
      (cbcDecryptCalls ctx cuts).2 = (cbcEncryptCalls ctx parts).2 := by
  obtain ⟨hsent, hctx⟩ := cbcEncryptCalls_eq ctx parts
  obtain ⟨hgot, hctx'⟩ := cbcDecryptCalls_eq ctx cuts
  rw [hcut, hsent, Chaining.decrypt_encrypt (invCipherAt_cipherAt ctx.roundKey)
    xorWithIv_xorWithIv] at hgot hctx'
  exact ⟨hgot, hctx'.trans hctx.symm⟩

def sampleCtx : Ctx := initCtxIv ((List.range 32).map UInt8.ofNat) ⟨List.replicate 16 7, rfl⟩

def sampleBlock (b : UInt8) : Block := ⟨List.replicate 16 b, rfl⟩

theorem cbc_round_trip_three :
    (cbcDecryptCalls sampleCtx [[], (cbcEncryptCalls sampleCtx
        [[sampleBlock 1], [sampleBlock 2, sampleBlock 3]]).1.flatten]).1.flatten =
      [sampleBlock 1, sampleBlock 2, sampleBlock 3] ∧
    (cbcDecryptCalls sampleCtx [[], (cbcEncryptCalls sampleCtx
        [[sampleBlock 1], [sampleBlock 2, sampleBlock 3]]).1.flatten]).2 =
      (cbcEncryptCalls sampleCtx [[sampleBlock 1], [sampleBlock 2, sampleBlock 3]]).2 :=
  cbc_round_trip sampleCtx [[sampleBlock 1], [sampleBlock 2, sampleBlock 3]]
    [[], (cbcEncryptCalls sampleCtx
      [[sampleBlock 1], [sampleBlock 2, sampleBlock 3]]).1.flatten]
    (List.append_nil _)

/-- Two streams of ciphertext under one key, where any number of blocks may differ or be
missing: a block is decrypted to the same where it is the same and comes after the same.
So damage spoils its own block and the next, and no context has to be mended. -/
theorem cbc_resumes (ctx ctx' : Ctx) (hkey : ctx.roundKey = ctx'.roundKey)
    (cuts cuts' : List (List Block)) (j j' : Nat)
    (hblock : (cuts.flatten)[j]? = (cuts'.flatten)[j']?)
    (hbefore : (ctx.iv :: cuts.flatten)[j]? = (ctx'.iv :: cuts'.flatten)[j']?) :
    ((cbcDecryptCalls ctx cuts).1.flatten)[j]? =
      ((cbcDecryptCalls ctx' cuts').1.flatten)[j']? := by
  rw [(cbcDecryptCalls_eq ctx cuts).1, (cbcDecryptCalls_eq ctx' cuts').1,
    Chaining.decrypt_eq, Chaining.decrypt_eq, List.getElem?_zipWith, List.getElem?_zipWith,
    hblock, hbefore, hkey]

-- the first block is lost and the second is damaged
theorem cbc_resumes_lost :
    ((cbcDecryptCalls sampleCtx
        [[sampleBlock 1, sampleBlock 2, sampleBlock 3, sampleBlock 4]]).1.flatten)[3]? =
      ((cbcDecryptCalls sampleCtx
        [[sampleBlock 9], [sampleBlock 3, sampleBlock 4]]).1.flatten)[2]? :=
  cbc_resumes sampleCtx sampleCtx rfl _ _ 3 2 rfl rfl

end Aes

end LibSmoke
