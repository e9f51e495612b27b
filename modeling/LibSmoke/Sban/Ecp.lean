import Mathlib.Data.ZMod.Basic
import Mathlib.Data.Int.GCD
import Mathlib.Data.Int.ModEq
import Mathlib.Algebra.Field.ZMod
import Mathlib.Tactic.Ring

/-!
# Points of the curve

The part of the crypto library the group key exchange stands on: big numbers to
and from bytes, the inverse modulo a number, addition in Jacobian coordinates
with the normalization that follows it, the checks `ecp_mul` makes before it
multiplies, and the record a point travels in.

The comb multiplication behind `ecp_mul` is the one piece taken as given: it is
a field of the group. What it is worth is said by `EcpGroup.Exact`, together
with what the coordinates of the group have to be: the multiples of the base
point are a group of prime order, and the operations are exact on it. The point
`pt s` is `s` times the base point.

`ecp_mul` takes no zero point and no zero factor, so on an exact group it fails
at the zero point and nowhere else (`ecpMul_rep`).
-/

namespace LibSmoke

/-- The return codes other than zero. `pastBuffer` is a read past the end of
the array it is in, for which the source has no code. -/
inductive SbanError
  | badInputData
  | bufferTooShort
  | maxRoundNumberExceeded
  | roundNotCompleted
  | ecpBadInputData
  | ecpBufferTooSmall
  | ecpFeatureUnavailable
  | ecpInvalidKey
  | ecpRandomFailed
  | mpiBadInputData
  | mpiNotAcceptable
  | mpiBufferTooSmall
  | pastBuffer
  deriving DecidableEq, Repr

/-! ## Big numbers -/

def mpiMsb (x : Int) : Nat :=
  if x = 0 then 0 else x.natAbs.log2 + 1

def mpiSize (x : Int) : Nat := (mpiMsb x + 7) / 8

/-- The low `len` bytes, most significant first. -/
def beBytes : Nat → Nat → List UInt8
  | 0, _ => []
  | len + 1, x => UInt8.ofNat (x / 256 ^ len) :: beBytes len x

def mpiWriteBinary (x : Int) (len : Nat) : Except SbanError (List UInt8) :=
  if len < mpiSize x then .error .mpiBufferTooSmall
  else .ok (beBytes len x.natAbs)

def mpiReadBinary (bs : List UInt8) : Int :=
  ((bs.foldl (fun acc b => acc * 256 + b.toNat) 0 : Nat) : Int)

def mpiInvMod (a n : Int) : Except SbanError Int :=
  if n ≤ 0 then .error .mpiBadInputData
  else if Int.gcd a n ≠ 1 then .error .mpiNotAcceptable
  else .ok (Int.gcdA a n % n)

theorem lt_pow_mpiMsb (x : Int) : x.natAbs < 2 ^ mpiMsb x := by
  unfold mpiMsb
  split
  · next h => simp [h]
  · next h => exact Nat.lt_log2_self

theorem lt_pow_mpiSize (x : Int) : x.natAbs < 256 ^ mpiSize x := by
  refine Nat.lt_of_lt_of_le (lt_pow_mpiMsb x) ?_
  rw [show 256 = 2 ^ 8 from rfl, ← Nat.pow_mul]
  refine Nat.pow_le_pow_right (by decide) ?_
  rw [mpiSize]
  omega

theorem mpiMsb_mono {x y : Int} (h : x.natAbs ≤ y.natAbs) :
    mpiMsb x ≤ mpiMsb y := by
  unfold mpiMsb
  split
  · exact Nat.zero_le _
  · next hx =>
      have hx0 : x.natAbs ≠ 0 := by omega
      rw [if_neg (by omega)]
      refine Nat.succ_le_succ ?_
      rw [Nat.le_log2 (by omega)]
      exact Nat.le_trans (Nat.log2_self_le hx0) h

theorem mpiSize_mono {x y : Int} (h : x.natAbs ≤ y.natAbs) :
    mpiSize x ≤ mpiSize y := by
  have := mpiMsb_mono h
  unfold mpiSize
  omega

@[simp] theorem beBytes_length (len x : Nat) : (beBytes len x).length = len := by
  induction len with
  | zero => rfl
  | succ len ih => rw [beBytes, List.length_cons, ih]

theorem foldl_beBytes (len x acc : Nat) :
    (beBytes len x).foldl (fun acc b => acc * 256 + b.toNat) acc =
      acc * 256 ^ len + x % 256 ^ len := by
  induction len generalizing acc with
  | zero => simp [beBytes, Nat.mod_one]
  | succ len ih =>
      rw [beBytes, List.foldl_cons, ih, UInt8.toNat_ofNat',
        Nat.pow_succ 256 len, Nat.mod_mul]
      rw [show (2 ^ 8 : Nat) = 256 from rfl]
      ring

/-- What is written in bytes enough is read back. -/
theorem mpiReadBinary_beBytes {x : Int} {len : Nat} (h0 : 0 ≤ x)
    (h : mpiSize x ≤ len) : mpiReadBinary (beBytes len x.natAbs) = x := by
  have hlt : x.natAbs < 256 ^ len :=
    Nat.lt_of_lt_of_le (lt_pow_mpiSize x) (Nat.pow_le_pow_right (by decide) h)
  rw [mpiReadBinary, foldl_beBytes, Nat.zero_mul, Nat.zero_add,
    Nat.mod_eq_of_lt hlt]
  exact Int.natAbs_of_nonneg h0

theorem foldl_div_pow (bs : List UInt8) (acc : Nat) :
    bs.foldl (fun acc b => acc * 256 + b.toNat) acc / 256 ^ bs.length = acc := by
  induction bs generalizing acc with
  | nil => rw [List.foldl_nil, List.length_nil, Nat.pow_zero, Nat.div_one]
  | cons b bs ih =>
      have hb := b.toNat_lt
      rw [List.foldl_cons, List.length_cons, Nat.pow_succ, ← Nat.div_div_eq_div_mul, ih]
      omega

/-- The bytes of the number that some bytes are, are these bytes. -/
theorem beBytes_mpiReadBinary (bs : List UInt8) :
    beBytes bs.length (mpiReadBinary bs).natAbs = bs := by
  have hfold : ∀ acc, beBytes bs.length
      (bs.foldl (fun acc b => acc * 256 + b.toNat) acc) = bs := by
    induction bs with
    | nil => exact fun _ => rfl
    | cons b bs ih =>
        intro acc
        rw [List.foldl_cons, List.length_cons, beBytes, ih, foldl_div_pow]
        have hb : UInt8.ofNat (acc * 256 + b.toNat) = b := by
          rw [← UInt8.toNat_inj, UInt8.toNat_ofNat', Nat.mul_add_mod_self_right]
          exact Nat.mod_eq_of_lt b.toNat_lt
        rw [hb]
  exact hfold 0

/-- The inverse is one, in range, whenever there is one. -/
theorem mpiInvMod_ok {a n : Int} (hn : 0 < n) (h : Int.gcd a n = 1) :
    ∃ e, mpiInvMod a n = .ok e ∧ 0 ≤ e ∧ e < n ∧ a * e % n = 1 % n := by
  refine ⟨Int.gcdA a n % n, ?_, Int.emod_nonneg _ (by omega),
    Int.emod_lt_of_pos _ hn, ?_⟩
  · rw [mpiInvMod, if_neg (by omega), if_neg (by omega)]
  · have hbez := Int.gcd_eq_gcd_ab a n
    rw [h, Nat.cast_one] at hbez
    rw [Int.mul_emod, Int.emod_emod, ← Int.mul_emod,
      show a * Int.gcdA a n = 1 - n * Int.gcdB a n by omega,
      Int.sub_mul_emod_self_left]

/-! ## Points -/

/-- A point in Jacobian coordinates; it is zero where `Z` is. -/
structure EcpPoint where
  X : Int
  Y : Int
  Z : Int
  deriving DecidableEq, Repr

def ecpZero : EcpPoint := ⟨1, 1, 0⟩

/-- A curve `y² = x³ + A x + B` modulo `P` with a base point `G` of order `N`;
`A` is left out where it is `-3`. `mulComb` is `ecp_mul_comb`. -/
structure EcpGroup where
  P : Nat
  A : Option Int
  B : Int
  G : EcpPoint
  N : Nat
  mulComb : Int → EcpPoint → EcpPoint

namespace EcpGroup

variable (g : EcpGroup)

/-- The bytes of a coordinate. -/
def plen : Nat := mpiSize g.P

/-- `MOD_MUL`: `ecp_modp`, for a prime that has a fast reduction, refuses what is
negative. What it refuses for its length, more than twice the bits of the prime, no
product of two coordinates of `plen` bytes comes to if the prime fills its bytes. -/
def modMul (x : Int) : Except SbanError Int :=
  if x < 0 then .error .ecpBadInputData else .ok (x % g.P)

def ecpNormalizeJac (pt : EcpPoint) : Except SbanError EcpPoint :=
  if pt.Z = 0 then .ok pt
  else do
    let Zi ← mpiInvMod pt.Z g.P
    let ZZi ← g.modMul (Zi * Zi)
    let X ← g.modMul (pt.X * ZZi)
    let Y ← g.modMul (pt.Y * ZZi)
    let Y ← g.modMul (Y * Zi)
    .ok ⟨X, Y, 1⟩

/-- Its products are of a number with itself, of reduced numbers or with `A`: none is
refused. -/
def ecpDoubleJac (p : EcpPoint) : EcpPoint :=
  let T3 := p.X * p.X % g.P
  let T2 := p.Y * p.Y % g.P
  let Y3 := T2 * T2 % g.P
  let X3 := (p.X + T2) % g.P
  let X3 := X3 * X3 % g.P
  let X3 := (X3 - Y3) % g.P
  let X3 := (X3 - T3) % g.P
  let T1 := X3 * 2 % g.P
  let Z3 := p.Z * p.Z % g.P
  let X3 := Z3 * Z3 % g.P
  let T3 := T3 * 3 % g.P
  let X3 := match g.A with
    | none => -(X3 * 3) % g.P
    | some A => X3 * A % g.P
  let T3 := (T3 + X3) % g.P
  let X3 := T3 * T3 % g.P
  let X3 := (X3 - T1) % g.P
  let X3 := (X3 - T1) % g.P
  let T1 := (T1 - X3) % g.P
  let T1 := T3 * T1 % g.P
  let T3 := Y3 * 8 % g.P
  let Y3 := (T1 - T3) % g.P
  let T1 := (p.Y + p.Z) % g.P
  let T1 := T1 * T1 % g.P
  let T1 := (T1 - T2) % g.P
  let Z3 := (T1 - Z3) % g.P
  ⟨X3, Y3, Z3⟩

def ecpAddMixed (p q : EcpPoint) : Except SbanError EcpPoint :=
  if p.Z = 0 then .ok q
  else if q.Z = 0 then .ok p
  else if q.Z ≠ 1 then .error .ecpBadInputData
  else do
    let T1 ← g.modMul (p.Z * p.Z)
    let T2 ← g.modMul (T1 * p.Z)
    let T1 ← g.modMul (T1 * q.X)
    let T2 ← g.modMul (T2 * q.Y)
    let T1 := (T1 - p.X) % g.P
    let T2 := (T2 - p.Y) % g.P
    if T1 = 0 then
      if T2 = 0 then .ok (g.ecpDoubleJac p) else .ok ecpZero
    else
      let Z ← g.modMul (p.Z * T1)
      let T3 ← g.modMul (T1 * T1)
      let T4 ← g.modMul (T3 * T1)
      let T3 ← g.modMul (T3 * p.X)
      let T1 := T3 * 2 % g.P
      let X ← g.modMul (T2 * T2)
      let X := (X - T1) % g.P
      let X := (X - T4) % g.P
      let T3 := (T3 - X) % g.P
      let T3 ← g.modMul (T3 * T2)
      let T4 ← g.modMul (T4 * p.Y)
      let Y := (T3 - T4) % g.P
      .ok ⟨X, Y, Z⟩

def ecpAdd (p q : EcpPoint) : Except SbanError EcpPoint := do
  let R ← g.ecpAddMixed p q
  g.ecpNormalizeJac R

/-- The opposite as `util.c` computes it. -/
def ecpOpp (p : EcpPoint) : EcpPoint :=
  if p.Y ≠ 0 then { p with Y := g.P - p.Y } else p

def ecpCheckPubkey (pt : EcpPoint) : Except SbanError Unit :=
  if pt.Z ≠ 1 then .error .ecpInvalidKey
  else if pt.X < 0 ∨ pt.Y < 0 ∨ pt.X ≥ g.P ∨ pt.Y ≥ g.P then
    .error .ecpInvalidKey
  else
    let YY := pt.Y * pt.Y % g.P
    let RHS := pt.X * pt.X % g.P
    let RHS := match g.A with
      | none => (RHS - 3) % g.P
      | some A => (RHS + A) % g.P
    let RHS := RHS * pt.X % g.P
    let RHS := (RHS + g.B) % g.P
    if YY ≠ RHS then .error .ecpInvalidKey else .ok ()

def ecpCheckPrivkey (d : Int) : Except SbanError Unit :=
  if d < 1 ∨ d ≥ g.N then .error .ecpInvalidKey else .ok ()

def ecpMul (m : Int) (p : EcpPoint) : Except SbanError EcpPoint :=
  if p.Z ≠ 1 then .error .ecpBadInputData
  else do
    g.ecpCheckPrivkey m
    g.ecpCheckPubkey p
    .ok (g.mulComb m p)

/-- The loop of `ecp_gen_keypair`: `draw` are the numbers the random bytes
make, and after `count` of them it gives up. -/
def drawScalar (draw : Nat → Nat) : Nat → Nat → Except SbanError Int
  | 0, _ => .error .ecpRandomFailed
  | count + 1, i =>
      if draw i < 1 ∨ draw i ≥ g.N then drawScalar draw count (i + 1)
      else .ok (draw i)

def ecpGenKeypair (draw : Nat → Nat) : Except SbanError (Int × EcpPoint) := do
  let d ← g.drawScalar draw 30 0
  let Q ← g.ecpMul d g.G
  .ok (d, Q)

/-! ## Records -/

/-- The bytes of a point, uncompressed. -/
def ecpPointWriteBinary (p : EcpPoint) (buflen : Nat) :
    Except SbanError (List UInt8) :=
  if p.Z = 0 then
    if buflen < 1 then .error .ecpBufferTooSmall else .ok [0x00]
  else if buflen < 2 * g.plen + 1 then .error .ecpBufferTooSmall
  else do
    let x ← mpiWriteBinary p.X g.plen
    let y ← mpiWriteBinary p.Y g.plen
    .ok (0x04 :: x ++ y)

def ecpPointReadBinary (buf : List UInt8) : Except SbanError EcpPoint :=
  let plen := g.plen
  if buf.getD 0 0 = 0x00 then
    if buf.length = 1 then .ok ecpZero else .error .ecpBadInputData
  else if buf.getD 0 0 ≠ 0x04 then .error .ecpFeatureUnavailable
  else if buf.length ≠ 2 * plen + 1 then .error .ecpBadInputData
  else .ok ⟨mpiReadBinary ((buf.drop 1).take plen),
    mpiReadBinary ((buf.drop (1 + plen)).take plen), 1⟩

/-- A record: the length of the point in one byte, then the point. -/
def ecpTlsWritePoint (p : EcpPoint) (blen : Nat) :
    Except SbanError (List UInt8) :=
  if blen < 1 then .error .ecpBadInputData
  else do
    let bytes ← g.ecpPointWriteBinary p (blen - 1)
    .ok (UInt8.ofNat bytes.length :: bytes)

/-- Reads a record at the front of `buf` and leaves what follows it. The length
is held against `bufLen`, which the callers do not lower as they go on. -/
def ecpTlsReadPoint (buf : List UInt8) (bufLen : Nat) :
    Except SbanError (EcpPoint × List UInt8) :=
  if bufLen < 2 then .error .ecpBadInputData
  else
    match buf with
    | [] => .error .pastBuffer
    | dataLen :: rest =>
        if dataLen.toNat < 1 ∨ dataLen.toNat > bufLen - 1 then
          .error .ecpBadInputData
        else if rest.length < dataLen.toNat then .error .pastBuffer
        else do
          let pt ← g.ecpPointReadBinary (rest.take dataLen.toNat)
          .ok (pt, rest.drop dataLen.toNat)

/-! ## Exact groups -/

variable {g}

/-- The multiples of the base point are a group of prime order, `pt s` being
`s` times the base point, and the operations compute in it. -/
structure Exact (g : EcpGroup) (pt : ZMod g.N → EcpPoint) : Prop where
  prime : g.N.Prime
  zero : pt 0 = ecpZero
  base : pt 1 = g.G
  onCurve : ∀ s, s ≠ 0 → g.ecpCheckPubkey (pt s) = .ok ()
  opp : ∀ s, s ≠ 0 → g.ecpOpp (pt s) = pt (-s)
  add : ∀ s t, s ≠ 0 → t ≠ 0 → g.ecpAdd (pt s) (pt t) = .ok (pt (s + t))
  mul : ∀ (m : Int) s, 0 < m → m < g.N → s ≠ 0 → g.mulComb m (pt s) = pt (m * s)

/-- What the check lets through is affine and in range. -/
theorem onCurve_range {p : EcpPoint} (h : g.ecpCheckPubkey p = .ok ()) :
    p.Z = 1 ∧ (0 ≤ p.X ∧ p.X < g.P) ∧ 0 ≤ p.Y ∧ p.Y < g.P := by
  unfold ecpCheckPubkey at h
  split at h
  · cases h
  · next hZ =>
      split at h
      · cases h
      · next hr => exact ⟨by simpa using hZ, by omega, by omega⟩

/-- Multiplying by what is one modulo `P` changes no coordinate. -/
theorem coord_mul {P x u : Int} (h0 : 0 ≤ x) (hx : x < P)
    (hu : u ≡ 1 [ZMOD P]) : x * u % P = x := by
  have h : x * u ≡ x * 1 [ZMOD P] := hu.mul_left x
  rw [Int.mul_one] at h
  exact (show x * u % P = x % P from h).trans (Int.emod_eq_of_lt h0 hx)

theorem modMul_eq {x : Int} (h : 0 ≤ x) : g.modMul x = .ok (x % g.P) :=
  if_neg (not_lt.mpr h)

theorem ecpNormalizeJac_affine {p : EcpPoint}
    (h : g.ecpCheckPubkey p = .ok ()) : g.ecpNormalizeJac p = .ok p := by
  obtain ⟨hZ, ⟨hX0, hX⟩, hY0, hY⟩ := onCurve_range h
  obtain ⟨e, he, he0, -, hinv⟩ :=
    mpiInvMod_ok (a := p.Z) (n := g.P) (by omega) (by rw [hZ]; exact Int.one_gcd)
  have hone : e ≡ 1 [ZMOD g.P] := by
    rw [hZ, Int.one_mul] at hinv
    exact hinv
  have hsq : e * e % g.P ≡ 1 [ZMOD g.P] :=
    (Int.mod_modEq _ _).trans (hone.mul hone)
  have hsq0 : 0 ≤ e * e % g.P := Int.emod_nonneg _ (by omega)
  have hX' := modMul_eq (g := g) (mul_nonneg hX0 hsq0)
  have hY' := modMul_eq (g := g) (mul_nonneg hY0 hsq0)
  rw [coord_mul hX0 hX hsq] at hX'
  rw [coord_mul hY0 hY hsq] at hY'
  rw [ecpNormalizeJac, if_neg (by omega), he]
  simp only [bind, Except.bind, modMul_eq (g := g) (mul_nonneg he0 he0), hX', hY',
    modMul_eq (g := g) (mul_nonneg hY0 he0), coord_mul hY0 hY hone]
  rw [← hZ]

/-! ### A point through its record -/

/-- The record of a point that is not zero. -/
def record (g : EcpGroup) (p : EcpPoint) : List UInt8 :=
  UInt8.ofNat (2 * g.plen + 1) :: 0x04 ::
    (beBytes g.plen p.X.natAbs ++ beBytes g.plen p.Y.natAbs)

@[simp] theorem record_length (g : EcpGroup) (p : EcpPoint) :
    (g.record p).length = 2 * g.plen + 2 := by
  simp only [record, List.length_cons, List.length_append, beBytes_length]
  omega

/-- Room for a record: in the buffer, and in the byte that holds its length. -/
def Room (g : EcpGroup) (buflen : Nat) : Prop :=
  2 * g.plen + 2 ≤ buflen ∧ 2 * g.plen + 1 < 256

instance (g : EcpGroup) (buflen : Nat) : Decidable (g.Room buflen) :=
  inferInstanceAs (Decidable (_ ∧ _))

theorem mpiSize_coord {x : Int} (h0 : 0 ≤ x) (hx : x < g.P) :
    mpiSize x ≤ g.plen :=
  mpiSize_mono (by omega)

theorem mpiWriteBinary_coord {x : Int} (h0 : 0 ≤ x) (hx : x < g.P) :
    mpiWriteBinary x g.plen = .ok (beBytes g.plen x.natAbs) := by
  have := mpiSize_coord h0 hx
  rw [mpiWriteBinary, if_neg (by omega)]

theorem ecpTlsWritePoint_onCurve {p : EcpPoint}
    (h : g.ecpCheckPubkey p = .ok ()) {blen : Nat}
    (hlen : 2 * g.plen + 2 ≤ blen) :
    g.ecpTlsWritePoint p blen = .ok (g.record p) := by
  obtain ⟨hZ, ⟨hX0, hX⟩, hY0, hY⟩ := onCurve_range h
  have hbytes : g.ecpPointWriteBinary p (blen - 1) = .ok (0x04 ::
      (beBytes g.plen p.X.natAbs ++ beBytes g.plen p.Y.natAbs)) := by
    rw [ecpPointWriteBinary, if_neg (by omega), if_neg (by omega),
      mpiWriteBinary_coord hX0 hX, mpiWriteBinary_coord hY0 hY]
    rfl
  rw [ecpTlsWritePoint, if_neg (by omega), hbytes]
  simp only [bind, Except.bind, record, List.length_cons, List.length_append,
    beBytes_length]
  rw [Nat.two_mul]

theorem ecpTlsWritePoint_short {p : EcpPoint}
    (h : g.ecpCheckPubkey p = .ok ()) {blen : Nat}
    (hlen : blen < 2 * g.plen + 2) :
    ∃ e, g.ecpTlsWritePoint p blen = .error e := by
  have hZ := (onCurve_range h).1
  rw [ecpTlsWritePoint]
  split
  · exact ⟨_, rfl⟩
  · rw [ecpPointWriteBinary, if_neg (by omega), if_pos (by omega)]
    exact ⟨_, rfl⟩

theorem ecpPointReadBinary_onCurve {p : EcpPoint}
    (h : g.ecpCheckPubkey p = .ok ()) :
    g.ecpPointReadBinary (0x04 ::
      (beBytes g.plen p.X.natAbs ++ beBytes g.plen p.Y.natAbs)) = .ok p := by
  obtain ⟨hZ, ⟨hX0, hX⟩, hY0, hY⟩ := onCurve_range h
  have hx := mpiReadBinary_beBytes hX0 (mpiSize_coord hX0 hX)
  have hy := mpiReadBinary_beBytes hY0 (mpiSize_coord hY0 hY)
  have hlen : (0x04 :: (beBytes g.plen p.X.natAbs ++
      beBytes g.plen p.Y.natAbs) : List UInt8).length = 2 * g.plen + 1 := by
    simp only [List.length_cons, List.length_append, beBytes_length]
    omega
  rw [ecpPointReadBinary, if_neg (by simp), if_neg (by simp),
    if_neg (by simp [hlen])]
  simp only [List.drop_succ_cons, List.drop_zero, Nat.add_comm 1 g.plen]
  rw [List.take_left' (beBytes_length ..), List.drop_left' (beBytes_length ..),
    List.take_of_length_le (Nat.le_of_eq (beBytes_length ..)), hx, hy, ← hZ]

theorem ecpTlsReadPoint_record {p : EcpPoint}
    (h : g.ecpCheckPubkey p = .ok ()) {bufLen : Nat} (hroom : g.Room bufLen)
    (rest : List UInt8) :
    g.ecpTlsReadPoint (g.record p ++ rest) bufLen = .ok (p, rest) := by
  obtain ⟨hlen, hbyte⟩ := hroom
  have hnat : (UInt8.ofNat (2 * g.plen + 1)).toNat = 2 * g.plen + 1 :=
    UInt8.toNat_ofNat_of_lt hbyte
  have hbody : (0x04 :: (beBytes g.plen p.X.natAbs ++
      beBytes g.plen p.Y.natAbs) : List UInt8).length = 2 * g.plen + 1 := by
    simp only [List.length_cons, List.length_append, beBytes_length]
    omega
  rw [record, List.cons_append, ecpTlsReadPoint, if_neg (by omega)]
  simp only [hnat]
  rw [if_neg (by omega), if_neg (by rw [List.length_append, hbody]; omega),
    List.take_left' hbody, List.drop_left' hbody,
    ecpPointReadBinary_onCurve h]
  rfl

/-- What is read as a point is the zero byte or the record of the point. -/
theorem ecpPointReadBinary_ok {buf : List UInt8} {p : EcpPoint}
    (h : g.ecpPointReadBinary buf = .ok p) :
    p = ecpZero ∧ buf = [0x00] ∨ p.Z = 1 ∧ buf.length = 2 * g.plen + 1 ∧
      buf = 0x04 :: (beBytes g.plen p.X.natAbs ++ beBytes g.plen p.Y.natAbs) := by
  unfold ecpPointReadBinary at h
  simp only [] at h
  split at h
  · next hzero =>
      split at h
      · next hlen =>
          obtain ⟨b, rfl⟩ := List.length_eq_one_iff.mp hlen
          cases h
          exact .inl ⟨rfl, congrArg (· :: []) hzero⟩
      · cases h
  · split at h
    · cases h
    · next hfour =>
        split at h
        · cases h
        · next hlen =>
            cases h
            obtain ⟨b, bs, rfl⟩ := List.exists_cons_of_length_pos
              (show 0 < buf.length by omega)
            have hlen : bs.length = g.plen + g.plen := by
              rw [List.length_cons] at hlen
              omega
            have hx := beBytes_mpiReadBinary (bs.take g.plen)
            have hy := beBytes_mpiReadBinary (bs.drop g.plen)
            rw [List.length_take, Nat.min_eq_left (by omega)] at hx
            rw [List.length_drop, hlen, Nat.add_sub_cancel] at hy
            refine .inr ⟨rfl, by rw [List.length_cons]; omega, ?_⟩
            simp only [List.drop_succ_cons, List.drop_zero, Nat.add_comm 1 g.plen]
            rw [List.take_of_length_le (l := bs.drop g.plen)
              (by rw [List.length_drop]; omega), hx, hy, List.take_append_drop]
            exact congrArg (· :: bs) (not_not.mp hfour)

theorem ecpTlsReadPoint_ok {buf rest : List UInt8} {bufLen : Nat} {p : EcpPoint}
    (h : g.ecpTlsReadPoint buf bufLen = .ok (p, rest)) :
    p = ecpZero ∧ buf = 1 :: 0x00 :: rest ∨ p.Z = 1 ∧ buf = g.record p ++ rest := by
  unfold ecpTlsReadPoint at h
  split at h
  · cases h
  · split at h
    · cases h
    · next dataLen bytes =>
        split at h
        · cases h
        · split at h
          · cases h
          · next hlen =>
              have hlen : dataLen.toNat ≤ bytes.length := Nat.le_of_not_lt hlen
              cases hread : g.ecpPointReadBinary (bytes.take dataLen.toNat) with
              | error e =>
                  rw [hread] at h
                  cases h
              | ok q =>
                  rw [hread] at h
                  cases h
                  have hof : UInt8.ofNat dataLen.toNat = dataLen := UInt8.ofNat_toNat
                  rcases ecpPointReadBinary_ok hread with ⟨hp, hbuf⟩ | ⟨hZ, hcount, hbuf⟩
                  · have hone := congrArg List.length hbuf
                    rw [List.length_take, Nat.min_eq_left hlen] at hone
                    have hparts := List.take_append_drop dataLen.toNat bytes
                    rw [hbuf] at hparts
                    rw [hone] at hof
                    exact .inl ⟨hp, by rw [← hparts, ← hof]; rfl⟩
                  · rw [List.length_take, Nat.min_eq_left hlen] at hcount
                    rw [hcount] at hof
                    refine .inr ⟨hZ, ?_⟩
                    rw [record, hof, List.cons_append, ← hbuf, List.take_append_drop]

/-- A length that does not fit its byte is read as another one. -/
theorem ecpTlsReadPoint_long (p : EcpPoint) (hlong : 256 ≤ 2 * g.plen + 1)
    (rest : List UInt8) (bufLen : Nat) :
    ∃ e, g.ecpTlsReadPoint (g.record p ++ rest) bufLen = .error e := by
  have hnat : (UInt8.ofNat (2 * g.plen + 1)).toNat < 256 :=
    UInt8.toNat_lt _
  rw [record, List.cons_append, ecpTlsReadPoint]
  split
  · exact ⟨_, rfl⟩
  · split
    · exact ⟨_, rfl⟩
    · split
      · exact ⟨_, rfl⟩
      · next hd _ =>
          obtain ⟨d, hd'⟩ : ∃ d, (UInt8.ofNat (2 * g.plen + 1)).toNat = d + 1 :=
            ⟨_, (Nat.sub_add_cancel (by omega)).symm⟩
          rw [hd', List.cons_append, List.take_succ_cons, ecpPointReadBinary,
            if_neg (by simp), if_neg (by simp), if_pos]
          · exact ⟨_, rfl⟩
          · rw [List.length_cons]
            have := List.length_take_le d (beBytes g.plen p.X.natAbs ++
              beBytes g.plen p.Y.natAbs ++ rest)
            omega

/-! ### The operations on the points of an exact group -/

theorem ecpAddMixed_zero_left {p : EcpPoint} (hp : p.Z = 0) (q : EcpPoint) :
    g.ecpAddMixed p q = .ok q := by
  rw [ecpAddMixed, if_pos hp]

theorem ecpAddMixed_zero_right {p q : EcpPoint} (hp : p.Z ≠ 0) (hq : q.Z = 0) :
    g.ecpAddMixed p q = .ok p := by
  rw [ecpAddMixed, if_neg hp, if_pos hq]

namespace Exact

variable {pt : ZMod g.N → EcpPoint} (hE : g.Exact pt)

include hE

theorem affine {s : ZMod g.N} (hs : s ≠ 0) : (pt s).Z = 1 :=
  (onCurve_range (hE.onCurve s hs)).1

theorem ecpAdd_pt (s t : ZMod g.N) :
    g.ecpAdd (pt s) (pt t) = .ok (pt (s + t)) := by
  by_cases hs : s = 0
  · subst hs
    rw [zero_add, ecpAdd, ecpAddMixed_zero_left (by rw [hE.zero]; rfl)]
    by_cases ht : t = 0
    · subst ht
      rw [hE.zero]
      rfl
    · exact ecpNormalizeJac_affine (hE.onCurve t ht)
  · by_cases ht : t = 0
    · subst ht
      rw [add_zero, ecpAdd, ecpAddMixed_zero_right
        (by rw [hE.affine hs]; decide) (by rw [hE.zero]; rfl)]
      exact ecpNormalizeJac_affine (hE.onCurve s hs)
    · exact hE.add s t hs ht

theorem ecpMul_zero (m : Int) : g.ecpMul m (pt 0) = .error .ecpBadInputData := by
  rw [ecpMul, hE.zero, if_pos (by decide)]

theorem ecpMul_pt {m : Int} (h0 : 0 < m) (hm : m < g.N) {s : ZMod g.N}
    (hs : s ≠ 0) : g.ecpMul m (pt s) = .ok (pt (m * s)) := by
  rw [ecpMul, if_neg (by rw [hE.affine hs]; decide), ecpCheckPrivkey,
    if_neg (by omega), hE.onCurve s hs, hE.mul m s h0 hm hs]
  rfl

/-- `ecp_mul` by a factor in range: the zero point is refused and every other
is multiplied. -/
theorem ecpMul_rep {m : Int} (h0 : 0 < m) (hm : m < g.N) (s : ZMod g.N) :
    g.ecpMul m (pt s) =
      if s = 0 then .error .ecpBadInputData else .ok (pt (m * s)) := by
  split
  · next hs => rw [hs, hE.ecpMul_zero]
  · next hs => exact hE.ecpMul_pt h0 hm hs

omit hE in
theorem cast_ne_zero {m : Int} (h0 : 0 < m) (hm : m < g.N) :
    (m : ZMod g.N) ≠ 0 := by
  intro h
  rw [ZMod.intCast_zmod_eq_zero_iff_dvd] at h
  have := Int.le_of_dvd h0 h
  omega

theorem scalar_ne_zero {s t : ZMod g.N} (hs : s ≠ 0) (ht : t ≠ 0) :
    s * t ≠ 0 := by
  have := Fact.mk hE.prime
  exact mul_ne_zero hs ht

end Exact

end EcpGroup

/-! ## A small group over a large field

The base point of this curve has seven multiples, and its coordinates take as
many bytes as those of the curve the program uses. -/

def sevenCurve (mulComb : Int → EcpPoint → EcpPoint) : EcpGroup where
  P := 2 ^ 256 - 2 ^ 224 + 2 ^ 192 + 2 ^ 96 - 1
  A := some (2 ^ 256 - 2 ^ 224 + 2 ^ 192 + 2 ^ 96 - 44)
  B := 166
  G := ⟨3, 8, 1⟩
  N := 7
  mulComb := mulComb

/-- Multiplication by repeated addition. -/
def addTimes (m : Nat) (p : EcpPoint) : EcpPoint :=
  match m with
  | 0 => ecpZero
  | m + 1 =>
      match (sevenCurve fun _ p => p).ecpAdd (addTimes m p) p with
      | .ok q => q
      | .error _ => ecpZero

def sevenPoints : EcpGroup := sevenCurve fun m p => addTimes m.toNat p

instance : Fintype (ZMod sevenPoints.N) := inferInstanceAs (Fintype (Fin 7))

instance : DecidableEq (ZMod sevenPoints.N) :=
  inferInstanceAs (DecidableEq (Fin 7))

def sevenPt (s : ZMod sevenPoints.N) : EcpPoint :=
  addTimes (ZMod.val (n := 7) s) sevenPoints.G

theorem sevenPoints_exact : sevenPoints.Exact sevenPt where
  prime := Nat.prime_seven
  zero := rfl
  base := by decide +kernel
  onCurve := by decide +kernel
  opp := by decide +kernel
  add := by decide +kernel
  mul := by
    intro m s h0 hm hs
    have h : ∀ (k : Fin 7) (s : ZMod sevenPoints.N), s ≠ 0 →
        addTimes k.val (sevenPt s) =
          sevenPt (((k.val : Int) : ZMod sevenPoints.N) * s) := by
      decide +kernel
    obtain ⟨k, rfl⟩ := Int.eq_ofNat_of_zero_le (Int.le_of_lt h0)
    exact h ⟨k, by exact Int.ofNat_lt.mp hm⟩ s hs

end LibSmoke
