import LibSmoke.Lib.Primality
import LibSmoke.Sban.Exact
import Mathlib.Tactic.NormNum.Prime

/-!
# The curve secp256r1

The key exchanges all load the same curve. Its prime and the order of its base
point are primes, by the test of Lucas down to primes that are small, the base
point is on the curve, and its multiple by the order comes out as zero when it
is computed. With these the multiples of the base point are exact
(`secp256r1_exact`): what is proved of the key exchange on an exact group is proved
on this curve.
-/

namespace LibSmoke

/-- An embedded constant, the least significant byte first. -/
def ecpMpiLoad (p : List UInt8) : Nat := p.foldr (fun b acc => b.toNat + 256 * acc) 0

def secp256r1P : List UInt8 :=
  [0xFF, 0xFF, 0xFF, 0xFF, 0xFF, 0xFF, 0xFF, 0xFF,
   0xFF, 0xFF, 0xFF, 0xFF, 0x00, 0x00, 0x00, 0x00,
   0x00, 0x00, 0x00, 0x00, 0x00, 0x00, 0x00, 0x00,
   0x01, 0x00, 0x00, 0x00, 0xFF, 0xFF, 0xFF, 0xFF]

def secp256r1B : List UInt8 :=
  [0x4B, 0x60, 0xD2, 0x27, 0x3E, 0x3C, 0xCE, 0x3B,
   0xF6, 0xB0, 0x53, 0xCC, 0xB0, 0x06, 0x1D, 0x65,
   0xBC, 0x86, 0x98, 0x76, 0x55, 0xBD, 0xEB, 0xB3,
   0xE7, 0x93, 0x3A, 0xAA, 0xD8, 0x35, 0xC6, 0x5A]

def secp256r1Gx : List UInt8 :=
  [0x96, 0xC2, 0x98, 0xD8, 0x45, 0x39, 0xA1, 0xF4,
   0xA0, 0x33, 0xEB, 0x2D, 0x81, 0x7D, 0x03, 0x77,
   0xF2, 0x40, 0xA4, 0x63, 0xE5, 0xE6, 0xBC, 0xF8,
   0x47, 0x42, 0x2C, 0xE1, 0xF2, 0xD1, 0x17, 0x6B]

def secp256r1Gy : List UInt8 :=
  [0xF5, 0x51, 0xBF, 0x37, 0x68, 0x40, 0xB6, 0xCB,
   0xCE, 0x5E, 0x31, 0x6B, 0x57, 0x33, 0xCE, 0x2B,
   0x16, 0x9E, 0x0F, 0x7C, 0x4A, 0xEB, 0xE7, 0x8E,
   0x9B, 0x7F, 0x1A, 0xFE, 0xE2, 0x42, 0xE3, 0x4F]

def secp256r1N : List UInt8 :=
  [0x51, 0x25, 0x63, 0xFC, 0xC2, 0xCA, 0xB9, 0xF3,
   0x84, 0x9E, 0x17, 0xA7, 0xAD, 0xFA, 0xE6, 0xBC,
   0xFF, 0xFF, 0xFF, 0xFF, 0xFF, 0xFF, 0xFF, 0xFF,
   0x00, 0x00, 0x00, 0x00, 0xFF, 0xFF, 0xFF, 0xFF]

/-- The constants `LOAD_GROUP` hands on, without `a`. -/
structure EcpConstants where
  p : List UInt8
  b : List UInt8
  gx : List UInt8
  gy : List UInt8
  n : List UInt8

/-- `ecp_group_load`; `A` is absent. -/
def ecpGroupLoad (c : EcpConstants) (mulComb : Int → EcpPoint → EcpPoint) : EcpGroup where
  P := ecpMpiLoad c.p
  A := none
  B := ecpMpiLoad c.b
  G := ⟨ecpMpiLoad c.gx, ecpMpiLoad c.gy, 1⟩
  N := ecpMpiLoad c.n
  mulComb := mulComb

def secp256r1 (mulComb : Int → EcpPoint → EcpPoint) : EcpGroup :=
  ecpGroupLoad ⟨secp256r1P, secp256r1B, secp256r1Gx, secp256r1Gy, secp256r1N⟩ mulComb

/-! ## Its two primes -/

open Primality

theorem secp256r1P_prime : (ecpMpiLoad secp256r1P).Prime := by
  have h1 : Nat.Prime 204061199 := by
    refine prime_of_lucas 256 11 [2, 11, 23, 107, 3769] ?_ (by decide +kernel)
    exact ⟨by norm_num, by norm_num, by norm_num, by norm_num, by norm_num⟩
  have h2 : Nat.Prime 34282281433 := by
    refine prime_of_lucas 256 17 [2, 3, 7, 204061199] ?_ (by decide +kernel)
    exact ⟨by norm_num, by norm_num, by norm_num, h1⟩
  have h3 : Nat.Prime 66417393611 := by
    refine prime_of_lucas 256 6 [2, 5, 53, 173, 197, 3677] ?_ (by decide +kernel)
    exact ⟨by norm_num, by norm_num, by norm_num, by norm_num, by norm_num, by norm_num⟩
  have h4 : Nat.Prime 11290956913871 := by
    refine prime_of_lucas 256 13 [2, 5, 17, 66417393611] ?_ (by decide +kernel)
    exact ⟨by norm_num, by norm_num, by norm_num, h3⟩
  have h5 : Nat.Prime 46076956964474543 := by
    refine prime_of_lucas 256 5 [2, 23, 18169, 78283, 704251] ?_ (by decide +kernel)
    exact ⟨by norm_num, by norm_num, by norm_num, by norm_num, by norm_num⟩
  have h6 : Nat.Prime 774023187263532362759620327192479577272145303 := by
    refine prime_of_lucas 256 3 [2, 3, 2411, 34282281433, 11290956913871, 46076956964474543]
      ?_ (by decide +kernel)
    exact ⟨by norm_num, by norm_num, by norm_num, h2, h4, h5⟩
  have h7 : Nat.Prime 835945042244614951780389953367877943453916927241 := by
    refine prime_of_lucas 256 11 [2, 3, 5, 774023187263532362759620327192479577272145303] ?_
      (by decide +kernel)
    exact ⟨by norm_num, by norm_num, by norm_num, h6⟩
  refine prime_of_lucas 256 6
    [2, 3, 5, 17, 257, 641, 1531, 65537, 490463, 6700417,
     835945042244614951780389953367877943453916927241] ?_
    (by decide +kernel)
  exact ⟨by norm_num, by norm_num, by norm_num, by norm_num, by norm_num, by norm_num,
    by norm_num, by norm_num, by norm_num, by norm_num, h7⟩

theorem secp256r1N_prime : (ecpMpiLoad secp256r1N).Prime := by
  have h1 : Nat.Prime 187019741 := by
    refine prime_of_lucas 256 2 [2, 5, 9350987] ?_ (by decide +kernel)
    exact ⟨by norm_num, by norm_num, by norm_num⟩
  have h2 : Nat.Prime 311245691 := by
    refine prime_of_lucas 256 2 [2, 5, 7, 17, 29, 311] ?_ (by decide +kernel)
    exact ⟨by norm_num, by norm_num, by norm_num, by norm_num, by norm_num, by norm_num⟩
  have h3 : Nat.Prime 622491383 := by
    refine prime_of_lucas 256 5 [2, 311245691] ?_ (by decide +kernel)
    exact ⟨by norm_num, h2⟩
  have h4 : Nat.Prime 1002328039319 := by
    refine prime_of_lucas 256 19 [2, 126241, 3969899] ?_ (by decide +kernel)
    exact ⟨by norm_num, by norm_num, by norm_num⟩
  have h5 : Nat.Prime 191039911 := by
    refine prime_of_lucas 256 3 [2, 3, 5, 41, 155317] ?_ (by decide +kernel)
    exact ⟨by norm_num, by norm_num, by norm_num, by norm_num, by norm_num⟩
  have h6 : Nat.Prime 208150935158385979 := by
    refine prime_of_lucas 256 2 [2, 3, 11, 43, 127, 3023, 191039911] ?_ (by decide +kernel)
    exact ⟨by norm_num, by norm_num, by norm_num, by norm_num, by norm_num, by norm_num, h5⟩
  have h7 : Nat.Prime 2624747550333869278416773953 := by
    refine prime_of_lucas 256 7 [2, 3, 1297, 16879, 208150935158385979] ?_
      (by decide +kernel)
    exact ⟨by norm_num, by norm_num, by norm_num, by norm_num, h6⟩
  refine prime_of_lucas 256 7
    [2, 3, 71, 131, 373, 3407, 17449, 38189, 187019741, 622491383, 1002328039319,
     2624747550333869278416773953] ?_
    (by decide +kernel)
  exact ⟨by norm_num, by norm_num, by norm_num, by norm_num, by norm_num, by norm_num,
    by norm_num, by norm_num, h1, h3, h4, h7⟩

/-! ## Doubling and adding -/

/-- The multiple of an affine point, for a factor of `n` bits. -/
def ecpTimes (g : EcpGroup) (p : EcpPoint) : Nat → Nat → Except SbanError EcpPoint
  | 0, _ => .ok ecpZero
  | n + 1, e => do
      let r ← ecpTimes g p n (e / 2)
      if e % 2 = 1 then g.ecpAddMixed (g.ecpDoubleJac r) p else .ok (g.ecpDoubleJac r)

theorem ecpTimes_holds {g : EcpGroup} [Fact g.P.Prime] {Q : g.curve.Point} (h2 : g.P ≠ 2)
    (hQ : Q ≠ 0) (n : Nat) :
    ∀ e < 2 ^ n, ∃ r, ecpTimes g (EcpGroup.affine Q) n e = .ok r ∧ EcpGroup.Holds (e • Q) r := by
  induction n with
  | zero =>
      intro e he
      have he0 : e = 0 := by simpa using he
      rw [he0, zero_nsmul]
      exact ⟨ecpZero, rfl, .zero⟩
  | succ n ih =>
      intro e he
      rw [pow_succ] at he
      obtain ⟨r, hr, hholds⟩ := ih (e / 2) (by omega)
      have hdouble := hholds.double h2
      rw [← add_nsmul, ← two_mul] at hdouble
      simp only [ecpTimes, hr, bind, Except.bind]
      split
      · next hodd =>
          obtain ⟨r', hr', hsum⟩ :=
            hdouble.addMixed h2 (.affine Q) (.inr (EcpGroup.affine_Z hQ))
          refine ⟨r', hr', ?_⟩
          rw [← succ_nsmul, show 2 * (e / 2) + 1 = e by omega] at hsum
          exact hsum
      · next heven =>
          refine ⟨_, rfl, ?_⟩
          rw [show 2 * (e / 2) = e by omega] at hdouble
          exact hdouble

/-- The multiplication behind `ecp_mul` has no part in it. -/
theorem ecpTimes_mulComb (f h : Int → EcpPoint → EcpPoint) (p : EcpPoint) (n e : Nat) :
    ecpTimes (secp256r1 f) p n e = ecpTimes (secp256r1 h) p n e := by
  induction n generalizing e with
  | zero => rfl
  | succ n ih =>
      rw [ecpTimes, ecpTimes, ih]
      rfl

/-! ## Its base point -/

section Base

variable (mulComb : Int → EcpPoint → EcpPoint)

instance : Fact (secp256r1 mulComb).P.Prime := ⟨secp256r1P_prime⟩

/-- What is computed of the constants: the last fact is about the multiple of the base
point by its order. -/
structure Secp256r1Computed : Prop where
  odd : ecpMpiLoad secp256r1P ≠ 2
  bytes : mpiSize (ecpMpiLoad secp256r1P) = 32
  large : 255 < ecpMpiLoad secp256r1N
  bits : ecpMpiLoad secp256r1N < 2 ^ 256
  wide : 26 ≤ mpiMsb (ecpMpiLoad secp256r1N)
  smooth : ¬ ((ecpMpiLoad secp256r1P : Nat) : Int) ∣
    -16 * (4 * (-3) ^ 3 + 27 * (ecpMpiLoad secp256r1B : Int) ^ 2)
  base : (secp256r1 fun _ p => p).ecpCheckPubkey (secp256r1 fun _ p => p).G = .ok ()
  order : (ecpTimes (secp256r1 fun _ p => p) (secp256r1 fun _ p => p).G 256
    (ecpMpiLoad secp256r1N)).toOption.map EcpPoint.Z = some 0

theorem secp256r1_computed : Secp256r1Computed := by
  constructor <;> decide +kernel

theorem secp256r1_smooth : (secp256r1 mulComb).curve.Δ ≠ 0 := by
  rw [EcpGroup.smooth_iff]
  exact secp256r1_computed.smooth

/-- The base point, in the group of the points. -/
theorem exists_base : ∃ B : (secp256r1 mulComb).curve.Point,
    EcpGroup.Curve (secp256r1 mulComb) B := by
  have hodd : (secp256r1 mulComb).P ≠ 2 := secp256r1_computed.odd
  obtain ⟨B, hB, hG⟩ := (EcpGroup.ecpCheckPubkey_iff (secp256r1_smooth mulComb)).mp
    (show (secp256r1 mulComb).ecpCheckPubkey (secp256r1 mulComb).G = .ok () from
      secp256r1_computed.base)
  refine ⟨B, hodd, hG, ⟨secp256r1N_prime, hB, ?_⟩, secp256r1_computed.wide⟩
  obtain ⟨r, hr, hholds⟩ :=
    ecpTimes_holds hodd hB 256 (ecpMpiLoad secp256r1N) secp256r1_computed.bits
  refine hholds.zero_iff.mpr ?_
  have hZ := secp256r1_computed.order
  rw [ecpTimes_mulComb _ mulComb, show (secp256r1 fun _ p => p).G = EcpGroup.affine B from hG,
    hr] at hZ
  exact Option.some.inj hZ

end Base

/-- The curve before a multiplication is chosen. -/
abbrev secp256r1Params : EcpGroup := secp256r1 fun _ p => p

/-- With `ecp_mul_comb` behind `ecp_mul` the curve is exact: all the points the
key exchange computes are the multiples of its base point it takes them for. A record
fits the buffers, and there are more scalars than nodes. -/
theorem secp256r1_exact {f : Int → EcpPoint → EcpPoint} (hf : secp256r1Params.MulByComb f) :
    (∃ pt, (secp256r1 f).Exact pt) ∧ (secp256r1 f).plen = 32 ∧ 255 < (secp256r1 f).N := by
  obtain ⟨B, hB⟩ := exists_base fun _ p => p
  exact ⟨⟨_, hB.exact hf⟩, secp256r1_computed.bytes, secp256r1_computed.large⟩

theorem drawOk_two : secp256r1Params.DrawOk (some fun _ => 2) :=
  ⟨0, by decide, by decide +kernel⟩

theorem secp256r1_exact_two :
    let g := secp256r1 (secp256r1Params.mulWith (some fun _ => 2))
    (∃ pt, g.Exact pt) ∧ g.plen = 32 ∧ 255 < g.N :=
  secp256r1_exact (EcpGroup.mulByComb_mulWith drawOk_two)

/-- Three calls: the second is refused, the third reads the table the first has made. -/
def threeCalls : List EcpGroup.MulCall :=
  [⟨.init, 5, secp256r1Params.G, some fun _ => 2⟩, ⟨.init, 0, secp256r1Params.G, none⟩,
    ⟨.ofPoint ecpZero, 9, secp256r1Params.G, none⟩]

theorem mulRun_eq_three :
    ∃ B : secp256r1Params.curve.Point, secp256r1Params.G = EcpGroup.affine B ∧
      secp256r1Params.mulRun none threeCalls =
        [.ok (.ofPoint (EcpGroup.affine ((5 : Int) • B))), .error .ecpInvalidKey,
          .ok (.ofPoint (EcpGroup.affine ((9 : Int) • B)))] := by
  obtain ⟨B, hB⟩ := exists_base fun _ p => p
  refine ⟨B, hB.base, ?_⟩
  have hcalls : List.Forall₂ (fun (c : EcpGroup.MulCall) (Q : secp256r1Params.curve.Point) =>
      secp256r1Params.DrawOk c.draw ∧ EcpGroup.Torsion Q ∧ c.P = EcpGroup.affine Q)
      threeCalls [B, B, B] :=
    .cons ⟨drawOk_two, hB.torsion, hB.base⟩
      (.cons ⟨trivial, hB.torsion, hB.base⟩ (.cons ⟨trivial, hB.torsion, hB.base⟩ .nil))
  have hN : (9 : Int) < secp256r1Params.N := by
    decide +kernel
  rw [EcpGroup.mulRun_eq hB hcalls]
  simp only [threeCalls, List.zipWith_cons_cons, List.zipWith_nil_left, EcpGroup.MulCall.value]
  rw [if_neg (not_or.mpr ⟨by decide, not_le.mpr (lt_trans (by decide) hN)⟩),
    if_pos (.inl (by decide)), if_neg (not_or.mpr ⟨by decide, not_le.mpr hN⟩)]

end LibSmoke
