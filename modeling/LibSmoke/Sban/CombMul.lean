import LibSmoke.Sban.CombTable

/-!
# Multiplying with the comb

`ecp_mul_comb` makes the factor odd, lays it out on the comb, and goes through
the digits from the last to the first: it doubles what it has and adds the entry
of the table the digit stands for. The coordinates it starts from are scaled by
a random number. The table of the base point stays with the group.

What it has is never zero on the way, as the comment at `ecp_add_mixed` says:
it is the multiple by a tail of the digits, and these are between zero and the
factor (`ecpCombFixed_drop`). So no special case is met in which a `Z` that is
not there is copied, and the result is the multiple, whatever the random numbers
and whether the table was there or not (`ecpMulComb_eq`).
-/

namespace LibSmoke

namespace EcpGroup

variable (g : EcpGroup)

/-- The entry a digit stands for; `R` is left as it is past the table. -/
def ecpSelectComb (R : CombPoint) (T : List CombPoint) (i : UInt8) : CombPoint :=
  let R := match (T)[((i &&& 0x7f) >>> 1).toNat]? with
    | some t => { R with X := t.X, Y := t.Y }
    | none => R
  if i >>> 7 = 1 ∧ R.Y ≠ 0 then { R with Y := g.P - R.Y } else R

/-- `l` shifted right until it is below the prime. -/
def shiftBelow : Nat → Nat → Nat
  | 0, l => l
  | fuel + 1, l => if l ≥ g.P then shiftBelow fuel (l >>> 1) else l

/-- The factor `ecp_randomize_jac` draws; the numbers past the eleventh are not
looked at. -/
def drawFactor (draw : Nat → Nat) : Nat → Nat → Except SbanError Int
  | 0, _ => .error .ecpRandomFailed
  | count + 1, i =>
      let l := g.shiftBelow (mpiMsb (draw i)) (draw i)
      if l ≤ 1 then drawFactor draw count (i + 1) else .ok l

def ecpRandomizeJac (draw : Nat → Nat) (pt : CombPoint) : Except SbanError CombPoint := do
  let l ← g.drawFactor draw 11 0
  let Z := pt.jac.Z * l % g.P
  let ll := l * l % g.P
  let X := pt.X * ll % g.P
  let ll := ll * l % g.P
  .ok ⟨X, pt.Y * ll % g.P, some Z⟩

/-- The loop of `ecp_mul_comb_core`; `Txi` keeps what it holds from turn to
turn. -/
def combCore (T : List CombPoint) (R Txi : CombPoint) :
    List UInt8 → Except SbanError CombPoint
  | [] => .ok R
  | x :: xs => do
      let R := g.combDouble R
      let Txi := g.ecpSelectComb Txi T x
      let R ← g.combAddMixed R Txi
      combCore T R Txi xs

/-- `draw` is `none` where no random function is given. -/
def combRandomize (draw : Option (Nat → Nat)) (R : CombPoint) : Except SbanError CombPoint :=
  match draw with
  | none => .ok R
  | some draw => g.ecpRandomizeJac draw R

def ecpMulCombCore (R : CombPoint) (T : List CombPoint) (k : List UInt8)
    (draw : Option (Nat → Nat)) : Except SbanError CombPoint :=
  match k.reverse with
  | [] => .error .pastBuffer
  | x :: xs => do
      let R ← g.combRandomize draw { g.ecpSelectComb R T x with Z := some 1 }
      g.combCore T R .init xs

def nbits : Nat := mpiMsb g.N

def isBase (P : EcpPoint) : Bool := P.Y = g.G.Y && P.X = g.G.X

/-- The number of teeth, for the base point and for another one. -/
def combWidth (base : Bool) : Nat :=
  let w := if g.nbits ≥ 384 then 5 else 4
  let w := if base then w + 1 else w
  let w := if w > 6 then 6 else w
  if w ≥ g.nbits then 2 else w

def combSpacing (w : Nat) : Nat := (g.nbits + w - 1) / w

/-- The table to use and the one the group keeps. -/
def combTable (grpT : Option (List CombPoint)) (P : EcpPoint) :
    Except SbanError (List CombPoint × Option (List CombPoint)) :=
  let w := g.combWidth (g.isBase P)
  match if g.isBase P then grpT else none with
  | some T => .ok (T, grpT)
  | none => do
      let T ← g.ecpPrecomputeComb (g.combSpacing w) w P
      .ok (T, if g.isBase P then some T else grpT)

/-- `m * P` from the table: `M` is odd, `m` or `N - m`. -/
def combMultiply (R : CombPoint) (T : List CombPoint) (w : Nat)
    (draw : Option (Nat → Nat)) (m : Int) : Except SbanError CombPoint := do
  let mIsOdd := mpiGetBit m 0 = 1
  let M := if mIsOdd then m else g.N - m
  let k := ecpCombFixed (g.combSpacing w) w M
  let R ← g.ecpMulCombCore R T k draw
  let R := if ¬ mIsOdd ∧ R.Y ≠ 0 then { R with Y := g.P - R.Y } else R
  g.combNormalizeJac R

/-- The result and the table the group keeps; the point is given up on every
error. -/
def ecpMulComb (grpT : Option (List CombPoint)) (R : CombPoint) (m : Int) (P : EcpPoint)
    (draw : Option (Nat → Nat)) :
    Except SbanError CombPoint × Option (List CombPoint) :=
  if mpiGetBit g.N 0 ≠ 1 then (.error .ecpBadInputData, grpT)
  else
    match g.combTable grpT P with
    | .error e => (.error e, grpT)
    | .ok (T, grpT) =>
        (g.combMultiply R T (g.combWidth (g.isBase P)) draw m, grpT)

variable {g}

theorem combSpacing_bits {M : Int} (hw : 0 < w) (h0 : 0 ≤ M) (hlt : M < g.N) :
    mpiMsb M ≤ w * g.combSpacing w := by
  have hmono : mpiMsb M ≤ g.nbits := mpiMsb_mono (by omega)
  have hdiv := Nat.div_add_mod (g.nbits + w - 1) w
  have hmod := Nat.mod_lt (g.nbits + w - 1) hw
  rw [combSpacing]
  omega

theorem combWidth_cases (hbits : 26 ≤ g.nbits) (base : Bool) :
    4 ≤ g.combWidth base ∧ g.combWidth base ≤ 6 ∧
      (g.combWidth base = 6 → 384 ≤ g.nbits) := by
  unfold combWidth
  cases base <;> simp only [Bool.false_eq_true, if_true, if_false] <;> split <;> split <;>
    split <;> omega

/-! ## One digit -/

variable [hP : Fact g.P.Prime] {Q : g.curve.Point} {R Txi : CombPoint}
  {T : List CombPoint} {d w : Nat} {x : UInt8}

theorem affine_neg (hQ : Q ≠ 0) : affine (-Q) = g.ecpOpp (affine Q) := by
  have hopp := (Holds.affine Q).opp
  refine (hopp.eq_affine ?_).symm
  have hZ := affine_Z hQ
  unfold ecpOpp
  split <;> exact hZ

theorem sign_iff (x : UInt8) : x >>> 7 = 1 ↔ x.toNat.testBit 7 = true := by
  have hlt := x.toNat_lt
  rw [← UInt8.toNat_inj, UInt8.toNat_shiftRight, Nat.testBit_eq_decide_div_mod_eq,
    decide_eq_true_iff]
  show x.toNat >>> 7 = 1 ↔ _
  rw [Nat.shiftRight_eq_div_pow]
  omega

/-- The entry of an odd digit is the multiple it stands for. -/
theorem ecpSelectComb_keeps (hT : TableOf d w Q T) (hx : x.toNat.testBit 0 = true)
    (hi : combIndex x < 2 ^ (w - 1)) :
    Keeps (combFactor d x • Q) { g.ecpSelectComb R T x with Z := none } ∧
      (g.ecpSelectComb R T x).Z = R.Z := by
  obtain ⟨hlen, hkeeps⟩ := hT
  obtain ⟨hne, hentry⟩ := hkeeps _ hi
  have hget : (T)[combIndex x]? = some (T.getD (combIndex x) .init) := by
    rw [List.getElem?_eq_getElem (by omega), List.getD, List.getElem?_eq_getElem (by omega)]
    rfl
  generalize T.getD (combIndex x) .init = t at *
  have hX : t.X = (affine (combMultiple d (combIndex x) • Q)).X := congrArg EcpPoint.X hentry
  have hY : t.Y = (affine (combMultiple d (combIndex x) • Q)).Y := congrArg EcpPoint.Y hentry
  have hZ := affine_Z hne
  unfold ecpSelectComb
  rw [← combIndex, hget, combFactor_eq hx, digitSign]
  by_cases hs : x.toNat.testBit 7 = true
  · rw [if_pos hs, neg_mul, one_mul, neg_smul, natCast_zsmul]
    have hs1 : x >>> 7 = 1 := (sign_iff x).mpr hs
    refine ⟨⟨neg_ne_zero.mpr hne, ?_⟩, ?_⟩
    · rw [affine_neg hne, ecpOpp]
      by_cases hY0 : t.Y = 0
      · rw [if_neg (by simp [hY0]), if_neg (by rw [← hY, hY0]; decide)]
        simp [CombPoint.mixed, hX, hY, ← hZ]
      · rw [if_pos ⟨hs1, hY0⟩, if_pos (by rw [← hY]; exact hY0)]
        simp [CombPoint.mixed, hX, hY, ← hZ]
    · dsimp only
      split <;> rfl
  · rw [if_neg hs, one_mul, natCast_zsmul]
    have hs1 : ¬ x >>> 7 = 1 := fun h => hs ((sign_iff x).mp h)
    rw [if_neg fun h => hs1 h.1]
    refine ⟨⟨hne, ?_⟩, rfl⟩
    simp [CombPoint.mixed, hX, hY, ← hZ]

/-! ## The random factor -/

theorem shiftBelow_lt (fuel : Nat) {l : Nat} (hl : l < 2 ^ fuel) :
    g.shiftBelow fuel l < g.P := by
  induction fuel generalizing l with
  | zero =>
      have hl0 : l = 0 := by simpa using hl
      rw [shiftBelow, hl0]
      exact hP.out.pos
  | succ fuel ih =>
      rw [shiftBelow]
      split
      · refine ih ?_
        rw [Nat.shiftRight_eq_div_pow]
        rw [Nat.pow_succ] at hl
        omega
      · next h => exact Nat.lt_of_not_le h

/-- The random numbers are good for a factor: one of the eleven is not zero or
one when it is shifted below the prime. -/
def DrawsFactor (g : EcpGroup) (draw : Nat → Nat) : Prop :=
  ∃ i < 11, 1 < g.shiftBelow (mpiMsb (draw i)) (draw i)

theorem drawFactor_spec (draw : Nat → Nat) (count i : Nat) :
    (∃ l, g.drawFactor draw count i = .ok l ∧ 1 < l ∧ l < g.P) ∨
      g.drawFactor draw count i = .error .ecpRandomFailed ∧
        ∀ j, i ≤ j → j < i + count → g.shiftBelow (mpiMsb (draw j)) (draw j) ≤ 1 := by
  induction count generalizing i with
  | zero => exact .inr ⟨rfl, fun j h1 h2 => absurd h2 (by omega)⟩
  | succ count ih =>
      rw [drawFactor]
      have hlt : g.shiftBelow (mpiMsb (draw i)) (draw i) < g.P :=
        shiftBelow_lt _ (by simpa using lt_pow_mpiMsb (draw i : Int))
      by_cases h : g.shiftBelow (mpiMsb (draw i)) (draw i) ≤ 1
      · rw [if_pos h]
        rcases ih (i + 1) with hok | ⟨herr, hall⟩
        · exact .inl hok
        · refine .inr ⟨herr, fun j h1 h2 => ?_⟩
          rcases Nat.lt_or_ge i j with hj | hj
          · exact hall j hj (by omega)
          · rwa [Nat.le_antisymm hj h1]
      · rw [if_neg h]
        exact .inl ⟨_, rfl, by omega, by omega⟩

/-- Other coordinates of the same point. -/
theorem ecpRandomizeJac_holds {draw : Nat → Nat} {t : CombPoint} (hd : g.DrawsFactor draw)
    (h : Holds Q t.jac) : ∃ r, g.ecpRandomizeJac draw t = .ok r ∧ Holds Q r.jac := by
  rcases drawFactor_spec (g := g) draw 11 0 with
    ⟨l, hl, h1, hlt⟩ | ⟨-, hall⟩
  · rw [ecpRandomizeJac, hl]
    refine ⟨_, rfl, ⟨reduced_mod _, reduced_mod _, reduced_mod _⟩, ?_⟩
    have hl0 : (l : ZMod g.P) ≠ 0 := by
      intro h
      have := (cast_eq_zero (g := g) ⟨by omega, hlt⟩).mp h
      omega
    have hcoords : g.coords (CombPoint.jac ⟨t.X * (l * l % g.P) % g.P,
        t.Y * (l * l % g.P * l % g.P) % g.P, some (t.jac.Z * l % g.P)⟩) =
        (g.coords t.jac).scale (l : ZMod g.P) := by
      simp only [coords, CombPoint.jac, Jacobian.Coords.scale, Option.getD_some,
        ZMod.intCast_mod, Int.cast_mul, Jacobian.Coords.mk.injEq]
      refine ⟨?_, ?_, ?_⟩ <;> ring
    rw [hcoords]
    exact h.stands.scale hl0
  · obtain ⟨i, hi, hlt⟩ := hd
    have := hall i (Nat.zero_le i) (by omega)
    omega

/-- The randomness there is lets the multiplication go through. -/
def DrawOk (g : EcpGroup) : Option (Nat → Nat) → Prop
  | none => True
  | some draw => g.DrawsFactor draw

theorem combRandomize_holds {draw : Option (Nat → Nat)} {t : CombPoint} (hd : g.DrawOk draw)
    (h : Holds Q t.jac) : ∃ r, g.combRandomize draw t = .ok r ∧ Holds Q r.jac := by
  cases draw with
  | none => exact ⟨t, rfl, h⟩
  | some draw => exact ecpRandomizeJac_holds hd h

/-! ## All the digits -/

/-- What the digits make of what there is, the most significant first. -/
def combAccumulate (d : Nat) (V : Int) (xs : List UInt8) : Int :=
  xs.foldl (fun V x => combFactor d x + 2 * V) V

theorem combCore_holds (h2 : g.P ≠ 2) (hT : TableOf d w Q T) {xs : List UInt8} {V : Int}
    (hR : Holds (V • Q) R.jac) (hTxi : Txi.Z = none)
    (hxs : ∀ x ∈ xs, x.toNat.testBit 0 = true ∧ combIndex x < 2 ^ (w - 1))
    (hne : ∀ i < xs.length, (2 * combAccumulate d V (xs.take i)) • Q ≠ 0) :
    ∃ R', g.combCore T R Txi xs = .ok R' ∧
      Holds (combAccumulate d V xs • Q) R'.jac := by
  induction xs generalizing R Txi V with
  | nil => exact ⟨R, rfl, hR⟩
  | cons x xs ih =>
      obtain ⟨hodd, hidx⟩ := hxs x List.mem_cons_self
      obtain ⟨hkeeps, hZ⟩ := ecpSelectComb_keeps (R := Txi) hT hodd hidx
      rw [hTxi] at hZ
      have hself : { g.ecpSelectComb Txi T x with Z := none } = g.ecpSelectComb Txi T x := by
        rw [← hZ]
      rw [hself] at hkeeps
      have hdouble := combDouble_holds h2 hR
      rw [← add_zsmul, ← two_mul] at hdouble
      have hne0 : (2 * V) • Q ≠ 0 := hne 0 (Nat.succ_pos _)
      obtain ⟨R', hadd, hR'⟩ := combAddMixed_holds h2 hne0 hdouble hkeeps
      rw [← add_zsmul, add_comm] at hR'
      obtain ⟨R'', hcore, hR''⟩ := ih hR' hZ
        (fun y hy => hxs y (List.mem_cons_of_mem _ hy))
        (fun i hi => hne (i + 1) (Nat.succ_lt_succ hi))
      refine ⟨R'', ?_, hR''⟩
      rw [combCore, hadd]
      exact hcore

/-- From the last digit on the digits make the tails of their number. -/
theorem combAccumulate_reverse (d : Nat) (k : List UInt8) (i : Nat) :
    combAccumulate d 0 (k.reverse.take i) =
      Digits.value ((k.map (combFactor d)).drop (k.length - i)) := by
  rw [List.take_reverse, combAccumulate, List.foldl_reverse, ← List.map_drop]
  generalize k.drop (k.length - i) = l
  induction l with
  | nil => rfl
  | cons x l ih => rw [List.foldr_cons, List.map_cons, Digits.value_cons, ih]

/-- The order of the point is the order of the group. -/
structure Torsion (Q : g.curve.Point) : Prop where
  prime : g.N.Prime
  ne : Q ≠ 0
  smul : g.N • Q = 0

namespace Torsion

theorem zsmul_eq_zero (h : Torsion Q) (k : Int) : k • Q = 0 ↔ (g.N : Int) ∣ k := by
  have hfact : Fact g.N.Prime := ⟨h.prime⟩
  rw [← addOrderOf_dvd_iff_zsmul_eq_zero, addOrderOf_eq_prime h.smul h.ne]

/-- A multiple below the order is not zero. -/
theorem zsmul_ne_zero (h : Torsion Q) {k : Int} (h0 : 0 < k) (hlt : k < g.N) : k • Q ≠ 0 := by
  rw [Ne, h.zsmul_eq_zero]
  exact fun hdvd => absurd (Int.le_of_dvd h0 hdvd) (by omega)

theorem double_ne_zero (h : Torsion Q) (h2 : g.N ≠ 2) {k : Int} (hk : k • Q ≠ 0) :
    (2 * k) • Q ≠ 0 := by
  rw [Ne, h.zsmul_eq_zero] at hk ⊢
  intro hdvd
  rcases (Int.prime_iff_natAbs_prime.mpr (by simpa using h.prime)).dvd_or_dvd hdvd with h | h
  · have hle := Int.le_of_dvd (by decide) h
    have := Nat.Prime.two_le ‹Torsion Q›.prime
    omega
  · exact hk h

end Torsion

/-- The core of the multiplication: the factor that the digits make. -/
theorem ecpMulCombCore_holds (h2 : g.P ≠ 2) (hN : g.N ≠ 2) (hQ : Torsion Q)
    (hT : TableOf d w Q T) {M : Int} (hM : CombCall d w M) (hlt : M < g.N)
    {draw : Option (Nat → Nat)} (hd : g.DrawOk draw) :
    ∃ R', g.ecpMulCombCore R T (ecpCombFixed d w M) draw = .ok R' ∧
      Holds (M • Q) R'.jac := by
  have hlen := ecpCombFixed_length hM
  have hgood : ∀ x ∈ (ecpCombFixed d w M).reverse,
      x.toNat.testBit 0 = true ∧ combIndex x < 2 ^ (w - 1) := by
    intro x hx
    rw [List.mem_reverse] at hx
    exact ⟨ecpCombFixed_odd hM x hx, combIndex_lt hM x hx⟩
  have htail := combAccumulate_reverse d (ecpCombFixed d w M)
  have hall : combAccumulate d 0 (ecpCombFixed d w M).reverse = M := by
    have h := htail (d + 1)
    rw [List.take_of_length_le (by rw [List.length_reverse]; omega), hlen, Nat.sub_self,
      List.drop_zero, ecpCombFixed_value hM] at h
    exact h
  have hpos : ∀ i < d + 1, (combAccumulate d 0
      ((ecpCombFixed d w M).reverse.take (i + 1))) • Q ≠ 0 := by
    intro i hi
    obtain ⟨hpos, hle⟩ := ecpCombFixed_drop hM (i := d - i) (by omega)
    rw [htail, hlen, show d + 1 - (i + 1) = d - i by omega]
    exact hQ.zsmul_ne_zero hpos (by omega)
  rw [← List.length_reverse] at hlen
  rw [ecpMulCombCore]
  generalize (ecpCombFixed d w M).reverse = k at *
  cases k with
  | nil => cases hlen
  | cons x xs =>
      obtain ⟨hodd, hidx⟩ := hgood x List.mem_cons_self
      obtain ⟨⟨-, hkeeps⟩, -⟩ := ecpSelectComb_keeps (R := R) hT hodd hidx
      have hstart : Holds (combFactor d x • Q)
          (CombPoint.jac { g.ecpSelectComb R T x with Z := some 1 }) := by
        have hjac : CombPoint.jac { g.ecpSelectComb R T x with Z := some 1 } =
            CombPoint.mixed { g.ecpSelectComb R T x with Z := none } := rfl
        rw [hjac, hkeeps]
        exact .affine _
      obtain ⟨R1, hR1, hholds1⟩ := combRandomize_holds hd hstart
      have hacc : ∀ ys, combAccumulate d (combFactor d x) ys =
          combAccumulate d 0 (x :: ys) := by
        intro ys
        rw [combAccumulate, combAccumulate, List.foldl_cons, mul_zero, add_zero]
      obtain ⟨R', hcore, hR'⟩ := combCore_holds h2 hT hholds1 (show CombPoint.init.Z = none from rfl)
        (fun y hy => hgood y (List.mem_cons_of_mem _ hy)) (fun i hi => by
          rw [hacc]
          refine hQ.double_ne_zero hN (hpos i ?_)
          rw [List.length_cons] at hlen
          omega)
      rw [hacc, hall] at hR'
      refine ⟨R', ?_, hR'⟩
      simp only [hR1]
      exact hcore

/-! ## Any factor -/

theorem mpiGetBit_zero (m : Int) : mpiGetBit m 0 = 1 ↔ m.natAbs.testBit 0 = true := by
  rw [mpiGetBit]
  cases m.natAbs.testBit 0 <;> simp

theorem testBit_zero_odd {m : Int} (h : 0 ≤ m) : m.natAbs.testBit 0 = true ↔ m % 2 = 1 := by
  rw [Nat.testBit_zero, decide_eq_true_iff]
  omega

/-- From the table of a point, its multiple, whatever the random numbers. -/
theorem combMultiply_eq (h2 : g.P ≠ 2) (hN : g.N ≠ 2) (hQ : Torsion Q) (hw : 2 ≤ w)
    (hw7 : w ≤ 7) (hT : TableOf (g.combSpacing w) w Q T) {m : Int} (h0 : 0 < m) (hlt : m < g.N)
    {draw : Option (Nat → Nat)} (hd : g.DrawOk draw) :
    g.combMultiply R T w draw m = .ok (.ofPoint (affine (m • Q))) := by
  have hNodd : (g.N : Int) % 2 = 1 := by
    have := hQ.prime.eq_two_or_odd
    omega
  have hmQ := hQ.zsmul_ne_zero h0 hlt
  rw [combMultiply]
  by_cases hodd : mpiGetBit m 0 = 1
  · have hcall : CombCall (g.combSpacing w) w m :=
      ⟨hw, hw7, (mpiGetBit_zero m).mp hodd, h0.le, combSpacing_bits (by omega) h0.le hlt⟩
    obtain ⟨R', hR', hholds⟩ := ecpMulCombCore_holds (R := R) h2 hN hQ hT hcall hlt hd
    have hr := combNormalizeJac_eq hmQ hholds
    simp only [hodd, bind, Except.bind, if_true, hR', not_true_eq_false, false_and, if_false, hr]
  · have heven : m % 2 = 0 := by
      rw [mpiGetBit_zero, testBit_zero_odd h0.le] at hodd
      omega
    have hcall : CombCall (g.combSpacing w) w (g.N - m) :=
      ⟨hw, hw7, (testBit_zero_odd (by omega)).mpr (by omega), by omega,
        combSpacing_bits (by omega) (by omega) (by omega)⟩
    obtain ⟨R', hR', hholds⟩ :=
      ecpMulCombCore_holds (R := R) h2 hN hQ hT hcall (by omega) hd
    have hneg : -(((g.N : Int) - m) • Q) = m • Q := by
      rw [← neg_zsmul, neg_sub, sub_zsmul, natCast_zsmul, hQ.smul, neg_zero, add_zero]
    have hopp := hholds.opp
    rw [hneg] at hopp
    have hjac : (if R'.Y ≠ 0 then { R' with Y := (g.P : Int) - R'.Y } else R').jac =
        g.ecpOpp R'.jac := by
      by_cases hY : R'.Y ≠ 0
      · rw [if_pos hY, ecpOpp, if_pos (show R'.jac.Y ≠ 0 from hY)]
        rfl
      · rw [if_neg hY, ecpOpp, if_neg (show ¬ R'.jac.Y ≠ 0 from hY)]
    rw [← hjac] at hopp
    have hr := combNormalizeJac_eq hmQ hopp
    simp only [hodd, bind, Except.bind, if_false, hR', not_false_eq_true, true_and]
    exact hr

/-! ## The table is fit -/

/-- The table goes as far as the bits of its places do. -/
theorem combMultiple_lt {d n i : Nat} (hd : 0 < d) (hn : n ≤ 6) (hi : i < 2 ^ n) :
    combMultiple d i < 2 ^ (d * n + 1) := by
  induction n generalizing i with
  | zero =>
      have hi0 : i = 0 := by simpa using hi
      rw [hi0, combMultiple_zero]
      simp
  | succ n ih =>
      have hle : 2 ^ (d * n + 1) ≤ 2 ^ (d * (n + 1)) := by
        refine Nat.pow_le_pow_right (by decide) ?_
        rw [Nat.mul_succ]
        omega
      rw [Nat.pow_succ]
      by_cases hlt : i < 2 ^ n
      · have := ih (by omega) hlt
        omega
      · obtain ⟨j, rfl⟩ : ∃ j, i = 2 ^ n + j := ⟨i - 2 ^ n, by omega⟩
        rw [Nat.pow_succ] at hi
        have hj := ih (by omega) (show j < 2 ^ n by omega)
        rw [combMultiple_add d (by omega) (by omega)]
        omega

/-- No multiple in the table is zero: they are below the order. -/
theorem combMultiple_ne_zero (hQ : Torsion Q) (hbits : 26 ≤ g.nbits) (base : Bool) :
    ∀ i < 2 ^ (g.combWidth base - 1),
      combMultiple (g.combSpacing (g.combWidth base)) i • Q ≠ 0 := by
  intro i hi
  obtain ⟨hw4, hw6, h384⟩ := combWidth_cases hbits base
  generalize g.combWidth base = w at *
  have hd : 0 < g.combSpacing w := by
    rw [combSpacing]
    exact Nat.div_pos (by omega) (by omega)
  have hlt := combMultiple_lt hd (by omega) hi
  have hexp : g.combSpacing w * (w - 1) + 1 < g.nbits := by
    rw [combSpacing]
    obtain rfl | rfl | rfl : w = 4 ∨ w = 5 ∨ w = 6 := by omega
    all_goals omega
  have hN : 2 ^ (g.combSpacing w * (w - 1) + 1) ≤ g.N := by
    refine Nat.le_trans (Nat.pow_le_pow_right (by decide) (Nat.le_pred_of_lt hexp)) ?_
    rw [nbits, mpiMsb]
    have := hQ.prime.pos
    rw [if_neg (by omega)]
    exact Nat.log2_self_le (by simpa using this.ne')
  have hpos : 0 < combMultiple (g.combSpacing w) i := by
    rw [combMultiple]
    omega
  rw [← natCast_zsmul]
  exact hQ.zsmul_ne_zero (by omega) (by omega)

theorem two_pow_smul_ne_zero (hQ : Torsion Q) (hN : g.N ≠ 2) (k : Nat) :
    (2 ^ k : Nat) • Q ≠ 0 := by
  rw [← natCast_zsmul, Ne, hQ.zsmul_eq_zero, Int.natCast_dvd_natCast]
  intro hdvd
  exact hN ((Nat.prime_dvd_prime_iff_eq hQ.prime Nat.prime_two).mp (hQ.prime.dvd_of_dvd_pow hdvd))

/-! ## The multiplication -/

/-- The table the group keeps, if it keeps one, is that of the base point. -/
def CacheOk (B : g.curve.Point) (grpT : Option (List CombPoint)) : Prop :=
  ∀ T, grpT = some T → TableOf (g.combSpacing (g.combWidth true)) (g.combWidth true) B T

theorem cacheOk_none (B : g.curve.Point) : CacheOk B none := nofun

/-- The parameters are those of a curve: the base point is on it and has the
order the group has, and that is a prime that is large enough. -/
structure Curve (g : EcpGroup) [Fact g.P.Prime] (B : g.curve.Point) : Prop where
  odd : g.P ≠ 2
  base : g.G = affine B
  torsion : Torsion B
  wide : 26 ≤ g.nbits

theorem Curve.order_odd {B : g.curve.Point} (h : Curve g B) : g.N ≠ 2 := by
  intro hN
  have hw := h.wide
  rw [nbits, hN] at hw
  exact absurd hw (by decide)

/-- The table that is used is the one of the point, and what the group keeps
stays right. -/
theorem combTable_spec {B : g.curve.Point} (h : Curve g B) (hQ : Torsion Q)
    {grpT : Option (List CombPoint)} (hcache : CacheOk B grpT) :
    ∃ T grpT', g.combTable grpT (affine Q) = .ok (T, grpT') ∧ CacheOk B grpT' ∧
      TableOf (g.combSpacing (g.combWidth (g.isBase (affine Q))))
        (g.combWidth (g.isBase (affine Q))) Q T := by
  have hmake : ∃ T, g.ecpPrecomputeComb (g.combSpacing (g.combWidth (g.isBase (affine Q))))
      (g.combWidth (g.isBase (affine Q))) (affine Q) = .ok T ∧
      TableOf (g.combSpacing (g.combWidth (g.isBase (affine Q))))
        (g.combWidth (g.isBase (affine Q))) Q T := by
    obtain ⟨hw4, hw6, -⟩ := combWidth_cases h.wide (g.isBase (affine Q))
    exact ecpPrecomputeComb_tableOf h.odd (by omega) (by omega) (.affine Q) (affine_Z hQ.ne)
      (two_pow_smul_ne_zero hQ h.order_odd) (combMultiple_ne_zero hQ h.wide _)
  rw [combTable]
  by_cases hbase : g.isBase (affine Q) = true
  · have hB : Q = B := by
      rw [isBase, Bool.and_eq_true, decide_eq_true_iff, decide_eq_true_iff, h.base] at hbase
      refine (Holds.affine Q).unique ?_
      have heq : affine Q = affine B := by
        have h1 := affine_Z hQ.ne
        have h2 := affine_Z h.torsion.ne
        exact EcpPoint.mk.injEq .. ▸ ⟨hbase.2, hbase.1, h1.trans h2.symm⟩
      rw [heq]
      exact .affine B
    rw [hbase] at hmake ⊢
    simp only [if_true]
    cases grpT with
    | some T =>
        refine ⟨T, some T, rfl, hcache, ?_⟩
        rw [hB]
        exact hcache T rfl
    | none =>
        obtain ⟨T, hT, htable⟩ := hmake
        refine ⟨T, some T, by simp only [hT, bind, Except.bind], fun T' hT' => ?_, htable⟩
        cases hT'
        rw [← hB]
        exact htable
  · have hfalse : g.isBase (affine Q) = false := by simpa using hbase
    rw [hfalse] at hmake ⊢
    obtain ⟨T, hT, htable⟩ := hmake
    exact ⟨T, grpT, by simp only [hT, bind, Except.bind, Bool.false_eq_true, if_false],
      hcache, htable⟩

/-- The comb multiplies: neither the random numbers, nor what was in `R`, nor a
table that is kept from an earlier call make a difference. -/
theorem ecpMulComb_eq {B : g.curve.Point} (h : Curve g B) (hQ : Torsion Q)
    {grpT : Option (List CombPoint)} (hcache : CacheOk B grpT) {m : Int} (h0 : 0 < m)
    (hlt : m < g.N) {draw : Option (Nat → Nat)} (hd : g.DrawOk draw) :
    ∃ grpT', g.ecpMulComb grpT R m (affine Q) draw =
      (.ok (.ofPoint (affine (m • Q))), grpT') ∧ CacheOk B grpT' := by
  obtain ⟨T, grpT', htable, hcache', hT⟩ := combTable_spec h hQ hcache
  obtain ⟨hw4, hw6, -⟩ := combWidth_cases h.wide (g.isBase (affine Q))
  have hr := combMultiply_eq (R := R) h.odd h.order_odd hQ (by omega) (by omega) hT h0 hlt hd
  have hNodd : mpiGetBit g.N 0 = 1 := by
    rw [mpiGetBit_zero, testBit_zero_odd (by omega)]
    have := hQ.prime.eq_two_or_odd
    have := h.order_odd
    omega
  refine ⟨grpT', ?_, hcache'⟩
  rw [ecpMulComb, if_neg (not_not.mpr hNodd), htable]
  simp only [hr]

end EcpGroup

end LibSmoke
