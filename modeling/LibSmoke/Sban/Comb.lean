import Mathlib.Data.Nat.Bitwise
import LibSmoke.Lib.Digits
import LibSmoke.Sban.Ecp

/-!
# The digits of the comb

`ecp_comb_fixed` lays the bits of a factor out on a comb of `w` teeth, `d` bits
apart, and then goes over the `d + 1` digits once, so that each becomes odd and
none can be told by being zero: an even digit takes the digit before it in, that
digit changes its sign to make up for it, and what the bits of both carry goes
to the next one. Bit 7 of a digit is its sign.

Each tooth is a number in signed binary digits of its own, and one step of the
loop keeps the value of each (`combStep_value`). The carry out of the last digit
is dropped: there is none, since no tooth holds `2 ^ d` (`ecpCombFixed_tooth`).
-/

namespace LibSmoke

def mpiGetBit (x : Int) (pos : Nat) : Nat := (x.natAbs.testBit pos).toNat

/-- The classical comb value at `i`. -/
def combDigit (d w : Nat) (m : Int) (i : Nat) : UInt8 :=
  (List.range w).foldl
    (fun x j => x ||| UInt8.ofNat (mpiGetBit m (i + d * j) <<< j)) 0

/-- One turn of the second loop: the digit before, the carry and the digit. -/
def combStep (prev c x : UInt8) : UInt8 × UInt8 × UInt8 :=
  let cc := x &&& c
  let x := x ^^^ c
  let c := cc
  let adjust := 1 - (x &&& 0x01)
  let c := c ||| (x &&& (prev * adjust))
  let x := x ^^^ (prev * adjust)
  (prev ||| adjust <<< 7, c, x)

def combLoop : UInt8 → UInt8 → List UInt8 → List UInt8
  | prev, _, [] => [prev]
  | prev, c, x :: xs =>
      (combStep prev c x).1 :: combLoop (combStep prev c x).2.2 (combStep prev c x).2.1 xs

def ecpCombFixed (d w : Nat) (m : Int) : List UInt8 :=
  match (List.range d).map (combDigit d w m) ++ [0] with
  | [] => []
  | x :: xs => combLoop x 0 xs

/-! ## Bits of a digit -/

/-- Bit `j` of a digit, as a number. -/
def digitBit (x : UInt8) (j : Nat) : Int := if x.toNat.testBit j then 1 else 0

def digitSign (x : UInt8) : Int := if x.toNat.testBit 7 then -1 else 1

/-- The digit on one tooth. -/
def toothDigit (j : Nat) (x : UInt8) : Int := digitSign x * digitBit x j

def tooth (j : Nat) (l : List UInt8) : Int := Digits.value (l.map (toothDigit j))

theorem digitBit_bounds (x : UInt8) (j : Nat) : 0 ≤ digitBit x j ∧ digitBit x j ≤ 1 := by
  unfold digitBit
  split <;> simp

theorem toothDigit_bounds (x : UInt8) (j : Nat) :
    -1 ≤ toothDigit j x ∧ toothDigit j x ≤ 1 := by
  have := digitBit_bounds x j
  unfold toothDigit digitSign
  split <;> omega

theorem toothDigit_of_pos {x : UInt8} (h : x.toNat.testBit 7 = false) (j : Nat) :
    toothDigit j x = digitBit x j := by
  simp [toothDigit, digitSign, h]

theorem signed_teeth (j : Nat) (l : List UInt8) : Digits.Signed (l.map (toothDigit j)) := by
  intro s hs
  obtain ⟨x, -, rfl⟩ := List.mem_map.mp hs
  exact toothDigit_bounds x j

/-- What the last bit says is what the subtraction makes of it. -/
theorem adjust_eq (x : UInt8) :
    1 - (x &&& 0x01) = if x.toNat.testBit 0 then 0 else 1 := by
  have h : x &&& 1 = if x.toNat.testBit 0 then 1 else 0 := by
    rw [← UInt8.toNat_inj, UInt8.toNat_and]
    show x.toNat &&& 1 = _
    rw [Nat.and_one_is_mod, Nat.testBit_zero]
    rcases Nat.mod_two_eq_zero_or_one x.toNat with h | h <;> simp [h]
  rw [h]
  split <;> rfl

theorem testBit_signed {x : UInt8} (b : Bool) (j : Nat) :
    (x ||| (if b then 0 else 1 : UInt8) <<< 7).toNat.testBit j =
      (x.toNat.testBit j || (!b && j = 7)) := by
  cases b with
  | true => simp
  | false =>
      rw [UInt8.toNat_or, Nat.testBit_or]
      show (_ || Nat.testBit (2 ^ 7) j) = _
      rw [Nat.testBit_two_pow]
      simp [eq_comm]

/-- The three results of a turn, bit for bit: `b` is whether the digit is odd
once it took the carry in. -/
theorem combStep_testBit (prev c x : UInt8) {b : Bool}
    (hb : b = (x.toNat.testBit 0 ^^ c.toNat.testBit 0)) (j : Nat) :
    let r := combStep prev c x
    r.1.toNat.testBit j = (prev.toNat.testBit j || (!b && j = 7)) ∧
    r.2.1.toNat.testBit j = (x.toNat.testBit j && c.toNat.testBit j ||
      (x.toNat.testBit j ^^ c.toNat.testBit j) && (!b && prev.toNat.testBit j)) ∧
    r.2.2.toNat.testBit j =
      ((x.toNat.testBit j ^^ c.toNat.testBit j) ^^ (!b && prev.toNat.testBit j)) := by
  have hodd : (x ^^^ c).toNat.testBit 0 = b := by
    rw [UInt8.toNat_xor, Nat.testBit_xor, hb]
  have hadj : prev * (1 - ((x ^^^ c) &&& 0x01)) = if b then 0 else prev := by
    rw [adjust_eq, hodd]
    cases b <;> simp
  simp only [combStep]
  refine ⟨?_, ?_, ?_⟩
  · rw [adjust_eq, hodd, testBit_signed]
  · rw [hadj]
    simp only [UInt8.toNat_or, UInt8.toNat_and, UInt8.toNat_xor, Nat.testBit_or,
      Nat.testBit_and, Nat.testBit_xor]
    cases b <;> simp
  · rw [hadj]
    simp only [UInt8.toNat_xor, Nat.testBit_xor]
    cases b <;> simp

/-- The sign bit is not set. -/
def Unsigned (x : UInt8) : Prop := x.toNat.testBit 7 = false

/-- What a turn leaves is fit for the next one: the sign is on the digit that is
done, and the digit it goes on with is odd. -/
theorem combStep_unsigned {prev c x : UInt8} (hp : Unsigned prev) (hc : Unsigned c)
    (hx : Unsigned x) (hodd : prev.toNat.testBit 0 = true) :
    Unsigned (combStep prev c x).2.1 ∧ Unsigned (combStep prev c x).2.2 ∧
      (combStep prev c x).2.2.toNat.testBit 0 = true := by
  have hp : prev.toNat.testBit 7 = false := hp
  have hc : c.toNat.testBit 7 = false := hc
  have hx : x.toNat.testBit 7 = false := hx
  obtain ⟨-, hc7, hx7⟩ := combStep_testBit prev c x rfl 7
  obtain ⟨-, -, hx0⟩ := combStep_testBit prev c x rfl 0
  refine ⟨?_, ?_, ?_⟩
  · rw [Unsigned, hc7, hp, hc, hx]
    simp
  · rw [Unsigned, hx7, hp, hc, hx]
    simp
  · rw [hx0, hodd]
    cases x.toNat.testBit 0 <;> cases c.toNat.testBit 0 <;> rfl

/-- A turn keeps what each tooth holds: the digit before stands for one, the
digit and the carry for two, the new carry for four. -/
theorem combStep_value {prev c x : UInt8} (hp : Unsigned prev) {j : Nat} (hj : j < 7) :
    toothDigit j (combStep prev c x).1 + 2 * digitBit (combStep prev c x).2.2 j +
        4 * digitBit (combStep prev c x).2.1 j =
      digitBit prev j + 2 * (digitBit x j + digitBit c j) := by
  have hp : prev.toNat.testBit 7 = false := hp
  have hj7 : (j = 7) = False := eq_false (by omega)
  obtain ⟨hsign, -, -⟩ := combStep_testBit prev c x rfl 7
  obtain ⟨hprev, hcarry, hdigit⟩ :=
    combStep_testBit prev c x rfl j
  simp only [toothDigit, digitSign, digitBit, hsign, hprev, hcarry, hdigit, hp, hj7]
  cases (x.toNat.testBit 0 ^^ c.toNat.testBit 0) <;> cases x.toNat.testBit j <;>
    cases c.toNat.testBit j <;> cases prev.toNat.testBit j <;> simp

/-! ## The loop -/

theorem combLoop_length (prev c : UInt8) (l : List UInt8) :
    (combLoop prev c l).length = l.length + 1 := by
  induction l generalizing prev c with
  | nil => rfl
  | cons x l ih => rw [combLoop, List.length_cons, ih, List.length_cons]

/-- The last digit is the only one that is known to be above zero. -/
theorem combLoop_concat {prev c : UInt8} {l : List UInt8} (hp : Unsigned prev)
    (hc : Unsigned c) (hodd : prev.toNat.testBit 0 = true) (hl : ∀ x ∈ l, Unsigned x) :
    ∃ front last, combLoop prev c l = front ++ [last] ∧ Unsigned last := by
  induction l generalizing prev c with
  | nil => exact ⟨[], prev, rfl, hp⟩
  | cons x l ih =>
      obtain ⟨hc', hx', hodd'⟩ := combStep_unsigned hp hc (hl x List.mem_cons_self) hodd
      obtain ⟨front, last, heq, hlast⟩ :=
        ih hx' hc' hodd' fun y hy => hl y (List.mem_cons_of_mem _ hy)
      exact ⟨(combStep prev c x).1 :: front, last, by rw [combLoop, heq, List.cons_append],
        hlast⟩

theorem combLoop_odd {prev c : UInt8} {l : List UInt8} (hp : Unsigned prev)
    (hc : Unsigned c) (hodd : prev.toNat.testBit 0 = true) (hl : ∀ x ∈ l, Unsigned x) :
    ∀ y ∈ combLoop prev c l, y.toNat.testBit 0 = true := by
  induction l generalizing prev c with
  | nil =>
      intro y hy
      rw [List.mem_singleton.mp hy]
      exact hodd
  | cons x l ih =>
      obtain ⟨hc', hx', hodd'⟩ := combStep_unsigned hp hc (hl x List.mem_cons_self) hodd
      intro y hy
      rcases List.mem_cons.mp hy with rfl | hy
      · rw [(combStep_testBit prev c x rfl 0).1, hodd]
        rfl
      · exact ih hx' hc' hodd' (fun z hz => hl z (List.mem_cons_of_mem _ hz)) y hy

/-- A tooth no bit of which is set stays so. -/
theorem combLoop_testBit {prev c : UInt8} {l : List UInt8} {j : Nat} (hj : j < 7)
    (hp : prev.toNat.testBit j = false) (hc : c.toNat.testBit j = false)
    (hl : ∀ x ∈ l, x.toNat.testBit j = false) :
    ∀ y ∈ combLoop prev c l, y.toNat.testBit j = false := by
  induction l generalizing prev c with
  | nil =>
      intro y hy
      rw [List.mem_singleton.mp hy]
      exact hp
  | cons x l ih =>
      have hx := hl x List.mem_cons_self
      obtain ⟨hprev, hcarry, hdigit⟩ :=
        combStep_testBit prev c x rfl j
      intro y hy
      rcases List.mem_cons.mp hy with rfl | hy
      · rw [hprev, hp]
        simp
        omega
      · refine ih ?_ ?_ (fun z hz => hl z (List.mem_cons_of_mem _ hz)) y hy
        · rw [hdigit, hx, hc, hp]
          simp
        · rw [hcarry, hx, hc, hp]
          simp

/-- The loop keeps what each tooth holds, up to the carry it drops at the end. -/
theorem combLoop_value {prev c : UInt8} {l : List UInt8} {j : Nat} (hj : j < 7)
    (hp : Unsigned prev) (hc : Unsigned c) (hodd : prev.toNat.testBit 0 = true)
    (hl : ∀ x ∈ l, Unsigned x) :
    ∃ k : Int, 0 ≤ k ∧ tooth j (combLoop prev c l) + 2 ^ (l.length + 1) * k =
      digitBit prev j + 2 * (digitBit c j + Digits.value (l.map (digitBit · j))) := by
  induction l generalizing prev c with
  | nil =>
      refine ⟨digitBit c j, (digitBit_bounds c j).1, ?_⟩
      simp [combLoop, tooth, toothDigit_of_pos hp]
  | cons x l ih =>
      obtain ⟨hc', hx', hodd'⟩ := combStep_unsigned hp hc (hl x List.mem_cons_self) hodd
      obtain ⟨k, hk, heq⟩ := ih hx' hc' hodd' fun y hy => hl y (List.mem_cons_of_mem _ hy)
      refine ⟨k, hk, ?_⟩
      have hstep := combStep_value (c := c) (x := x) hp hj
      rw [tooth] at heq
      rw [combLoop, tooth, List.map_cons, Digits.value_cons, List.map_cons,
        Digits.value_cons, List.length_cons, pow_succ]
      linarith

/-! ## The digits as they are laid out -/

theorem combDigit_testBit {w : Nat} (hw : w ≤ 7) (d : Nat) (m : Int) (i j : Nat) :
    (combDigit d w m i).toNat.testBit j =
      (decide (j < w) && m.natAbs.testBit (i + d * j)) := by
  unfold combDigit
  induction w with
  | zero => simp
  | succ w ih =>
      rw [List.range_succ, List.foldl_append, List.foldl_cons, List.foldl_nil,
        UInt8.toNat_or, Nat.testBit_or, ih (by omega)]
      have hbit : (UInt8.ofNat (mpiGetBit m (i + d * w) <<< w)).toNat.testBit j =
          (m.natAbs.testBit (i + d * w) && decide (w = j)) := by
        rw [UInt8.toNat_ofNat', mpiGetBit, Nat.shiftLeft_eq]
        cases m.natAbs.testBit (i + d * w) with
        | false => simp
        | true =>
            have hlt : 2 ^ w < 2 ^ 8 := Nat.pow_lt_pow_right (by omega) (by omega)
            rw [Bool.toNat_true, Nat.one_mul, Nat.mod_eq_of_lt hlt, Nat.testBit_two_pow]
            rfl
      rw [hbit]
      rcases Nat.lt_trichotomy j w with h | rfl | h
      · simp [h, Nat.lt_succ_of_lt h, Nat.ne_of_gt h]
      · simp
      · simp [Nat.not_lt.mpr (Nat.le_of_lt h), Nat.not_lt.mpr (Nat.succ_le_of_lt h),
          Nat.ne_of_lt h]

/-- Consecutive bits are the digits of the number they make. -/
theorem value_bits (n o d : Nat) :
    Digits.value ((List.range d).map fun i => if n.testBit (i + o) then 1 else 0) =
      ((n / 2 ^ o % 2 ^ d : Nat) : Int) := by
  induction d generalizing o with
  | zero => simp [Nat.mod_one]
  | succ d ih =>
      rw [List.range_succ_eq_map, List.map_cons, List.map_map, Digits.value_cons]
      have hfun : ((fun i => if n.testBit (i + o) then (1 : Int) else 0) ∘ Nat.succ) =
          fun i => if n.testBit (i + (o + 1)) then 1 else 0 := by
        funext i
        simp only [Function.comp, Nat.succ_eq_add_one, Nat.add_assoc, Nat.add_comm 1 o]
      have hdiv : n / 2 ^ (o + 1) = n / 2 ^ o / 2 := by
        rw [Nat.pow_succ, Nat.div_div_eq_div_mul]
      rw [hfun, ih, hdiv, Nat.zero_add, Nat.testBit_eq_decide_div_mod_eq,
        Nat.pow_succ' (n := d), Nat.mod_mul]
      rcases Nat.mod_two_eq_zero_or_one (n / 2 ^ o) with h | h <;> simp [h]

/-- The pieces of `d` bits put together again. -/
theorem sum_pieces (n d w : Nat) :
    ∑ j ∈ Finset.range w, 2 ^ (d * j) * (n / 2 ^ (d * j) % 2 ^ d) = n % 2 ^ (d * w) := by
  induction w with
  | zero => simp [Nat.mod_one]
  | succ w ih => rw [Finset.sum_range_succ, ih, Nat.mul_succ, Nat.pow_add, Nat.mod_mul]

/-! ## What the digits make -/

/-- The factor a digit stands for: tooth `j` weighs `2 ^ (d j)`. -/
def combFactor (d : Nat) (x : UInt8) : Int :=
  ∑ j ∈ Finset.range 7, 2 ^ (d * j) * toothDigit j x

/-- The digits before the second loop: those of the comb, and a zero. -/
def combDigits (d w : Nat) (m : Int) : List UInt8 :=
  (List.range d).map (combDigit d w m) ++ [0]

/-- What is left of the digits from `i` on, tooth by tooth. -/
theorem value_drop_combFactor (l : List UInt8) (i : Nat) :
    Digits.value ((l.map (combFactor d)).drop i) =
      ∑ j ∈ Finset.range 7, 2 ^ (d * j) * Digits.value ((l.map (toothDigit j)).drop i) := by
  simp only [← List.map_drop]
  exact Digits.value_map_sum _ _ _ _

/-- The calling conventions of `ecp_comb_fixed`. -/
structure CombCall (d w : Nat) (m : Int) : Prop where
  teeth : 2 ≤ w
  width : w ≤ 7
  odd : m.natAbs.testBit 0 = true
  nonneg : 0 ≤ m
  bits : mpiMsb m ≤ w * d

theorem CombCall.lt {d w : Nat} {m : Int} (h : CombCall d w m) : m < 2 ^ (d * w) := by
  have hlt := Nat.lt_of_lt_of_le (lt_pow_mpiMsb m)
    (Nat.pow_le_pow_right (by decide) h.bits)
  rw [Nat.mul_comm]
  zify at hlt
  rwa [abs_of_nonneg h.nonneg] at hlt

theorem CombCall.spacing {d w : Nat} {m : Int} (h : CombCall d w m) : 0 < d := by
  rcases Nat.eq_zero_or_pos d with rfl | hd
  · have hodd := h.odd
    have hlt := h.lt
    have h0 := h.nonneg
    rw [Nat.zero_mul, pow_zero] at hlt
    rw [show m = 0 by omega] at hodd
    cases hodd
  · exact hd

variable {d w : Nat} {m : Int}

theorem combDigits_unsigned (hw : w ≤ 7) : ∀ x ∈ combDigits d w m, Unsigned x := by
  intro x hx
  rcases List.mem_append.mp hx with hx | hx
  · obtain ⟨i, -, rfl⟩ := List.mem_map.mp hx
    rw [Unsigned, combDigit_testBit hw, decide_eq_false (by omega), Bool.false_and]
  · rw [List.mem_singleton.mp hx]
    rfl

/-- What the bits on a tooth are before the loop. -/
theorem combDigits_value (hw : w ≤ 7) (j : Nat) :
    Digits.value ((combDigits d w m).map (digitBit · j)) =
      if j < w then ((m.natAbs / 2 ^ (d * j) % 2 ^ d : Nat) : Int) else 0 := by
  have hbits : (List.range d).map (fun i => digitBit (combDigit d w m i) j) =
      (List.range d).map fun i => if j < w ∧ m.natAbs.testBit (i + d * j) then 1 else 0 := by
    refine List.map_congr_left fun i _ => ?_
    rw [digitBit, combDigit_testBit hw]
    simp
  rw [combDigits, List.map_append, List.map_map, Digits.value_append]
  have hzero : Digits.value ([(0 : UInt8)].map (digitBit · j)) = 0 := by simp [digitBit]
  rw [hzero, mul_zero, add_zero]
  show Digits.value ((List.range d).map fun i => digitBit (combDigit d w m i) j) = _
  rw [hbits]
  split
  · next hj =>
      simp only [hj, true_and]
      exact value_bits _ _ _
  · next hj =>
      refine Digits.value_eq_zero fun s hs => ?_
      obtain ⟨i, -, rfl⟩ := List.mem_map.mp hs
      exact if_neg fun h => hj h.1

theorem combDigits_cons (h : CombCall d w m) :
    ∃ x l, combDigits d w m = x :: l ∧ l.length = d ∧ x.toNat.testBit 0 = true := by
  obtain ⟨e, rfl⟩ : ∃ e, d = e + 1 := ⟨d - 1, by have := h.spacing; omega⟩
  refine ⟨combDigit (e + 1) w m 0,
    ((List.range e).map Nat.succ).map (combDigit (e + 1) w m) ++ [0], ?_, by simp, ?_⟩
  · rw [combDigits, List.range_succ_eq_map, List.map_cons, List.cons_append]
  · rw [combDigit_testBit h.width, Nat.mul_zero, Nat.add_zero, h.odd,
      decide_eq_true (by have := h.teeth; omega)]
    rfl

/-- Every digit is odd. -/
theorem ecpCombFixed_odd (h : CombCall d w m) : ∀ x ∈ ecpCombFixed d w m, x.toNat.testBit 0 = true := by
  obtain ⟨x, l, heq, -, hodd⟩ := combDigits_cons h
  have hun := combDigits_unsigned h.width (d := d) (m := m)
  rw [heq] at hun
  have hfix : ecpCombFixed d w m = combLoop x 0 l := by
    rw [ecpCombFixed, ← combDigits, heq]
  rw [hfix]
  exact combLoop_odd (hun x List.mem_cons_self) rfl hodd
    fun y hy => hun y (List.mem_cons_of_mem _ hy)

/-- Each tooth still holds its piece of the factor: the carry that is dropped is
nothing. -/
theorem ecpCombFixed_tooth (h : CombCall d w m) {j : Nat} (hj : j < 7) :
    tooth j (ecpCombFixed d w m) =
      if j < w then ((m.natAbs / 2 ^ (d * j) % 2 ^ d : Nat) : Int) else 0 := by
  obtain ⟨x, l, heq, hlen, hodd⟩ := combDigits_cons h
  have hun := combDigits_unsigned h.width (d := d) (m := m)
  have hval := combDigits_value h.width (d := d) (m := m) j
  rw [heq] at hun
  rw [heq, List.map_cons, Digits.value_cons] at hval
  have hfix : ecpCombFixed d w m = combLoop x 0 l := by
    rw [ecpCombFixed, ← combDigits, heq]
  have hx := hun x List.mem_cons_self
  have hl : ∀ y ∈ l, Unsigned y := fun y hy => hun y (List.mem_cons_of_mem _ hy)
  obtain ⟨k, hk, hloop⟩ := combLoop_value (c := 0) hj hx rfl hodd hl
  obtain ⟨front, last, hsplit, hlast⟩ := combLoop_concat (c := 0) hx rfl hodd hl
  have hc0 : digitBit 0 j = 0 := by simp [digitBit]
  rw [hlen, hc0, zero_add, hval] at hloop
  -- the last digit is not below zero, and no tooth holds `2 ^ d`
  have hfront : front.length = d := by
    have := combLoop_length x 0 l
    rw [hsplit, hlen] at this
    simpa using this
  have hlow : -2 ^ d < tooth j (combLoop x 0 l) := by
    have hmap : (front.map (toothDigit j)).length = d := by rw [List.length_map, hfront]
    rw [hsplit, tooth, List.map_append, ← hmap]
    refine Digits.lt_value_concat (signed_teeth j front) ?_
    rw [toothDigit_of_pos hlast]
    exact (digitBit_bounds last j).1
  have hhigh : (if j < w then ((m.natAbs / 2 ^ (d * j) % 2 ^ d : Nat) : Int) else 0) <
      2 ^ d := by
    split
    · exact_mod_cast Nat.mod_lt _ (by positivity)
    · positivity
  have hk0 : k = 0 := by
    have hpow : (0 : Int) < 2 ^ d := by positivity
    rw [pow_succ] at hloop
    nlinarith
  rw [hfix, ← hloop, hk0, mul_zero, add_zero]

theorem ecpCombFixed_length (h : CombCall d w m) : (ecpCombFixed d w m).length = d + 1 := by
  obtain ⟨x, l, heq, hlen, -⟩ := combDigits_cons h
  rw [ecpCombFixed, ← combDigits, heq]
  exact (combLoop_length x 0 l).trans (by rw [hlen])

/-- The digits make the factor. -/
theorem ecpCombFixed_value (h : CombCall d w m) :
    Digits.value ((ecpCombFixed d w m).map (combFactor d)) = m := by
  have hsum := value_drop_combFactor (d := d) (ecpCombFixed d w m) 0
  simp only [List.drop_zero] at hsum
  have hpiece : ∀ j ∈ Finset.range 7,
      (2 : Int) ^ (d * j) * Digits.value ((ecpCombFixed d w m).map (toothDigit j)) =
        if j ∈ Finset.range w then
          ((2 ^ (d * j) * (m.natAbs / 2 ^ (d * j) % 2 ^ d) : Nat) : Int) else 0 := by
    intro j hj
    have htooth := ecpCombFixed_tooth h (Finset.mem_range.mp hj)
    rw [tooth] at htooth
    rw [htooth]
    simp only [Finset.mem_range]
    split
    · push_cast
      ring
    · simp
  have hsub : Finset.range 7 ∩ Finset.range w = Finset.range w :=
    Finset.inter_eq_right.mpr (Finset.range_subset_range.mpr h.width)
  rw [hsum, Finset.sum_congr rfl hpiece, Finset.sum_ite_mem, hsub, ← Nat.cast_sum,
    sum_pieces, Nat.mod_eq_of_lt]
  · exact Int.natAbs_of_nonneg h.nonneg
  · zify
    rw [abs_of_nonneg h.nonneg]
    exact h.lt

/-- No tail of the digits is zero, and none makes more than the factor. -/
theorem ecpCombFixed_drop (h : CombCall d w m) {i : Nat} (hi : i ≤ d) :
    0 < Digits.value (((ecpCombFixed d w m).map (combFactor d)).drop i) ∧
      Digits.value (((ecpCombFixed d w m).map (combFactor d)).drop i) ≤ m := by
  have htail : ∀ j ∈ Finset.range 7,
      0 ≤ Digits.value (((ecpCombFixed d w m).map (toothDigit j)).drop i) ∧
      Digits.value (((ecpCombFixed d w m).map (toothDigit j)).drop i) ≤
        Digits.value ((ecpCombFixed d w m).map (toothDigit j)) := by
    intro j hj
    refine Digits.value_drop_bounds (signed_teeth j _) ?_ i
    have htooth := ecpCombFixed_tooth h (Finset.mem_range.mp hj)
    rw [tooth] at htooth
    rw [htooth]
    split <;> positivity
  have htotal := value_drop_combFactor (d := d) (ecpCombFixed d w m) 0
  simp only [List.drop_zero] at htotal
  rw [ecpCombFixed_value h] at htotal
  rw [value_drop_combFactor]
  constructor
  · -- tooth 0 is odd from every digit on
    refine Finset.sum_pos' (fun j hj => mul_nonneg (by positivity) (htail j hj).1)
      ⟨0, by simp, ?_⟩
    rw [Nat.mul_zero, pow_zero, one_mul]
    refine lt_of_le_of_ne (htail 0 (by simp)).1 fun hzero => ?_
    have hlen := ecpCombFixed_length h
    have hodd := ecpCombFixed_odd h
    rw [← List.map_drop, List.drop_eq_getElem_cons (by omega), List.map_cons] at hzero
    have hx := hodd (ecpCombFixed d w m)[i] (List.getElem_mem _)
    have hvodd := Digits.odd_value (l := ((ecpCombFixed d w m).drop (i + 1)).map
      (toothDigit 0)) (s := toothDigit 0 (ecpCombFixed d w m)[i]) (by
        rw [toothDigit, digitSign, digitBit, if_pos hx]
        split <;> decide)
    rw [← hzero] at hvodd
    exact absurd hvodd (by decide)
  · refine le_trans (Finset.sum_le_sum fun j hj => ?_) htotal.ge
    exact mul_le_mul_of_nonneg_left (htail j hj).2 (by positivity)

/-- Where a digit is in the table: the sign bit is ignored, and the last bit is
always set. -/
def combIndex (x : UInt8) : Nat := ((x &&& 0x7f) >>> 1).toNat

theorem combIndex_testBit (x : UInt8) (j : Nat) :
    (combIndex x).testBit j = (decide (j < 6) && x.toNat.testBit (j + 1)) := by
  rw [combIndex, UInt8.toNat_shiftRight, UInt8.toNat_and]
  show Nat.testBit ((x.toNat &&& (2 ^ 7 - 1)) >>> 1) j = _
  rw [Nat.testBit_shiftRight, Nat.testBit_and, Nat.testBit_two_pow_sub_one,
    Nat.add_comm 1 j, Bool.and_comm]
  simp [Nat.lt_succ_iff]

/-- A digit has no bit past the teeth. -/
theorem combIndex_lt (h : CombCall d w m) :
    ∀ x ∈ ecpCombFixed d w m, combIndex x < 2 ^ (w - 1) := by
  intro x hx
  refine Nat.lt_pow_two_of_testBit _ fun j hj => ?_
  rw [combIndex_testBit]
  by_cases hj6 : j < 6
  · obtain ⟨y, l, heq, -, -⟩ := combDigits_cons h
    have hbits : ∀ z ∈ y :: l, z.toNat.testBit (j + 1) = false := by
      intro z hz
      rw [← heq] at hz
      rcases List.mem_append.mp hz with hz | hz
      · obtain ⟨i, -, rfl⟩ := List.mem_map.mp hz
        rw [combDigit_testBit h.width, decide_eq_false (by omega), Bool.false_and]
      · rw [List.mem_singleton.mp hz]
        exact Nat.zero_testBit _
    rw [ecpCombFixed, ← combDigits, heq] at hx
    rw [combLoop_testBit (c := 0) (by omega) (hbits y List.mem_cons_self)
      (Nat.zero_testBit _) (fun z hz => hbits z (List.mem_cons_of_mem _ hz)) x hx, Bool.and_false]
  · rw [decide_eq_false hj6, Bool.false_and]

/-- The multiple of the point at a place of the table: bit `k` of the place
weighs `2 ^ (d (k + 1))`. -/
def combMultiple (d i : Nat) : Nat :=
  1 + ∑ k ∈ Finset.range 6, if i.testBit k then 2 ^ (d * (k + 1)) else 0

/-- An odd digit stands for the multiple at its place, with its sign. -/
theorem combFactor_eq {x : UInt8} (hx : x.toNat.testBit 0 = true) :
    combFactor d x = digitSign x * combMultiple d (combIndex x) := by
  rw [combFactor, Finset.sum_range_succ', combMultiple, Nat.cast_add, Nat.cast_sum, mul_add,
    Finset.mul_sum, add_comm, Nat.mul_zero, pow_zero, one_mul, toothDigit, digitBit, if_pos hx,
    Nat.cast_one]
  congr 1
  refine Finset.sum_congr rfl fun k hk => ?_
  rw [toothDigit, digitBit, combIndex_testBit, decide_eq_true (Finset.mem_range.mp hk),
    Bool.true_and]
  split
  · push_cast
    ring
  · simp

end LibSmoke
