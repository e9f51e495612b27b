import LibSmoke.Sban.Comb
import LibSmoke.Sban.Curve

/-!
# The table of the comb

`ecp_precompute_comb` makes the odd multiples of a point the digits of the comb
stand for: the point doubled `d` times for each tooth, then the sums of these,
every sum from one that is there already. It normalizes twice, all the points at
once with one inverse (`ecp_normalize_jac_many`), and gives the memory of their
`Z` back. A `Z` that is not there is one where the point is the second summand,
and zero everywhere else.

The inverse is that of the product of all the `Z`, so that no point of the table
may be zero. Where that holds, the table is right (`combTable_holds`).
-/

namespace LibSmoke

/-- A point of the table; `Z` is `none` once its memory is given back. -/
structure CombPoint where
  X : Int
  Y : Int
  Z : Option Int
  deriving DecidableEq, Repr

namespace CombPoint

/-- As `ecp_point_init` leaves it. -/
def init : CombPoint := ⟨0, 0, none⟩

def ofPoint (p : EcpPoint) : CombPoint := ⟨p.X, p.Y, some p.Z⟩

/-- As it is read: a `Z` that is not there is zero. -/
def jac (t : CombPoint) : EcpPoint := ⟨t.X, t.Y, t.Z.getD 0⟩

/-- As the second summand of a mixed addition is read. -/
def mixed (t : CombPoint) : EcpPoint := ⟨t.X, t.Y, t.Z.getD 1⟩

@[simp] theorem jac_ofPoint (p : EcpPoint) : (ofPoint p).jac = p := rfl

@[simp] theorem mixed_ofPoint (p : EcpPoint) : (ofPoint p).mixed = p := rfl

end CombPoint

namespace EcpGroup

variable (g : EcpGroup)

/-! ## Operations on points of the table -/

def combDouble (t : CombPoint) : CombPoint := .ofPoint (g.ecpDoubleJac t.jac)

/-- `ecp_add_mixed`: in the first two cases the other point is copied as it is. -/
def combAddMixed (p q : CombPoint) : Except SbanError CombPoint :=
  if p.jac.Z = 0 then .ok q
  else if q.mixed.Z = 0 then .ok p
  else do
    let r ← g.ecpAddMixed p.jac q.mixed
    .ok (.ofPoint r)

def combNormalizeJac (t : CombPoint) : Except SbanError CombPoint :=
  if t.jac.Z = 0 then .ok t
  else do
    let r ← g.ecpNormalizeJac t.jac
    .ok (.ofPoint r)

/-- The products of the first `Z`s, up to each. No product of coordinates in the table is
negative, and `MOD_MUL` is the remainder. -/
def prefixProducts : Int → List CombPoint → List Int
  | _, [] => []
  | c, t :: ts => (c * t.jac.Z % g.P) :: prefixProducts (c * t.jac.Z % g.P) ts

theorem prefixProducts_length (c : Int) (ts : List CombPoint) :
    (g.prefixProducts c ts).length = ts.length := by
  induction ts generalizing c with
  | nil => rfl
  | cons t ts ih => rw [prefixProducts, List.length_cons, ih, List.length_cons]

/-- `1 / Z` is known: the affine coordinates, without `Z`. -/
def combScale (Zi : Int) (t : CombPoint) : CombPoint :=
  let ZZi := Zi * Zi % g.P
  ⟨t.X * ZZi % g.P, t.Y * ZZi % g.P * Zi % g.P, none⟩

/-- The second loop of `ecp_normalize_jac_many`, from the last point to the
first. With each point stands the product of the `Z`s before it, `u` is one over
the product of those up to it. -/
def normalizeBack (u : Int) : List (Option Int × CombPoint) → List CombPoint
  | [] => []
  | (none, t) :: _ => [g.combScale u t]
  | (some c, t) :: ts =>
      g.combScale (u * c % g.P) t :: normalizeBack (u * t.jac.Z % g.P) ts

def ecpNormalizeJacMany : List CombPoint → Except SbanError (List CombPoint)
  | [] => .error .pastBuffer
  | [t] => do
      let t ← g.combNormalizeJac t
      .ok [t]
  | t :: ts => do
      let c := t.jac.Z :: g.prefixProducts t.jac.Z ts
      let u ← mpiInvMod (c.getLastD 0) g.P
      .ok (g.normalizeBack u ((none :: c.map some).zip (t :: ts)).reverse).reverse

/-! ## The table -/

/-- Normalizes the points at some places of the table. -/
def normalizeAt (T : List CombPoint) (TT : List Nat) :
    Except SbanError (List CombPoint) := do
  let ts ← g.ecpNormalizeJacMany (TT.map fun i => T.getD i .init)
  .ok ((TT.zip ts).foldl (fun T it => T.set it.1 it.2) T)

/-- `T[2 ^ l]` is `T[2 ^ l / 2]` doubled `d` times. -/
def combPowers (d w : Nat) (T : List CombPoint) : List CombPoint :=
  (List.range (w - 1)).foldl
    (fun T l => T.set (2 ^ l) (g.combDouble^[d] (T.getD (2 ^ l >>> 1) .init))) T

/-- `T[i + j] = T[j] + T[i]` for `j` down to zero, where `T[i]` itself is. -/
def combSumsAt (i : Nat) (T : List CombPoint) : Except SbanError (List CombPoint) :=
  (List.range i).reverse.foldlM
    (fun T j => do
      let t ← g.combAddMixed (T.getD j .init) (T.getD i .init)
      .ok (T.set (i + j) t)) T

def combSums (w : Nat) (T : List CombPoint) : Except SbanError (List CombPoint) :=
  (List.range (w - 1)).foldlM (fun T l => g.combSumsAt (2 ^ l) T) T

/-- The places of the sums, in the order they are written. -/
def combPlaces (n : Nat) : List Nat :=
  (List.range n).flatMap fun l => (List.range (2 ^ l)).reverse.map (2 ^ l + ·)

def ecpPrecomputeComb (d w : Nat) (P : EcpPoint) : Except SbanError (List CombPoint) := do
  let T := (List.replicate (2 ^ (w - 1)) CombPoint.init).set 0 (.ofPoint P)
  let T := g.combPowers d w T
  let T ← g.normalizeAt T ((List.range (w - 1)).map (2 ^ ·))
  let T ← g.combSums w T
  g.normalizeAt T (combPlaces (w - 1))

/-! ## The operations are those of the group -/

variable {g} [hP : Fact g.P.Prime] {Q Q' : g.curve.Point} {p q t : CombPoint}

/-- The affine point, in either way of keeping it. -/
def Keeps (Q : g.curve.Point) (t : CombPoint) : Prop :=
  Q ≠ 0 ∧ t.mixed = affine Q

theorem Keeps.holds (h : Keeps Q t) : Holds Q t.mixed := by
  rw [h.2]
  exact .affine Q

theorem affine_Z (hQ : Q ≠ 0) : (affine Q).Z = 1 := by
  cases Q with
  | zero => exact absurd rfl hQ
  | some x y hxy => rfl

theorem Keeps.mixed_Z (h : Keeps Q t) : t.mixed.Z = 1 := by
  rw [h.2]
  exact affine_Z h.1

theorem combDouble_holds (h2 : g.P ≠ 2) (h : Holds Q t.jac) :
    Holds (Q + Q) (g.combDouble t).jac :=
  h.double h2

theorem combDouble_iterate (h2 : g.P ≠ 2) (h : Holds Q t.jac) (d : Nat) :
    Holds (2 ^ d • Q) (g.combDouble^[d] t).jac := by
  induction d with
  | zero =>
      rw [pow_zero, one_smul]
      exact h
  | succ d ih =>
      rw [Function.iterate_succ_apply', pow_succ, mul_comm, mul_smul, two_smul]
      exact combDouble_holds h2 ih

/-- No special case is met where the first summand is not zero. -/
theorem combAddMixed_holds (h2 : g.P ≠ 2) (hQ : Q ≠ 0) (h : Holds Q p.jac)
    (h' : Keeps Q' q) : ∃ r, g.combAddMixed p q = .ok r ∧ Holds (Q + Q') r.jac := by
  have hp : p.jac.Z ≠ 0 := fun hZ => hQ (h.zero_iff.mpr hZ)
  have hq : q.mixed.Z = 1 := h'.mixed_Z
  obtain ⟨r, hr, hholds⟩ := h.addMixed h2 h'.holds (.inr hq)
  refine ⟨.ofPoint r, ?_, hholds⟩
  rw [combAddMixed, if_neg hp, if_neg (by rw [hq]; decide), hr]
  rfl

theorem combNormalizeJac_eq (hQ : Q ≠ 0) (h : Holds Q t.jac) :
    g.combNormalizeJac t = .ok (.ofPoint (affine Q)) := by
  have hZ : t.jac.Z ≠ 0 := fun hZ => hQ (h.zero_iff.mpr hZ)
  rw [combNormalizeJac, if_neg hZ, h.normalize, if_neg hQ]
  rfl

/-! ### All at once -/

/-- The product of the `Z`s, in the field. -/
def zProduct (g : EcpGroup) (l : List CombPoint) : ZMod g.P :=
  (l.map fun t => (t.jac.Z : ZMod g.P)).prod

/-- With each point stands the product of the `Z`s of those after it. -/
def Suffixed (g : EcpGroup) : List (Option Int × CombPoint) → Prop
  | [] => True
  | (none, _) :: ts => ts = []
  | (some c, _) :: ts => (c : ZMod g.P) = zProduct g (ts.map Prod.snd) ∧ Suffixed g ts

theorem prefixProducts_suffixed {c : Int} {ts : List CombPoint}
    (done : List (Option Int × CombPoint)) (hdone : Suffixed g done)
    (hc : (c : ZMod g.P) = zProduct g (done.map Prod.snd)) :
    Suffixed g ((((c :: g.prefixProducts c ts).map some).zip ts).reverse ++ done) := by
  induction ts generalizing c done with
  | nil => simpa using hdone
  | cons t ts ih =>
      rw [prefixProducts, List.map_cons, List.zip_cons_cons, List.reverse_cons,
        List.append_assoc]
      refine ih _ ⟨hc, hdone⟩ ?_
      simp only [zProduct, List.map_cons, List.prod_cons, ZMod.intCast_mod, Int.cast_mul,
        hc, List.cons_append, List.nil_append]
      exact mul_comm _ _

theorem prefixProducts_last (c : Int) (ts : List CombPoint) :
    (((c :: g.prefixProducts c ts).getLastD 0 : Int) : ZMod g.P) = c * zProduct g ts := by
  induction ts generalizing c with
  | nil => simp [prefixProducts, zProduct]
  | cons t ts ih =>
      have h := ih (c * t.jac.Z % g.P)
      rw [ZMod.intCast_mod, Int.cast_mul] at h
      simp only [prefixProducts, List.getLastD_cons] at h ⊢
      rw [h]
      simp only [zProduct, List.map_cons, List.prod_cons]
      ring

theorem normalizeBack_keeps {l : List (Option Int × CombPoint)} {Qs : List g.curve.Point}
    {u : Int} (hl : Suffixed g l)
    (hQs : List.Forall₂ (fun Q x => Q ≠ 0 ∧ Holds Q x.2.jac) Qs l)
    (hu : (u : ZMod g.P) * zProduct g (l.map Prod.snd) = 1) :
    List.Forall₂ Keeps Qs (g.normalizeBack u l) := by
  induction hQs generalizing u with
  | nil => exact .nil
  | @cons Q x Qs l hQ hrest ih =>
      obtain ⟨c, t⟩ := x
      obtain ⟨hQ, hholds⟩ := hQ
      have hprod : zProduct g (((c, t) :: l).map Prod.snd) =
          t.jac.Z * zProduct g (l.map Prod.snd) := by
        simp [zProduct]
      rw [hprod] at hu
      cases c with
      | none =>
          have hnil : l = [] := hl
          subst hnil
          cases hrest
          refine .cons ⟨hQ, hholds.scaled hQ ?_⟩ .nil
          refine eq_inv_of_mul_eq_one_left ?_
          simpa [zProduct] using hu
      | some c =>
          obtain ⟨hc, hl⟩ := hl
          refine .cons ⟨hQ, hholds.scaled hQ ?_⟩ (ih hl ?_)
          · refine eq_inv_of_mul_eq_one_left ?_
            rw [ZMod.intCast_mod, Int.cast_mul, hc, ← hu]
            ring
          · rw [ZMod.intCast_mod, Int.cast_mul, ← hu]
            ring

theorem zProduct_ne_zero {Qs : List g.curve.Point} {ts : List CombPoint}
    (h : List.Forall₂ (fun Q t => Q ≠ 0 ∧ Holds Q t.jac) Qs ts) : zProduct g ts ≠ 0 := by
  induction h with
  | nil => exact one_ne_zero
  | cons hQ _ ih =>
      rw [zProduct, List.map_cons, List.prod_cons]
      refine mul_ne_zero (fun hZ => hQ.1 ?_) ih
      exact hQ.2.zero_iff.mpr ((cast_eq_zero hQ.2.reduced.2.2).mp hZ)

/-- Montgomery's trick: the affine coordinates of all the points. -/
theorem ecpNormalizeJacMany_keeps {Qs : List g.curve.Point} {ts : List CombPoint}
    (hne : ts ≠ []) (h : List.Forall₂ (fun Q t => Q ≠ 0 ∧ Holds Q t.jac) Qs ts) :
    ∃ rs, g.ecpNormalizeJacMany ts = .ok rs ∧ List.Forall₂ Keeps Qs rs := by
  match ts, hne with
  | [t], _ =>
      cases h with
      | cons hQ hrest =>
          cases hrest
          refine ⟨[.ofPoint (affine _)], ?_, .cons ⟨hQ.1, rfl⟩ .nil⟩
          rw [ecpNormalizeJacMany, combNormalizeJac_eq hQ.1 hQ.2]
          rfl
  | t :: t' :: ts, _ =>
      generalize hrest : t' :: ts = rest at h
      have hprod : zProduct g (t :: rest) = t.jac.Z * zProduct g rest := by simp [zProduct]
      have hlast := prefixProducts_last (g := g) t.jac.Z rest
      obtain ⟨u, hu, -, hinv⟩ := mpiInvMod_prime (g := g)
        (z := (t.jac.Z :: g.prefixProducts t.jac.Z rest).getLastD 0)
        (by rw [hlast, ← hprod]; exact zProduct_ne_zero h)
      generalize hl : (none :: (t.jac.Z :: g.prefixProducts t.jac.Z rest).map some).zip
        (t :: rest) = l at *
      have hsnd : l.map Prod.snd = t :: rest := by
        rw [← hl]
        refine List.map_snd_zip ?_
        simp [prefixProducts_length]
      have hsuf : Suffixed g l.reverse := by
        rw [← hl, List.zip_cons_cons, List.reverse_cons]
        refine prefixProducts_suffixed [(none, t)] rfl ?_
        simp [zProduct]
      have hQs : List.Forall₂ (fun Q x => Q ≠ 0 ∧ Holds Q x.2.jac) Qs.reverse l.reverse := by
        rw [List.forall₂_reverse_iff]
        rw [← hsnd, List.forall₂_map_right_iff] at h
        exact h
      have hone : (u : ZMod g.P) * zProduct g (l.reverse.map Prod.snd) = 1 := by
        have hperm : zProduct g (l.reverse.map Prod.snd) = zProduct g (t :: rest) := by
          rw [List.map_reverse, hsnd, zProduct, List.map_reverse, List.prod_reverse]
          rfl
        rw [hperm, hinv, hlast, ← hprod]
        exact inv_mul_cancel₀ (zProduct_ne_zero h)
      refine ⟨(g.normalizeBack u l.reverse).reverse, ?_, ?_⟩
      · subst hrest
        rw [ecpNormalizeJacMany]
        · simp only [bind, Except.bind, hu, hl]
        · exact nofun
      · rw [← List.forall₂_reverse_iff, List.reverse_reverse]
        exact normalizeBack_keeps hsuf hQs hone

/-! ### Places of the table -/

theorem getD_set_self {T : List CombPoint} {k : Nat} (h : k < T.length) (t : CombPoint) :
    (T.set k t).getD k .init = t := by
  simp [List.getD, h]

theorem getD_set_ne {T : List CombPoint} {k i : Nat} (h : k ≠ i) (t : CombPoint) :
    (T.set k t).getD i .init = T.getD i .init := by
  simp [List.getD, List.getElem?_set_ne h]

/-- Writing to some places: what is known of what is written is known of the
places, and the others stay. -/
theorem foldl_set {R : Nat → CombPoint → Prop} {TT : List Nat} {ts T : List CombPoint}
    (h : List.Forall₂ R TT ts) :
    let T' := (TT.zip ts).foldl (fun T it => T.set it.1 it.2) T
    T'.length = T.length ∧
    (∀ i < T.length, i ∈ TT ∨ R i (T.getD i .init) → R i (T'.getD i .init)) ∧
    ∀ i, i ∉ TT → T'.getD i .init = T.getD i .init := by
  induction h generalizing T with
  | nil => simp
  | @cons k t TT ts hR _ ih =>
      obtain ⟨hlen, hin, hout⟩ := ih (T := T.set k t)
      rw [List.length_set] at hlen hin
      refine ⟨hlen, fun i hi hmem => hin i hi ?_, fun i hi => ?_⟩
      · by_cases hk : k = i
        · subst hk
          right
          rwa [getD_set_self hi]
        · rcases hmem with hmem | hmem
          · exact .inl ((List.mem_cons.mp hmem).resolve_left (Ne.symm hk))
          · right
            rwa [getD_set_ne hk]
      · rw [List.mem_cons, not_or] at hi
        exact (hout i hi.2).trans (getD_set_ne (Ne.symm hi.1) t)

theorem normalizeAt_keeps {Qf : Nat → g.curve.Point} {T : List CombPoint} {TT : List Nat}
    (hne : TT ≠ []) (hT : ∀ i ∈ TT, Qf i ≠ 0 ∧ Holds (Qf i) (T.getD i .init).jac) :
    ∃ T', g.normalizeAt T TT = .ok T' ∧ T'.length = T.length ∧
      (∀ i < T.length, i ∈ TT ∨ Keeps (Qf i) (T.getD i .init) →
        Keeps (Qf i) (T'.getD i .init)) ∧
      ∀ i, i ∉ TT → T'.getD i .init = T.getD i .init := by
  have hpoints : List.Forall₂ (fun Q t => Q ≠ 0 ∧ Holds Q t.jac) (TT.map Qf)
      (TT.map fun i => T.getD i .init) := by
    rw [List.forall₂_map_left_iff, List.forall₂_map_right_iff, List.forall₂_same]
    exact hT
  obtain ⟨ts, hts, hkeeps⟩ :=
    ecpNormalizeJacMany_keeps (by rwa [Ne, List.map_eq_nil_iff]) hpoints
  rw [List.forall₂_map_left_iff] at hkeeps
  refine ⟨_, ?_, foldl_set hkeeps⟩
  rw [normalizeAt, hts]
  rfl

/-! ### Precomputing -/

theorem combPowers_holds (h2 : g.P ≠ 2) {d n : Nat} {T : List CombPoint}
    (hn : 2 ^ n ≤ T.length) (h0 : Holds Q (T.getD 0 .init).jac) :
    let T' := g.combPowers d (n + 1) T
    T'.length = T.length ∧ T'.getD 0 .init = T.getD 0 .init ∧
      ∀ k < n, Holds (2 ^ (d * (k + 1)) • Q) (T'.getD (2 ^ k) .init).jac := by
  simp only [combPowers, Nat.add_sub_cancel]
  induction n with
  | zero => simp
  | succ n ih =>
      have hpow : 2 ^ n < T.length :=
        Nat.lt_of_lt_of_le (Nat.pow_lt_pow_right (by decide) (Nat.lt_succ_self n)) hn
      obtain ⟨hlen, hzero, hk⟩ := ih (Nat.le_of_lt hpow)
      rw [List.range_succ, List.foldl_append, List.foldl_cons, List.foldl_nil]
      generalize (List.range n).foldl _ T = T' at *
      have hprev : Holds (2 ^ (d * n) • Q) (T'.getD (2 ^ n >>> 1) .init).jac := by
        cases n with
        | zero =>
            show Holds _ (T'.getD 0 .init).jac
            rw [hzero, Nat.mul_zero, pow_zero, one_smul]
            exact h0
        | succ n =>
            have hshift : 2 ^ (n + 1) >>> 1 = 2 ^ n := by
              rw [Nat.shiftRight_eq_div_pow, Nat.pow_succ]
              omega
            rw [hshift]
            exact hk n (Nat.lt_succ_self n)
      refine ⟨by rw [List.length_set, hlen], ?_, fun k hkn => ?_⟩
      · rw [← hzero]
        exact getD_set_ne (Nat.two_pow_pos n).ne' _
      · rcases Nat.lt_succ_iff_lt_or_eq.mp hkn with hlt | rfl
        · rw [getD_set_ne (Nat.pow_lt_pow_right (by decide) hlt).ne']
          exact hk k hlt
        · rw [getD_set_self (by rwa [hlen]), Nat.mul_succ, pow_add, mul_comm, mul_smul]
          exact combDouble_iterate h2 hprev d

/-- The sums with `T[i]`, made from the last place to the first so that it is
there until its own place is written. -/
theorem combSums_inner (h2 : g.P ≠ 2) (Qf : Nat → g.curve.Point) {Qi : g.curve.Point}
    {i : Nat} {T : List CombPoint} {c : Nat} (hc : c ≤ i) (hlen : i + c ≤ T.length)
    (hT : ∀ j < c, Qf j ≠ 0 ∧ Holds (Qf j) (T.getD j .init).jac)
    (hi : 0 < c → Keeps Qi (T.getD i .init)) :
    ∃ T', (List.range c).reverse.foldlM
        (fun T j => do
          let t ← g.combAddMixed (T.getD j .init) (T.getD i .init)
          .ok (T.set (i + j) t)) T = .ok T' ∧ T'.length = T.length ∧
      (∀ j < c, Holds (Qf j + Qi) (T'.getD (i + j) .init).jac) ∧
      ∀ k, (∀ j < c, k ≠ i + j) → T'.getD k .init = T.getD k .init := by
  induction c generalizing T with
  | zero => exact ⟨T, rfl, rfl, by simp, by simp⟩
  | succ c ih =>
      obtain ⟨hQ, hholds⟩ := hT c (Nat.lt_succ_self c)
      obtain ⟨t, ht, hsum⟩ := combAddMixed_holds h2 hQ hholds (hi (Nat.succ_pos c))
      obtain ⟨T', hT', hlen', hdone, hrest⟩ := ih (T := T.set (i + c) t) (by omega)
        (by rw [List.length_set]; omega)
        (fun j hj => by
          rw [getD_set_ne (by omega)]
          exact hT j (Nat.lt_succ_of_lt hj))
        (fun hc => by
          rw [getD_set_ne (by omega)]
          exact hi (Nat.succ_pos c))
      refine ⟨T', ?_, by rw [hlen', List.length_set], fun j hj => ?_, fun k hk => ?_⟩
      · rw [List.range_succ, List.reverse_append, List.reverse_singleton,
          List.singleton_append, List.foldlM_cons, ht]
        exact hT'
      · rcases Nat.lt_succ_iff_lt_or_eq.mp hj with hlt | rfl
        · exact hdone j hlt
        · rw [hrest _ (fun k hk => by omega), getD_set_self (by omega)]
          exact hsum
      · rw [hrest k fun j hj => hk j (Nat.lt_succ_of_lt hj),
          getD_set_ne (Ne.symm (hk c (Nat.lt_succ_self c)))]

theorem combMultiple_zero (d : Nat) : combMultiple d 0 = 1 := by simp [combMultiple]

/-- One more tooth. -/
theorem combMultiple_add (d : Nat) {l j : Nat} (hl : l < 6) (hj : j < 2 ^ l) :
    combMultiple d (2 ^ l + j) = combMultiple d j + 2 ^ (d * (l + 1)) := by
  have hbit : ∀ k, (2 ^ l + j).testBit k = (j.testBit k || decide (k = l)) := by
    intro k
    rcases Nat.lt_trichotomy k l with h | rfl | h
    · rw [Nat.testBit_two_pow_add_gt h, decide_eq_false (by omega), Bool.or_false]
    · rw [Nat.testBit_two_pow_add_eq, Nat.testBit_lt_two_pow hj]
      simp
    · have hle : 2 ^ (l + 1) ≤ 2 ^ k := Nat.pow_le_pow_right (by decide) h
      rw [Nat.pow_succ] at hle
      rw [Nat.testBit_lt_two_pow (by omega), Nat.testBit_lt_two_pow (by omega),
        decide_eq_false (by omega)]
      rfl
  have hsplit : ∀ k ∈ Finset.range 6,
      (if (2 ^ l + j).testBit k then 2 ^ (d * (k + 1)) else 0) =
        (if j.testBit k then 2 ^ (d * (k + 1)) else 0) +
          if k = l then 2 ^ (d * (k + 1)) else 0 := by
    intro k _
    rw [hbit]
    by_cases hk : k = l
    · subst hk
      simp [Nat.testBit_lt_two_pow hj]
    · simp [hk]
  rw [combMultiple, Finset.sum_congr rfl hsplit, Finset.sum_add_distrib,
    Finset.sum_ite_eq' (Finset.range 6), if_pos (Finset.mem_range.mpr hl), combMultiple,
    Nat.add_assoc]

theorem combSums_holds (h2 : g.P ≠ 2) {d n : Nat} {T : List CombPoint} (hn : n ≤ 6)
    (hlen : T.length = 2 ^ n) (h0 : Holds Q (T.getD 0 .init).jac)
    (hne : ∀ i < 2 ^ n, combMultiple d i • Q ≠ 0)
    (hpow : ∀ k < n, Keeps (2 ^ (d * (k + 1)) • Q) (T.getD (2 ^ k) .init)) :
    ∃ T', g.combSums (n + 1) T = .ok T' ∧ T'.length = T.length ∧
      T'.getD 0 .init = T.getD 0 .init ∧
      ∀ i < 2 ^ n, Holds (combMultiple d i • Q) (T'.getD i .init).jac := by
  rw [combSums, Nat.add_sub_cancel]
  have hloop : ∀ l ≤ n, ∃ T', (List.range l).foldlM (fun T l => g.combSumsAt (2 ^ l) T) T =
      .ok T' ∧ T'.length = T.length ∧ T'.getD 0 .init = T.getD 0 .init ∧
      (∀ i < 2 ^ l, Holds (combMultiple d i • Q) (T'.getD i .init).jac) ∧
      ∀ k, 2 ^ l ≤ k → T'.getD k .init = T.getD k .init := by
    intro l
    induction l with
    | zero =>
        intro _
        refine ⟨T, rfl, rfl, rfl, fun i hi => ?_, fun k _ => rfl⟩
        have hi0 : i = 0 := by simpa using hi
        rw [hi0, combMultiple_zero, one_smul]
        exact h0
    | succ l ih =>
        intro hl
        obtain ⟨T', hT', hlen', hzero, hdone, hrest⟩ := ih (by omega)
        have hle : 2 ^ (l + 1) ≤ 2 ^ n := Nat.pow_le_pow_right (by decide) hl
        rw [Nat.pow_succ] at hle
        obtain ⟨T'', hT'', hlen'', hnew, hkept⟩ :=
          combSums_inner h2 (fun j => combMultiple d j • Q) (T := T') (i := 2 ^ l)
            (Nat.le_refl _) (by omega) (fun j hj => ⟨hne j (by omega), hdone j hj⟩)
            (fun _ => by
              rw [hrest _ (Nat.le_refl _)]
              exact hpow l (by omega))
        refine ⟨T'', ?_, hlen''.trans hlen', ?_, fun i hi => ?_, fun k hk => ?_⟩
        · rw [List.range_succ, List.foldlM_append, hT']
          have hat : g.combSumsAt (2 ^ l) T' = .ok T'' := hT''
          simp only [bind, Except.bind, List.foldlM_cons, List.foldlM_nil, pure, Except.pure,
            hat]
        · rw [← hzero]
          have := Nat.two_pow_pos l
          exact hkept 0 fun j hj => by omega
        · rw [Nat.pow_succ] at hi
          by_cases hlt : i < 2 ^ l
          · rw [hkept i fun j hj => by omega]
            exact hdone i hlt
          · obtain ⟨j, rfl⟩ : ∃ j, i = 2 ^ l + j := ⟨i - 2 ^ l, by omega⟩
            rw [combMultiple_add d (by omega) (by omega), add_smul]
            exact hnew j (by omega)
        · rw [Nat.pow_succ] at hk
          rw [hkept k fun j hj => by omega]
          exact hrest k (by omega)
  obtain ⟨T', hT', hlen', hzero, hdone, -⟩ := hloop n (Nat.le_refl n)
  exact ⟨T', hT', hlen', hzero, hdone⟩

/-- The table of a point: at each place its multiple. -/
def TableOf (d w : Nat) (Q : g.curve.Point) (T : List CombPoint) : Prop :=
  T.length = 2 ^ (w - 1) ∧ ∀ i < 2 ^ (w - 1), Keeps (combMultiple d i • Q) (T.getD i .init)

theorem mem_combPlaces {n i : Nat} : i ∈ combPlaces n ↔ 0 < i ∧ i < 2 ^ n := by
  constructor
  · intro h
    obtain ⟨l, hl, hi⟩ := List.mem_flatMap.mp h
    obtain ⟨j, hj, rfl⟩ := List.mem_map.mp hi
    rw [List.mem_reverse, List.mem_range] at hj
    have hle : 2 ^ (l + 1) ≤ 2 ^ n :=
      Nat.pow_le_pow_right (by decide) (List.mem_range.mp hl)
    rw [Nat.pow_succ] at hle
    omega
  · rintro ⟨h0, hi⟩
    have hlog : i.log2 < n := (Nat.log2_lt h0.ne').mpr hi
    have hle := Nat.log2_self_le h0.ne'
    have hlt := Nat.lt_log2_self (n := i)
    rw [Nat.pow_succ] at hlt
    refine List.mem_flatMap.mpr ⟨i.log2, List.mem_range.mpr hlog, ?_⟩
    refine List.mem_map.mpr ⟨i - 2 ^ i.log2, ?_, by omega⟩
    rw [List.mem_reverse, List.mem_range]
    omega

/-- Where no multiple in it is zero, the table is made, and made right. -/
theorem ecpPrecomputeComb_tableOf (h2 : g.P ≠ 2) {d w : Nat} {P : EcpPoint} (hw : 2 ≤ w)
    (hw7 : w ≤ 7) (hP : Holds Q P) (hZ : P.Z = 1) (htwo : ∀ k, (2 ^ k : Nat) • Q ≠ 0)
    (hne : ∀ i < 2 ^ (w - 1), combMultiple d i • Q ≠ 0) :
    ∃ T, g.ecpPrecomputeComb d w P = .ok T ∧ TableOf d w Q T := by
  obtain ⟨n, rfl⟩ : ∃ n, w = n + 1 := ⟨w - 1, by omega⟩
  rw [Nat.add_sub_cancel] at hne
  have hpos := Nat.two_pow_pos n
  generalize hT0 : (List.replicate (2 ^ n) CombPoint.init).set 0 (.ofPoint P) = T0
  have hlen0 : T0.length = 2 ^ n := by
    rw [← hT0, List.length_set, List.length_replicate]
  have hzero0 : T0.getD 0 .init = .ofPoint P := by
    rw [← hT0, getD_set_self]
    rwa [List.length_replicate]
  have hQ : Q ≠ 0 := by simpa using htwo 0
  -- the powers, normalized
  obtain ⟨hlen1, hzero1, hpow1⟩ :=
    combPowers_holds h2 (Q := Q) (d := d) hlen0.ge (by rw [hzero0]; exact hP)
  generalize hT1 : g.combPowers d (n + 1) T0 = T1 at *
  have hplaces : ∀ i ∈ (List.range n).map (2 ^ ·),
      2 ^ (d * (i.log2 + 1)) • Q ≠ 0 ∧
        Holds (2 ^ (d * (i.log2 + 1)) • Q) (T1.getD i .init).jac := by
    intro i hi
    obtain ⟨k, hk, rfl⟩ := List.mem_map.mp hi
    rw [Nat.log2_two_pow]
    exact ⟨htwo _, hpow1 k (List.mem_range.mp hk)⟩
  obtain ⟨T2, hT2, hlen2, hkeeps2, hrest2⟩ := normalizeAt_keeps (g := g)
    (by simp; omega) hplaces
  have hzero2 : T2.getD 0 .init = .ofPoint P := by
    rw [hrest2 0, hzero1, hzero0]
    intro h
    obtain ⟨k, -, hk⟩ := List.mem_map.mp h
    exact (Nat.two_pow_pos k).ne' hk
  have hpow2 : ∀ k < n, Keeps (2 ^ (d * (k + 1)) • Q) (T2.getD (2 ^ k) .init) := by
    intro k hk
    have hlt : 2 ^ k < 2 ^ n := Nat.pow_lt_pow_right (by decide) hk
    have := hkeeps2 (2 ^ k) (by omega)
      (.inl (List.mem_map.mpr ⟨k, List.mem_range.mpr hk, rfl⟩))
    rwa [Nat.log2_two_pow] at this
  -- the sums, normalized
  obtain ⟨T3, hT3, hlen3, hzero3, hsums⟩ := combSums_holds h2 (Q := Q) (d := d) (n := n)
    (T := T2) (by omega) (by omega) (by rw [hzero2]; exact hP) hne hpow2
  have hone : 1 ∈ combPlaces n := mem_combPlaces.mpr ⟨Nat.one_pos, Nat.one_lt_two_pow (by omega)⟩
  obtain ⟨T4, hT4, hlen4, hkeeps4, hrest4⟩ := normalizeAt_keeps (g := g) (T := T3)
    (List.ne_nil_of_mem hone) (fun i hi => ⟨hne i (mem_combPlaces.mp hi).2,
      hsums i (mem_combPlaces.mp hi).2⟩)
  refine ⟨T4, ?_, by rw [Nat.add_sub_cancel]; omega, fun i hi => ?_⟩
  · rw [ecpPrecomputeComb, Nat.add_sub_cancel, hT0]
    simp only [bind, Except.bind, hT1, hT2, hT3, hT4]
  · rw [Nat.add_sub_cancel] at hi
    rcases Nat.eq_zero_or_pos i with rfl | h0
    · rw [hrest4 0 fun h => (mem_combPlaces.mp h).1.ne rfl, hzero3, hzero2, combMultiple_zero,
        one_smul]
      exact ⟨hQ, hP.eq_affine hZ⟩
    · exact hkeeps4 i (by omega) (.inl (mem_combPlaces.mpr ⟨h0, hi⟩))

end EcpGroup

end LibSmoke
