import LibSmoke.Lib.ElemSymm
import LibSmoke.Sban.Mka

/-!
# The group key exchange in lockstep

All parties draw their scalars, and then in every round each broadcasts, and
each takes in what the others broadcast in whatever order it got it. After the
last round they compute their keys.

What party `i` holds after `r` rounds is the `r`-th elementary symmetric
polynomial in the scalars of the others, times the base point; what it sends in
the next round is its own scalar times that, in the first round as well, where
the polynomial is one. The induction over the rounds is the identity
`ElemSymm.sum_mul_elem_erase_univ`: the others' broadcasts overshoot by the
part that is taken off, and what is left is divided by the number of the round.

A round fails exactly where one of these polynomials is zero modulo the order
of the group.
-/

namespace LibSmoke

open ElemSymm

section AllOk

variable {ε α : Type}

/-- The results of all parties, or the first error among them. -/
def allOk : {n : Nat} → (Fin n → Except ε α) → Except ε (Fin n → α)
  | 0, _ => .ok fun i => i.elim0
  | _ + 1, f => do
      let a ← f 0
      let rest ← allOk fun i => f i.succ
      .ok (Fin.cons a rest)

theorem allOk_of_ok {n : Nat} {f : Fin n → Except ε α} {v : Fin n → α}
    (h : ∀ i, f i = .ok (v i)) : allOk f = .ok v := by
  induction n with
  | zero => exact congrArg Except.ok (funext fun i => i.elim0)
  | succ n ih =>
      rw [allOk, h 0, ih fun i => h i.succ]
      simp only [bind, Except.bind]
      exact congrArg Except.ok (Fin.cons_self_tail v)

theorem allOk_of_error {n : Nat} {f : Fin n → Except ε α} {i : Fin n} {e : ε}
    (h : f i = .error e) : ∃ e, allOk f = .error e := by
  induction n with
  | zero => exact i.elim0
  | succ n ih =>
      rw [allOk]
      cases h0 : f 0 with
      | error e => exact ⟨e, rfl⟩
      | ok a =>
          obtain ⟨j, rfl⟩ := Fin.exists_succ_eq.mpr
            (show i ≠ 0 by rintro rfl; rw [h] at h0; cases h0)
          obtain ⟨e', he'⟩ := ih (f := fun i => f i.succ) h
          refine ⟨e', ?_⟩
          simp only [bind, Except.bind]
          rw [he']

end AllOk

/-! ## The run -/

section Run

variable (g : EcpGroup) {n : Nat} (buflen : Nat)

def setParts (draw : Fin n → Nat → Nat) :
    Except SbanError (Fin n → MkaContext) :=
  allOk fun i => mkaSetPart (mkaInit g) n (draw i)

/-- One round. `order i` is the order in which party `i` has the broadcasts of
the others. -/
def lockRound (order : Fin n → List (Fin n)) (cs : Fin n → MkaContext) :
    Except SbanError (Fin n → MkaContext) := do
  let sent ← allOk fun i => mkaMakeBroadval (cs i) buflen
  allOk fun i => mkaAccBroadval (sent i).1
    ((order i).flatMap fun j => (sent j).2)

/-- The contexts after `r` rounds. -/
def lockRounds (draw : Fin n → Nat → Nat)
    (order : Nat → Fin n → List (Fin n)) :
    Nat → Except SbanError (Fin n → MkaContext)
  | 0 => setParts g draw
  | r + 1 => do
      let cs ← lockRounds draw order r
      lockRound buflen (order r) cs

/-- The keys at the end. -/
def agree (draw : Fin n → Nat → Nat) (order : Nat → Fin n → List (Fin n))
    (keylen : Nat) : Except SbanError (Fin n → List UInt8) := do
  let cs ← lockRounds g buflen draw order (n - 1)
  let ks ← allOk fun i => mkaComputeKey (cs i) keylen
  .ok fun i => (ks i).2

end Run

/-- A list of all parties but `i`, each once. -/
def OthersOf {n : Nat} (i : Fin n) (l : List (Fin n)) : Prop :=
  l.Nodup ∧ ∀ j, j ∈ l ↔ j ≠ i

namespace OthersOf

variable {n : Nat} {i : Fin n} {l : List (Fin n)}

theorem toFinset_eq (h : OthersOf i l) : l.toFinset = Finset.univ.erase i := by
  ext j
  rw [List.mem_toFinset, h.2 j, Finset.mem_erase]
  exact (and_iff_left (Finset.mem_univ j)).symm

theorem sum_map {R : Type} [CommRing R] (h : OthersOf i l) (f : Fin n → R) :
    (l.map f).sum = ∑ j ∈ Finset.univ.erase i, f j := by
  rw [← h.toFinset_eq, List.sum_toFinset f h.1]

theorem length_eq (h : OthersOf i l) : l.length + 1 = n := by
  have hcard : l.toFinset.card = l.length := List.toFinset_card_of_nodup h.1
  rw [h.toFinset_eq, Finset.card_erase_of_mem (Finset.mem_univ i),
    Finset.card_univ, Fintype.card_fin] at hcard
  have := i.isLt
  omega

end OthersOf

/-! ## What the parties hold -/

section Exact

variable {g : EcpGroup} {pt : ZMod g.N → EcpPoint} {n : Nat}
  {a : Fin n → Int}

/-- The scalars of the parties, in the group. -/
def scalars (g : EcpGroup) (a : Fin n → Int) (i : Fin n) : ZMod g.N := a i

/-- The `r`-th polynomial in the scalars of all parties but `i`. -/
def others (g : EcpGroup) (a : Fin n → Int) (i : Fin n) (r : Nat) : ZMod g.N :=
  elem (scalars g a) (Finset.univ.erase i) r

/-- What party `i` holds after `r` rounds, as a scalar. -/
def held (g : EcpGroup) (a : Fin n → Int) (r : Nat) (i : Fin n) : ZMod g.N :=
  if r = 0 then scalars g a i else others g a i r

/-- The context of party `i` after `r` rounds. -/
def ctxAfter (g : EcpGroup) (pt : ZMod g.N → EcpPoint) (a : Fin n → Int)
    (r : Nat) (i : Fin n) : MkaContext :=
  ⟨g, a i, pt (held g a r i), 0, n, min r (n - 2)⟩

/-- No polynomial of the first `r` rounds is zero. -/
def NoZero (g : EcpGroup) (a : Fin n → Int) (r : Nat) : Prop :=
  ∀ s < r, ∀ i, others g a i (s + 1) ≠ 0

theorem mul_others (i : Fin n) :
    scalars g a i * others g a i (n - 1) = ∏ j, scalars g a j := by
  have hlast := mul_elem_erase_card (scalars g a) i
  rwa [Fintype.card_fin] at hlast

theorem sends_held (r : Nat) (i : Fin n) :
    sends (a i) r (held g a r i) = scalars g a i * others g a i r := by
  unfold sends held
  split
  · next h => rw [h, others, elem_zero, mul_one]
  · rfl

theorem held_ne_zero (ha : ∀ i, 0 < a i ∧ a i < g.N) {r : Nat}
    (h : NoZero g a r) (i : Fin n) : held g a r i ≠ 0 := by
  unfold held
  split
  · exact EcpGroup.Exact.cast_ne_zero (ha i).1 (ha i).2
  · next hr =>
      obtain ⟨s, rfl⟩ := Nat.exists_eq_succ_of_ne_zero hr
      exact h s (Nat.lt_succ_self s) i

variable (hE : g.Exact pt)

include hE

/-- What all parties broadcast in a round. -/
theorem broadcasts_ctxAfter (ha : ∀ i, 0 < a i ∧ a i < g.N) {r : Nat}
    (hr : r + 2 ≤ n) {buflen : Nat} (hlen : 2 * g.plen + 2 ≤ buflen)
    (h : NoZero g a r) :
    allOk (fun i => mkaMakeBroadval (ctxAfter g pt a r i) buflen) =
      .ok fun i => (⟨g, a i, pt (scalars g a i * others g a i r), 0, n, r⟩,
        g.record (pt (scalars g a i * others g a i r))) := by
  have hmin : min r (n - 2) = r := by omega
  refine allOk_of_ok fun i => ?_
  rw [ctxAfter, hmin, mkaMakeBroadval_pt hE (ha i).1 (ha i).2
    (held_ne_zero ha h i) hr hlen, sends_held]

omit hE in
theorem flatMap_record (l : List (Fin n)) (f : Fin n → ZMod g.N) :
    (l.flatMap fun j => g.record (pt (f j))) = recordsOf g pt (l.map f) := by
  rw [recordsOf, List.flatMap_map]

/-- One round on an exact group. -/
theorem lockRound_ctxAfter (ha : ∀ i, 0 < a i ∧ a i < g.N) {r : Nat}
    (hr : r + 2 ≤ n) (hnN : n < g.N) {buflen : Nat} (hroom : g.Room buflen)
    {order : Fin n → List (Fin n)} (horder : ∀ i, OthersOf i (order i))
    (h : NoZero g a r) :
    lockRound buflen order (ctxAfter g pt a r) = allOk fun i =>
      if others g a i (r + 1) = 0 then .error .ecpBadInputData
      else .ok (ctxAfter g pt a (r + 1) i) := by
  have hne : ∀ i, scalars g a i * others g a i r ≠ 0 := by
    intro i
    rw [← sends_held]
    exact sends_ne_zero hE (ha i).1 (ha i).2 r (held_ne_zero ha h i)
  rw [lockRound, broadcasts_ctxAfter hE ha hr hroom.1 h]
  simp only [bind, Except.bind]
  congr 1
  funext i
  have hz : ((order i).map fun j => scalars g a j * others g a j r).sum -
      r * (scalars g a i * others g a i r) =
      (r + 1) * others g a i (r + 1) := by
    rw [(horder i).sum_map]
    exact sum_mul_elem_erase_univ (scalars g a) i r
  rw [flatMap_record, mkaAccBroadval_pt hE (hne i) ?_ ?_ hr hnN
    ⟨Nat.le_refl _, hroom.2⟩ hz]
  · congr 2
    rw [ctxAfter, held, if_neg (Nat.succ_ne_zero r)]
    congr 1
    split <;> omega
  · intro y hy
    obtain ⟨j, -, rfl⟩ := List.mem_map.mp hy
    exact hne j
  · rw [List.length_map]
    exact (horder i).length_eq

/-- Without room for a record the first round fails. -/
theorem lockRound_no_room (ha : ∀ i, 0 < a i ∧ a i < g.N) (hn : 2 ≤ n)
    {buflen : Nat} (hroom : ¬ g.Room buflen) {order : Fin n → List (Fin n)}
    (horder : ∀ i, OthersOf i (order i)) :
    ∃ e, lockRound buflen order (ctxAfter g pt a 0) = .error e := by
  have h : NoZero g a 0 := fun s hs => absurd hs (Nat.not_lt_zero s)
  let i : Fin n := ⟨0, by omega⟩
  rw [lockRound]
  by_cases hlen : 2 * g.plen + 2 ≤ buflen
  · have hlong : 256 ≤ 2 * g.plen + 1 := by
      by_contra hb
      exact hroom ⟨hlen, by omega⟩
    rw [broadcasts_ctxAfter hE ha hn hlen h]
    have hlast := (horder i).length_eq
    cases hl : order i with
    | nil => rw [hl, List.length_nil] at hlast; omega
    | cons j js =>
        obtain ⟨e, he⟩ : ∃ e, mkaAccBroadval
            ⟨g, a i, pt (scalars g a i * others g a i 0), 0, n, 0⟩
            (recordsOf g pt ((j :: js).map fun j =>
              scalars g a j * others g a j 0)) = .error e :=
          mkaAccBroadval_long hn hlong
        refine allOk_of_error (i := i) (e := e) ?_
        rw [hl, flatMap_record]
        exact he
  · obtain ⟨e, he⟩ : ∃ e, mkaMakeBroadval
        ⟨g, a i, pt (held g a 0 i), 0, n, 0⟩ buflen = .error e :=
      mkaMakeBroadval_short hE (held_ne_zero ha h i) (Nat.lt_of_not_le hlen)
    obtain ⟨e', he'⟩ := allOk_of_error (i := i) (e := e)
      (f := fun i => mkaMakeBroadval (ctxAfter g pt a 0 i) buflen) (by
        rw [ctxAfter, Nat.zero_min]
        exact he)
    rw [he']
    exact ⟨e', rfl⟩

section Whole

variable (hn : 2 ≤ n) (hnN : n < g.N) {draw : Fin n → Nat → Nat}
  (hdraw : ∀ i, g.drawScalar (draw i) 30 0 = .ok (a i))
  {order : Nat → Fin n → List (Fin n)}
  (horder : ∀ r i, OthersOf i (order r i))

include hn hdraw

omit hE hn in
theorem scalars_range (i : Fin n) : 0 < a i ∧ a i < g.N :=
  drawScalar_range (hdraw i)

theorem setParts_ctxAfter : setParts g draw = .ok (ctxAfter g pt a 0) := by
  refine allOk_of_ok fun i => ?_
  rw [mkaSetPart_pt hE hn (hdraw i), ctxAfter, held, if_pos rfl, Nat.zero_min]
  rfl

include hnN horder

theorem lockRounds_of_noZero {buflen : Nat} (hroom : g.Room buflen) {r : Nat}
    (hr : r + 1 ≤ n) (h : NoZero g a r) :
    lockRounds g buflen draw order r = .ok (ctxAfter g pt a r) := by
  induction r with
  | zero => exact setParts_ctxAfter hE hn hdraw
  | succ r ih =>
      have h' : NoZero g a r := fun s hs => h s (Nat.lt_succ_of_lt hs)
      rw [lockRounds, ih (by omega) h']
      simp only [bind, Except.bind]
      rw [lockRound_ctxAfter hE (scalars_range hdraw) hr hnN hroom
        (horder r) h']
      refine allOk_of_ok fun i => ?_
      rw [if_neg (h r (Nat.lt_succ_self r) i)]

theorem lockRounds_of_zero {buflen : Nat} (hroom : g.Room buflen) {r : Nat}
    (hr : r + 1 ≤ n) (h : ¬ NoZero g a r) :
    ∃ e, lockRounds g buflen draw order r = .error e := by
  induction r with
  | zero => exact absurd (fun s hs => absurd hs (Nat.not_lt_zero s)) h
  | succ r ih =>
      rw [lockRounds]
      by_cases h' : NoZero g a r
      · -- the zero is among the polynomials of this round
        obtain ⟨i, hi⟩ : ∃ i, others g a i (r + 1) = 0 := by
          by_contra hne
          refine h fun s hs => ?_
          rcases Nat.lt_succ_iff_lt_or_eq.mp hs with hlt | rfl
          · exact h' s hlt
          · exact fun i hi => hne ⟨i, hi⟩
        rw [lockRounds_of_noZero hE hn hnN hdraw horder hroom (by omega) h']
        simp only [bind, Except.bind]
        rw [lockRound_ctxAfter hE (scalars_range hdraw) hr hnN hroom
          (horder r) h']
        exact allOk_of_error (i := i) (if_pos hi)
      · obtain ⟨e, he⟩ := ih (by omega) h'
        rw [he]
        exact ⟨e, rfl⟩

omit hnN in
theorem lockRounds_no_room {buflen : Nat} (hroom : ¬ g.Room buflen) (r : Nat) :
    ∃ e, lockRounds g buflen draw order (r + 1) = .error e := by
  induction r with
  | zero =>
      rw [lockRounds, lockRounds, setParts_ctxAfter hE hn hdraw]
      exact lockRound_no_room hE (scalars_range hdraw) hn hroom (horder 0)
  | succ r ih =>
      obtain ⟨e, he⟩ := ih
      rw [lockRounds, he]
      exact ⟨e, rfl⟩

omit hnN horder in
/-- The key of every party after the last round. -/
theorem computeKey_ctxAfter (h : NoZero g a (n - 1)) (keylen : Nat)
    (i : Fin n) :
    mkaComputeKey (ctxAfter g pt a (n - 1) i) keylen =
      if mpiSize (pt (∏ j, scalars g a j)).X > keylen then
        .error .bufferTooShort
      else .ok (⟨g, a i, pt (held g a (n - 1) i),
        (pt (∏ j, scalars g a j)).X, n, n - 2⟩,
        keyOf g (pt (∏ j, scalars g a j))) := by
  have ha := scalars_range hdraw
  have hprod : (a i : ZMod g.N) * held g a (n - 1) i =
      ∏ j, scalars g a j := by
    rw [held, if_neg (by omega)]
    exact mul_others i
  rw [ctxAfter, show min (n - 1) (n - 2) = n - 2 by omega,
    mkaComputeKey_pt hE (ha i).1 (ha i).2 (held_ne_zero ha h i) (by omega),
    hprod]

omit hn hnN horder in
theorem product_ne_zero : ∏ j, scalars g a j ≠ 0 := by
  have := Fact.mk hE.prime
  refine Finset.prod_ne_zero_iff.mpr fun j _ => ?_
  exact EcpGroup.Exact.cast_ne_zero (scalars_range hdraw j).1
    (scalars_range hdraw j).2

/-- A run without a zero ends with the same key everywhere, if the buffer takes
it. -/
theorem agree_of_noZero {buflen : Nat} (hroom : g.Room buflen) (keylen : Nat)
    (h : NoZero g a (n - 1)) :
    (mpiSize (pt (∏ j, scalars g a j)).X > keylen ∧
        ∃ e, agree g buflen draw order keylen = .error e) ∨
      agree g buflen draw order keylen =
        .ok fun _ => keyOf g (pt (∏ j, scalars g a j)) := by
  have hkey := computeKey_ctxAfter hE hn hdraw h keylen
  rw [agree, lockRounds_of_noZero hE hn hnN hdraw horder hroom (by omega) h]
  simp only [bind, Except.bind]
  by_cases hlong : mpiSize (pt (∏ j, scalars g a j)).X > keylen
  · refine .inl ⟨hlong, ?_⟩
    have i : Fin n := ⟨0, by omega⟩
    obtain ⟨e, he⟩ := allOk_of_error (i := i)
      (f := fun i => mkaComputeKey (ctxAfter g pt a (n - 1) i) keylen)
      ((hkey i).trans (if_pos hlong))
    rw [he]
    exact ⟨e, rfl⟩
  · refine .inr ?_
    rw [allOk_of_ok fun i => (hkey i).trans (if_neg hlong)]

end Whole

/-- In lockstep, each round fails or leaves every party with the elementary
symmetric polynomial of that round in the scalars of the others, and the whole
run fails or gives all parties the first coordinate of the product. With room
for the records and the key, it fails exactly if one of the polynomials is
zero. -/
theorem lockstep_agreement (hn : 2 ≤ n) (hnN : n < g.N)
    {draw : Fin n → Nat → Nat}
    (hdraw : ∀ i, g.drawScalar (draw i) 30 0 = .ok (a i))
    {order : Nat → Fin n → List (Fin n)}
    (horder : ∀ r i, OthersOf i (order r i)) (buflen keylen : Nat) :
    (∀ r, r + 2 ≤ n →
      (∃ e, lockRounds g buflen draw order (r + 1) = .error e) ∨
      ∃ cs, lockRounds g buflen draw order (r + 1) = .ok cs ∧
        ∀ i, (cs i).k = pt (others g a i (r + 1))) ∧
    ((∃ e, agree g buflen draw order keylen = .error e) ∨
      ∃ keys, agree g buflen draw order keylen = .ok keys ∧
        ∀ i, keys i = keyOf g (pt (∏ j, scalars g a j))) ∧
    (g.Room buflen → g.plen ≤ keylen →
      ((∃ e, agree g buflen draw order keylen = .error e) ↔
        ∃ r i, r + 2 ≤ n ∧ others g a i (r + 1) = 0)) := by
  have hzero : (∃ r i, r + 2 ≤ n ∧ others g a i (r + 1) = 0) ↔
      ¬ NoZero g a (n - 1) := by
    constructor
    · rintro ⟨r, i, hr, hi⟩ h
      exact h r (by omega) i hi
    · intro h
      by_contra hne
      exact h fun s hs i hi => hne ⟨s, i, by omega, hi⟩
  have hfail : (∃ e, lockRounds g buflen draw order (n - 1) = .error e) →
      ∃ e, agree g buflen draw order keylen = .error e := by
    rintro ⟨e, he⟩
    rw [agree, he]
    exact ⟨e, rfl⟩
  refine ⟨fun r hr => ?_, ?_, fun hroom hlen => ?_⟩
  · by_cases hroom : g.Room buflen
    · by_cases h : NoZero g a (r + 1)
      · refine .inr ⟨_, lockRounds_of_noZero hE hn hnN hdraw horder hroom
          (by omega) h, fun i => ?_⟩
        rw [ctxAfter, held, if_neg (Nat.succ_ne_zero r)]
      · exact .inl (lockRounds_of_zero hE hn hnN hdraw horder hroom
          (by omega) h)
    · exact .inl (lockRounds_no_room hE hn hdraw horder hroom r)
  · by_cases hroom : g.Room buflen
    · by_cases h : NoZero g a (n - 1)
      · rcases agree_of_noZero hE hn hnN hdraw horder hroom keylen h with
          ⟨-, herr⟩ | hok
        · exact .inl herr
        · exact .inr ⟨_, hok, fun _ => rfl⟩
      · exact .inl (hfail (lockRounds_of_zero hE hn hnN hdraw horder hroom
          (by omega) h))
    · obtain ⟨m, hm⟩ : ∃ m, n - 1 = m + 1 := ⟨n - 2, by omega⟩
      refine .inl (hfail ?_)
      rw [hm]
      exact lockRounds_no_room hE hn hdraw horder hroom m
  · rw [hzero]
    constructor
    · rintro ⟨e, he⟩ h
      obtain ⟨-, ⟨hX0, hX⟩, -⟩ := EcpGroup.onCurve_range
        (hE.onCurve _ (product_ne_zero hE hdraw))
      have hsize := EcpGroup.mpiSize_coord hX0 hX
      rcases agree_of_noZero hE hn hnN hdraw horder hroom keylen h with
        ⟨hlong, -⟩ | hok
      · omega
      · rw [hok] at he
        cases he
    · intro h
      exact hfail (lockRounds_of_zero hE hn hnN hdraw horder hroom
        (by omega) h)

end Exact

/-- Three parties with the scalars one, two and three. -/
def agreeThree : Except SbanError (Fin 3 → List UInt8) :=
  agree sevenPoints 66 (fun i _ => i.val + 1)
    (fun _ i => (List.finRange 3).filter (· ≠ i)) 66

theorem lockstep_agreement_three :
    ∃ keys, agreeThree = .ok keys ∧
      ∀ i, keys i = keyOf sevenPoints (sevenPt 6) := by
  have hprod : ∏ j, scalars sevenPoints (fun i : Fin 3 => i.val + 1) j = 6 := by
    decide
  have hdraw : ∀ i : Fin 3,
      sevenPoints.drawScalar (fun _ => i.val + 1) 30 0 = .ok (i.val + 1) := by
    decide
  have horder : ∀ (_ : Nat) (i : Fin 3),
      OthersOf i ((List.finRange 3).filter (· ≠ i)) := fun _ i =>
    ⟨(List.nodup_finRange 3).filter _, by simp⟩
  have hrun := (lockstep_agreement sevenPoints_exact (by decide) (by decide)
    hdraw horder 66 66).2.1
  rw [hprod] at hrun
  rcases hrun with ⟨e, he⟩ | hok
  · have hrunOk : agreeThree.isOk = true := by decide +kernel
    rw [agreeThree, he] at hrunOk
    cases hrunOk
  · exact hok

end LibSmoke
