import Mathlib.Data.List.Basic

/-!
# Runs of a machine

A run is a list of actions done one after the other. `Meets` says of a run that
every action in it was done in a state that met a condition, and `Meets.inv` is
the rule that goes with it: what holds at the start, and is kept by every action
under the condition, holds at the end.

A machine that shows something with every action has the list of what it shows as
its `outputs`. Two states that are alike, and stay so under every action while
they show the same, have the same outputs.
-/

namespace Runs

variable {σ α : Type} (step : σ → α → σ)

def run (s : σ) (acts : List α) : σ := acts.foldl step s

/-- Every action of the run meets `C` in the state it is done in. -/
def Meets (C : σ → α → Prop) : σ → List α → Prop
  | _, [] => True
  | s, x :: xs => C s x ∧ Meets C (step s x) xs

instance Meets.decidable {C : σ → α → Prop} [∀ s x, Decidable (C s x)] :
    ∀ s xs, Decidable (Meets step C s xs)
  | _, [] => .isTrue trivial
  | s, x :: xs =>
      have : Decidable (Meets step C (step s x) xs) :=
        Meets.decidable (step s x) xs
      inferInstanceAs (Decidable (C s x ∧ Meets step C (step s x) xs))

variable {step}

/-- What every entry has with those before it, one more entry has to have with all of
them. -/
theorem forall_split_concat {P : List α → α → Prop} {xs : List α}
    (h : ∀ pre x post, xs = pre ++ x :: post → P pre x) {y : α} (hy : P xs y) :
    ∀ pre x post, xs ++ [y] = pre ++ x :: post → P pre x := by
  intro pre x post heq
  rcases List.eq_nil_or_concat post with rfl | ⟨post, last, rfl⟩
  · obtain ⟨rfl, hlast⟩ := List.append_inj' heq rfl
    cases hlast
    exact hy
  · rw [List.concat_eq_append, ← List.cons_append, ← List.append_assoc] at heq
    exact h pre x post (List.append_inj' heq rfl).1

theorem run_append (s : σ) (xs ys : List α) :
    run step s (xs ++ ys) = run step (run step s xs) ys :=
  List.foldl_append ..

theorem run_inv {I : σ → Prop} (hstep : ∀ s x, I s → I (step s x)) {s : σ}
    (h : I s) (xs : List α) : I (run step s xs) := by
  induction xs generalizing s with
  | nil => exact h
  | cons x xs ih => exact ih (hstep s x h)

theorem Meets.inv {C : σ → α → Prop} {I : σ → Prop}
    (hstep : ∀ s x, I s → C s x → I (step s x)) {s : σ} {xs : List α}
    (h : I s) (hC : Meets step C s xs) : I (run step s xs) := by
  induction xs generalizing s with
  | nil => exact h
  | cons x xs ih => exact ih (hstep s x h hC.1) hC.2

theorem Meets.take {C : σ → α → Prop} {s : σ} {xs : List α}
    (h : Meets step C s xs) (n : Nat) : Meets step C s (xs.take n) := by
  induction xs generalizing s n with
  | nil =>
      rw [List.take_nil]
      exact trivial
  | cons x xs ih =>
      cases n with
      | zero => exact trivial
      | succ n => exact ⟨h.1, ih h.2 n⟩

theorem meets_append {C : σ → α → Prop} (s : σ) (xs ys : List α) :
    Meets step C s (xs ++ ys) ↔ Meets step C s xs ∧ Meets step C (run step s xs) ys := by
  induction xs generalizing s with
  | nil => exact (and_iff_right trivial).symm
  | cons x xs ih => exact (and_congr Iff.rfl (ih (step s x))).trans and_assoc.symm

theorem Meets.of_mem {C : σ → α → Prop} {D : α → Prop} {s : σ} {xs : List α}
    (h : Meets step C s xs) (hD : ∀ x ∈ xs, D x) :
    Meets step (fun s x => D x ∧ C s x) s xs := by
  induction xs generalizing s with
  | nil => exact trivial
  | cons x xs ih =>
      exact ⟨⟨hD x List.mem_cons_self, h.1⟩,
        ih h.2 fun y hy => hD y (List.mem_cons_of_mem x hy)⟩

theorem Meets.congr {C D : σ → α → Prop} (h : ∀ s x, C s x ↔ D s x) {s : σ}
    {xs : List α} : Meets step C s xs ↔ Meets step D s xs := by
  induction xs generalizing s with
  | nil => exact Iff.rfl
  | cons x xs ih => exact and_congr (h s x) ih

theorem meets_true (s : σ) (xs : List α) : Meets step (fun _ _ => True) s xs := by
  induction xs generalizing s with
  | nil => exact trivial
  | cons x xs ih => exact ⟨trivial, ih (step s x)⟩

/-- Where `I` is kept by every action under `C`, and an action under `D` that does not
meet `C` ends `P` at once, `P` holds all along a run under `D` only if every action
met `C`. -/
theorem Meets.of_always {C D : σ → α → Prop} {I P : σ → Prop}
    (hstep : ∀ s x, I s → D s x → C s x → I (step s x))
    (hend : ∀ s x, I s → D s x → ¬ C s x → ¬ P (step s x)) {s : σ} (h : I s)
    {xs : List α} (hD : Meets step D s xs)
    (hall : ∀ n, P (run step s (xs.take n))) : Meets step C s xs := by
  induction xs generalizing s with
  | nil => trivial
  | cons x xs ih =>
      have hx : C s x := by
        by_contra hno
        exact hend s x h hD.1 hno (hall 1)
      exact ⟨hx, ih (hstep s x h hD.1 hx) hD.2 fun n => hall (n + 1)⟩

/-- Where moreover `I` carries `P`, and every action that does not meet `C` ends `P`,
`P` holds all along a run exactly if every action met `C`. -/
theorem Meets.always_iff {C : σ → α → Prop} {I P : σ → Prop} (hP : ∀ s, I s → P s)
    (hstep : ∀ s x, I s → C s x → I (step s x))
    (hend : ∀ s x, I s → ¬ C s x → ¬ P (step s x)) {s : σ} (h : I s) (xs : List α) :
    (∀ n, P (run step s (xs.take n))) ↔ Meets step C s xs := by
  constructor
  · exact Meets.of_always (fun s x hs _ => hstep s x hs) (fun s x hs _ => hend s x hs) h
      (meets_true s xs)
  · intro hmeets n
    exact hP _ (Meets.inv hstep h (hmeets.take n))

/-! ## Against a specification -/

variable {τ ω : Type}

/-- Along the run every call returns, shows what the specification shows, and leaves a
state that is related to its. A call that does not return gives nothing. -/
def Follows (react : σ → α → Option (σ × ω)) (spec : τ → α → τ × ω) (R : σ → τ → Prop) :
    σ → τ → List α → Prop
  | _, _, [] => True
  | s, t, x :: xs => ∃ s', react s x = some (s', (spec t x).2) ∧ R s' (spec t x).1 ∧
      Follows react spec R s' (spec t x).1 xs

/-- Where a call on related states goes on like this exactly if the specification's
state meets a condition, a run does exactly if every call met it. -/
theorem Follows.iff_meets {react : σ → α → Option (σ × ω)} {spec : τ → α → τ × ω}
    {R I : σ → τ → Prop} {C : τ → α → Prop} (hR : ∀ s t, I s t → R s t)
    (hstep : ∀ s t x, I s t → C t x →
      ∃ s', react s x = some (s', (spec t x).2) ∧ I s' (spec t x).1)
    (hend : ∀ s t x, I s t → ¬ C t x → ∀ s', react s x ≠ some (s', (spec t x).2))
    {s : σ} {t : τ} (h : I s t) (xs : List α) :
    Follows react spec R s t xs ↔ Meets (fun t x => (spec t x).1) C t xs := by
  induction xs generalizing s t with
  | nil => exact Iff.rfl
  | cons x xs ih =>
      rw [Follows, Meets]
      constructor
      · rintro ⟨s', hs', -, hrest⟩
        have hx : C t x := by
          by_contra hno
          exact hend s t x h hno s' hs'
        obtain ⟨s'', hs'', hI⟩ := hstep s t x h hx
        obtain rfl : s' = s'' := congrArg Prod.fst (Option.some.inj (hs'.symm.trans hs''))
        exact ⟨hx, (ih hI).mp hrest⟩
      · rintro ⟨hx, hrest⟩
        obtain ⟨s', hs', hI⟩ := hstep s t x h hx
        exact ⟨s', hs', hR _ _ hI, (ih hI).mpr hrest⟩

/-! ## Outputs -/

/-- What is shown along a run. -/
def outputs (react : σ → α → σ × ω) : σ → List α → List ω
  | _, [] => []
  | s, x :: xs => (react s x).2 :: outputs react (react s x).1 xs

/-- The last output is that of the last action. -/
theorem outputs_concat (react : σ → α → σ × ω) (s : σ) (xs : List α) (x : α) :
    outputs react s (xs ++ [x]) = outputs react s xs ++
      [(react (run (fun s x => (react s x).1) s xs) x).2] := by
  induction xs generalizing s with
  | nil => rfl
  | cons y ys ih =>
      rw [List.cons_append, outputs, outputs, ih]
      rfl

/-- What every action shows when the invariant holds is shown along the run. -/
theorem Meets.outputs_inv {react : σ → α → σ × ω} {C : σ → α → Prop} {I : σ → Prop}
    {Q : ω → Prop} (hstep : ∀ s x, I s → C s x → I (react s x).1 ∧ Q (react s x).2) {s : σ}
    {xs : List α} (hC : Meets (fun s x => (react s x).1) C s xs) (h : I s) :
    ∀ o ∈ outputs react s xs, Q o := by
  induction xs generalizing s with
  | nil => exact fun o ho => (by cases ho)
  | cons x xs ih =>
      obtain ⟨hnext, hQ⟩ := hstep s x h hC.1
      intro o ho
      rcases List.mem_cons.mp ho with rfl | ho
      · exact hQ
      · exact ih hC.2 hnext o ho

theorem outputs_inv {react : σ → α → σ × ω} {I : σ → Prop} {Q : ω → Prop}
    (hstep : ∀ s x, I s → I (react s x).1 ∧ Q (react s x).2) {s : σ} (h : I s)
    (xs : List α) : ∀ o ∈ outputs react s xs, Q o :=
  (meets_true s xs).outputs_inv (fun s x hs _ => hstep s x hs) h

theorem outputs_eq {react : σ → α → σ × ω} {R : σ → σ → Prop}
    (hR : ∀ s s' x, R s s' →
      R (react s x).1 (react s' x).1 ∧ (react s x).2 = (react s' x).2)
    {s s' : σ} (h : R s s') (xs : List α) :
    outputs react s xs = outputs react s' xs := by
  induction xs generalizing s s' with
  | nil => rfl
  | cons x xs ih =>
      obtain ⟨hnext, heq⟩ := hR s s' x h
      rw [outputs, outputs, heq, ih hnext]

end Runs
