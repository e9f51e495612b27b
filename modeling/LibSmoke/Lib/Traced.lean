import Mathlib.Data.List.Basic

/-!
# Computations with a log

A computation that can fail and logs what it does on the way, the log being kept
where it fails. `All` says of every entry that it has some property, and
`all_bind` is the rule for a sequence: the second part is asked only for what the
first one returns.
-/

structure Traced (ω ε α : Type) where
  log : List ω
  result : Except ε α

namespace Traced

variable {ω ε α β : Type}

/-- A computation that logs nothing. -/
def lift (r : Except ε α) : Traced ω ε α := ⟨[], r⟩

def tell (o : ω) (a : α) : Traced ω ε α := ⟨[o], .ok a⟩

def bind (x : Traced ω ε α) (f : α → Traced ω ε β) : Traced ω ε β :=
  match x.result with
  | .error e => ⟨x.log, .error e⟩
  | .ok a => ⟨x.log ++ (f a).log, (f a).result⟩

instance : Monad (Traced ω ε) where
  pure a := lift (.ok a)
  bind := bind

def All (P : ω → Prop) (x : Traced ω ε α) : Prop := ∀ o ∈ x.log, P o

instance {P : ω → Prop} [DecidablePred P] (x : Traced ω ε α) : Decidable (x.All P) :=
  inferInstanceAs (Decidable (∀ o ∈ x.log, P o))

variable {P : ω → Prop}

@[simp] theorem all_lift (r : Except ε α) : (lift r : Traced ω ε α).All P :=
  fun o h => (by cases h)

@[simp] theorem all_pure (a : α) : (pure a : Traced ω ε α).All P :=
  fun o h => (by cases h)

@[simp] theorem all_tell (o : ω) (a : α) : (tell o a : Traced ω ε α).All P ↔ P o :=
  List.forall_mem_singleton

@[simp] theorem result_lift (r : Except ε α) : (lift r : Traced ω ε α).result = r := rfl

@[simp] theorem result_pure (a : α) : (pure a : Traced ω ε α).result = .ok a := rfl

theorem result_bind (x : Traced ω ε α) (f : α → Traced ω ε β) :
    (x >>= f).result = x.result >>= fun a => (f a).result := by
  show (Traced.bind x f).result = _
  unfold Traced.bind
  cases x.result <;> rfl

@[simp] theorem result_tell_bind (o : ω) (a : α) (f : α → Traced ω ε β) :
    (tell o a >>= f).result = (f a).result := rfl

theorem result_ite (c : Prop) [Decidable c] (x y : Traced ω ε α) :
    (if c then x else y).result = if c then x.result else y.result :=
  apply_ite ..

theorem all_bind {x : Traced ω ε α} {f : α → Traced ω ε β} :
    (x >>= f).All P ↔ x.All P ∧ ∀ a, x.result = .ok a → (f a).All P := by
  show (∀ o ∈ (Traced.bind x f).log, P o) ↔ _
  unfold Traced.bind
  cases h : x.result with
  | error e => exact ⟨fun hx => ⟨hx, fun a ha => (by cases ha)⟩, fun hx => hx.1⟩
  | ok a =>
      simp only [List.forall_mem_append]
      refine and_congr Iff.rfl ⟨fun hf b hb => ?_, fun hf => hf a rfl⟩
      cases hb
      exact hf

@[simp] theorem all_tell_bind (o : ω) (a : α) (f : α → Traced ω ε β) :
    (tell o a >>= f).All P ↔ P o ∧ (f a).All P :=
  all_bind.trans (and_congr (all_tell o a) ⟨fun h => h a rfl, fun h b hb => by cases hb; exact h⟩)

theorem bind_assoc {γ : Type} (x : Traced ω ε α) (f : α → Traced ω ε β)
    (h : β → Traced ω ε γ) : x >>= f >>= h = x >>= fun a => f a >>= h := by
  show Traced.bind (Traced.bind x f) h = Traced.bind x fun a => Traced.bind (f a) h
  unfold Traced.bind
  cases x.result with
  | error e => rfl
  | ok a =>
      simp only []
      cases (f a).result with
      | error e => rfl
      | ok b => simp only [List.append_assoc]

/-- What a sequence returns comes from what its first part returned. -/
theorem ok_of_bind {x : Traced ω ε α} {f : α → Traced ω ε β} {b : β}
    (h : (x >>= f).result = .ok b) : ∃ a, x.result = .ok a ∧ (f a).result = .ok b := by
  rw [result_bind] at h
  cases hx : x.result with
  | error e => rw [hx] at h; cases h
  | ok a => rw [hx] at h; exact ⟨a, rfl, h⟩

end Traced
