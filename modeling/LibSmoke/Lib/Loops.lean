import Mathlib.Data.Nat.Init
import Mathlib.Order.Basic

/-!
# Loops

One round of a loop either leaves it or goes on in another state. A loop need not
end, so nothing here runs it: `after` is the state a number of rounds leads to, if
the loop is still going, and a loop `Ends` when for some number there is none.

`Shrinks` asks of every round that goes on that it makes a measure smaller, and a
loop of which this holds ends. A round that goes on in the same state leads to
the same round again, and neither holds.
-/

namespace Loops

variable {σ : Type} (round : σ → Option σ)

/-- The state after so many rounds, if the loop is still going. -/
def after : Nat → σ → Option σ
  | 0, s => some s
  | n + 1, s => (round s).bind (after n)

def Ends (s : σ) : Prop := ∃ n, after round n s = none

/-- Every round the loop comes to leaves it or makes `μ` smaller. -/
def Shrinks (μ : σ → Nat) (s : σ) : Prop :=
  ∀ n t u, after round n s = some t → round t = some u → μ u < μ t

variable {round}

theorem Shrinks.next {μ : σ → Nat} {s t : σ} (h : Shrinks round μ s)
    (ht : round s = some t) : Shrinks round μ t := by
  intro n u v hu hv
  refine h (n + 1) u v ?_ hv
  rw [after, ht]
  exact hu

theorem Shrinks.ends {μ : σ → Nat} {s : σ} (h : Shrinks round μ s) : Ends round s := by
  induction hlen : μ s using Nat.strongRecOn generalizing s with
  | ind k ih =>
      cases hs : round s with
      | none =>
          refine ⟨1, ?_⟩
          rw [after, hs]
          rfl
      | some t =>
          have hless : μ t < k := hlen ▸ h 0 s t rfl hs
          obtain ⟨n, hn⟩ := ih (μ t) hless (h.next hs) rfl
          refine ⟨n + 1, ?_⟩
          rw [after, hs]
          exact hn

/-- What a set of states the rounds stay in makes smaller. -/
theorem shrinks_of_inv {I : σ → Prop} {μ : σ → Nat}
    (hround : ∀ s t, I s → round s = some t → I t ∧ μ t < μ s) {s : σ} (hs : I s) :
    Shrinks round μ s := by
  intro n
  induction n generalizing s with
  | zero =>
      intro t u ht hu
      cases ht
      exact (hround s u hs hu).2
  | succ n ih =>
      intro t u ht hu
      rw [after, Option.bind_eq_some_iff] at ht
      obtain ⟨s', hs', ht⟩ := ht
      exact ih (hround s s' hs hs').1 t u ht hu

theorem after_of_fixed {s : σ} (h : round s = some s) (n : Nat) :
    after round n s = some s := by
  induction n with
  | zero => rfl
  | succ n ih =>
      rw [after, h]
      exact ih

/-- A round that changes nothing is done for ever. -/
theorem not_ends_of_fixed {s : σ} (h : round s = some s) : ¬ Ends round s := by
  rintro ⟨n, hn⟩
  rw [after_of_fixed h n] at hn
  cases hn

theorem not_ends_of_next {s t : σ} (h : round s = some t) (ht : ¬ Ends round t) :
    ¬ Ends round s := by
  rintro ⟨n, hn⟩
  cases n with
  | zero => cases hn
  | succ n =>
      refine ht ⟨n, ?_⟩
      rw [after, h] at hn
      exact hn

end Loops
