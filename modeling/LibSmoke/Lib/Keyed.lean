import Mathlib.Data.List.Basic
import Mathlib.Logic.Function.Basic

/-!
# Machines made of independent lanes

A machine that keeps one state per key, and whose every input names the key it
is for, is a family of machines that never meet: an input moves the lane it
names and leaves the others where they were. Whatever order the inputs of
different keys are mixed in, a lane sees its own inputs in their own order.

`run_lane` and `run_out` say so for the state a lane ends in and for what the
machine put out on its behalf. They turn a statement about every interleaving
of several senders into a statement about one sender.
-/

namespace Keyed

/-- What one lane does on one input, and which lane an input is for. -/
structure Machine (κ ι σ ω : Type) where
  key : ι → κ
  lane : σ → ι → σ × List ω

variable {κ ι σ ω : Type}

/-- One lane over the inputs meant for it. -/
def laneRun (M : Machine κ ι σ ω) : σ → List ι → σ × List ω
  | s, [] => (s, [])
  | s, x :: xs =>
      ((laneRun M (M.lane s x).1 xs).1,
        (M.lane s x).2 ++ (laneRun M (M.lane s x).1 xs).2)

theorem laneRun_append (M : Machine κ ι σ ω) (s : σ) (xs ys : List ι) :
    laneRun M s (xs ++ ys) =
      ((laneRun M (laneRun M s xs).1 ys).1,
        (laneRun M s xs).2 ++ (laneRun M (laneRun M s xs).1 ys).2) := by
  induction xs generalizing s with
  | nil => rfl
  | cons x xs ih =>
      rw [List.cons_append, laneRun, laneRun, ih, List.append_assoc]

variable [DecidableEq κ]

/-- One input moves its own lane. -/
def step (M : Machine κ ι σ ω) (f : κ → σ) (x : ι) : (κ → σ) × List ω :=
  (Function.update f (M.key x) (M.lane (f (M.key x)) x).1,
    (M.lane (f (M.key x)) x).2)

theorem step_self (M : Machine κ ι σ ω) (f : κ → σ) (x : ι) :
    (step M f x).1 (M.key x) = (M.lane (f (M.key x)) x).1 :=
  Function.update_self ..

theorem step_other (M : Machine κ ι σ ω) (f : κ → σ) {x : ι} {k : κ}
    (h : M.key x ≠ k) : (step M f x).1 k = f k :=
  Function.update_of_ne (Ne.symm h) ..

/-- All lanes over a mixed list of inputs. -/
def run (M : Machine κ ι σ ω) : (κ → σ) → List ι → (κ → σ) × List ω
  | f, [] => (f, [])
  | f, x :: xs =>
      ((run M (step M f x).1 xs).1,
        (step M f x).2 ++ (run M (step M f x).1 xs).2)

theorem run_append (M : Machine κ ι σ ω) (f : κ → σ) (xs ys : List ι) :
    run M f (xs ++ ys) =
      ((run M (run M f xs).1 ys).1, (run M f xs).2 ++ (run M (run M f xs).1 ys).2) := by
  induction xs generalizing f with
  | nil => rfl
  | cons x xs ih => rw [List.cons_append, run, run, ih, List.append_assoc]

/-- The inputs meant for one lane, in order. -/
def only (M : Machine κ ι σ ω) (k : κ) (xs : List ι) : List ι :=
  xs.filter fun x => M.key x = k

theorem only_append (M : Machine κ ι σ ω) (k : κ) (xs ys : List ι) :
    only M k (xs ++ ys) = only M k xs ++ only M k ys :=
  List.filter_append ..

theorem only_cons_self {M : Machine κ ι σ ω} {k : κ} {x : ι} (h : M.key x = k)
    (xs : List ι) : only M k (x :: xs) = x :: only M k xs := by
  rw [only, List.filter_cons_of_pos (by simpa using h)]
  rfl

theorem only_cons_other {M : Machine κ ι σ ω} {k : κ} {x : ι} (h : M.key x ≠ k)
    (xs : List ι) : only M k (x :: xs) = only M k xs := by
  rw [only, List.filter_cons_of_neg (by simpa using h)]
  rfl

/-- `xs` is an interleaving of the lists `f k`, one for each key: every element
carries its key, so this is to say that picking a key's elements out of `xs`
gives its list back, in its order. -/
def Mixes (M : Machine κ ι σ ω) (f : κ → List ι) (xs : List ι) : Prop :=
  ∀ k, only M k xs = f k

/-- A lane ends where its own inputs alone would have taken it. -/
theorem run_lane (M : Machine κ ι σ ω) (f : κ → σ) (xs : List ι) (k : κ) :
    (run M f xs).1 k = (laneRun M (f k) (only M k xs)).1 := by
  induction xs generalizing f with
  | nil => rfl
  | cons x xs ih =>
      rw [run, ih]
      by_cases hk : M.key x = k
      · subst hk
        rw [only_cons_self rfl, laneRun, step_self]
      · rw [only_cons_other hk, step_other M f hk]

/-- What was put out for a key is what its lane puts out on its own inputs, as
soon as outputs carry the key of the input that caused them. -/
theorem run_out (M : Machine κ ι σ ω) (okey : ω → κ)
    (hkey : ∀ s x, ∀ o ∈ (M.lane s x).2, okey o = M.key x)
    (f : κ → σ) (xs : List ι) (k : κ) :
    ((run M f xs).2.filter fun o => okey o = k) =
      (laneRun M (f k) (only M k xs)).2 := by
  induction xs generalizing f with
  | nil => rfl
  | cons x xs ih =>
      rw [run, List.filter_append, ih]
      by_cases hk : M.key x = k
      · subst hk
        have hmine : ((step M f x).2.filter fun o => okey o = M.key x) =
            (M.lane (f (M.key x)) x).2 :=
          List.filter_eq_self.mpr fun o ho => by simpa using hkey _ x o ho
        rw [only_cons_self rfl, laneRun, step_self, hmine]
      · have hnone : ((step M f x).2.filter fun o => okey o = k) = [] :=
          List.filter_eq_nil_iff.mpr fun o ho => by
            simpa using fun h => hk ((hkey _ x o ho).symm.trans h)
        rw [only_cons_other hk, step_other M f hk, hnone, List.nil_append]

/-- Inputs of one key alone: the machine is that lane. -/
theorem run_one (M : Machine κ ι σ ω) (f : κ → σ) {xs : List ι} {k : κ}
    (h : ∀ x ∈ xs, M.key x = k) :
    (run M f xs).2 = (laneRun M (f k) xs).2 := by
  induction xs generalizing f with
  | nil => rfl
  | cons x xs ih =>
      obtain rfl := h x List.mem_cons_self
      rw [run, laneRun, ih _ fun y hy => h y (List.mem_cons_of_mem x hy),
        step_self]
      rfl

end Keyed
