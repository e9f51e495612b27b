import LibSmoke.Lib.Runs
import Mathlib.Data.List.Count
import Mathlib.Data.List.Induction
import Mathlib.Data.List.Perm.Basic

/-!
# Things that are acquired and released

A history of what was acquired and released. `held` is what is held after it,
and a history is `Proper` if only what was held was ever released.

`Proper.release_all` is what the owner of several things needs: if the things
are part of what is held, releasing them one by one is proper and leaves the
rest.
-/

namespace Custody

inductive Call (α : Type)
  | acquired (a : α)
  | released (a : α)
  deriving DecidableEq

variable {α : Type} [DecidableEq α]

/-- What is held after `h` was and a call was made. -/
def after (h : List α) : Call α → List α
  | .acquired a => a :: h
  | .released a => h.erase a

def held (calls : List (Call α)) : List α := calls.foldl after []

/-- Whatever is released is held. -/
def Proper (calls : List (Call α)) : Prop :=
  ∀ before a rest, calls = before ++ Call.released a :: rest → a ∈ held before

theorem held_concat (calls : List (Call α)) (c : Call α) :
    held (calls ++ [c]) = after (held calls) c := by
  rw [held, List.foldl_append]
  rfl

theorem Proper.nil : Proper ([] : List (Call α)) := by
  intro before a rest h
  have hlen := congrArg List.length h
  simp at hlen

theorem Proper.of_append {calls more : List (Call α)} (h : Proper (calls ++ more)) :
    Proper calls := by
  intro before a rest hsplit
  refine h before a (rest ++ more) ?_
  rw [hsplit, List.append_assoc, List.cons_append]

theorem Proper.concat {calls : List (Call α)} {c : Call α} (h : Proper calls)
    (hc : ∀ a, c = .released a → a ∈ held calls) : Proper (calls ++ [c]) := by
  intro before a rest hsplit
  have hsplits := Runs.forall_split_concat
    (P := fun before c => ∀ a, c = .released a → a ∈ held before)
    (fun before c rest hsplit a hrel => h before a rest (hrel ▸ hsplit)) hc
  exact hsplits before (.released a) rest hsplit a rfl

theorem Proper.acquire {calls : List (Call α)} (h : Proper calls) (a : α) :
    Proper (calls ++ [.acquired a]) := by
  refine h.concat ?_
  intro b hb
  cases hb

theorem not_proper_of_not_held {calls : List (Call α)} {a : α}
    (h : a ∉ held calls) (rest : List (Call α)) :
    ¬ Proper (calls ++ .released a :: rest) :=
  fun hproper => h (hproper calls a rest rfl)

/-- Releasing things that are held, one by one. -/
theorem Proper.release_all {calls : List (Call α)} (h : Proper calls)
    (gone kept : List α) (hheld : (held calls).Perm (gone ++ kept)) :
    Proper (calls ++ gone.map .released) ∧
      (held (calls ++ gone.map .released)).Perm kept := by
  induction gone generalizing calls with
  | nil =>
      rw [List.map_nil, List.append_nil]
      exact ⟨h, hheld⟩
  | cons a gone ih =>
      have hmem : a ∈ held calls := hheld.symm.subset List.mem_cons_self
      have hone : Proper (calls ++ [.released a]) := by
        refine h.concat ?_
        rintro b ⟨⟩
        exact hmem
      have hrest : (held (calls ++ [.released a])).Perm (gone ++ kept) := by
        rw [held_concat]
        have herase := hheld.erase a
        rwa [List.cons_append, List.erase_cons_head] at herase
      rw [List.map_cons, List.append_cons]
      exact ih hone hrest

/-- What was released and what is held is what was acquired. -/
theorem Proper.count {calls : List (Call α)} (h : Proper calls) (a : α) :
    calls.count (.released a) + (held calls).count a =
      calls.count (.acquired a) := by
  induction calls using List.reverseRecOn with
  | nil => rfl
  | append_singleton calls c ih =>
      have hbefore := ih h.of_append
      rw [held_concat, List.count_append, List.count_append]
      cases c with
      | acquired b =>
          rw [after, List.count_cons]
          by_cases hb : b = a
          · subst hb
            simp
            omega
          · simp [hb]
            omega
      | released b =>
          have hmem := h calls b [] rfl
          rw [after, List.count_erase]
          by_cases hb : b = a
          · subst hb
            have hpos := List.count_pos_iff.mpr hmem
            simp
            omega
          · simp [hb]
            omega

end Custody
