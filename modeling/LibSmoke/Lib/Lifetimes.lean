import LibSmoke.Lib.Runs
import Mathlib.Data.List.Induction

/-!
# A resource over its lifetimes

What has to be initialised before it is used, and freed before it is initialised
again. The calls made on it are listed, and `Kept` says that each of them came when
it was live, or, where it is initialised, when it was not. If it is not live at the
end either, every lifetime was closed once and nothing was done outside of one
(`Kept.wellUsed`).

A `Handle` is a context with the calls made on it so far. What a call does to the
context is the caller's.
-/

namespace Lifetimes

inductive Call (α : Type)
  | init (ok : Bool)
  | use (a : α)
  | free
  deriving DecidableEq

namespace Call

variable {α : Type}

def isInit : Call α → Bool
  | init _ => true
  | _ => false

def isUse : Call α → Bool
  | use _ => true
  | _ => false

def isFree : Call α → Bool
  | free => true
  | _ => false

end Call

variable {α : Type}

/-- Whether the resource is live after a call. -/
def after (live : Bool) : Call α → Bool
  | .init ok => ok
  | .use _ => live
  | .free => false

def live (calls : List (Call α)) : Bool := Runs.run after false calls

/-- A call finds the resource as it has to be for it. -/
def Fits (live : Bool) : Call α → Prop
  | .init _ => live = false
  | .use _ => live = true
  | .free => live = true

def Kept (calls : List (Call α)) : Prop := Runs.Meets after Fits false calls

theorem live_concat (calls : List (Call α)) (c : Call α) :
    live (calls ++ [c]) = after (live calls) c := Runs.run_append false calls [c]

theorem Kept.nil : Kept ([] : List (Call α)) := trivial

theorem Kept.concat {calls : List (Call α)} (h : Kept calls) {c : Call α}
    (hc : Fits (live calls) c) : Kept (calls ++ [c]) :=
  (Runs.meets_append false calls [c]).mpr ⟨h, hc, trivial⟩

theorem Kept.split {before rest : List (Call α)} {c : Call α}
    (h : Kept (before ++ c :: rest)) :
    Fits (live before) c ∧ Runs.Meets after Fits (after (live before) c) rest :=
  ((Runs.meets_append false before (c :: rest)).mp h).2

/-! ## Lifetimes -/

/-- After these calls the resource is in a lifetime: it was initialised, and was only
used since. -/
def Inited (calls : List (Call α)) : Prop :=
  ∃ old uses, calls = old ++ .init true :: uses ∧ ∀ c ∈ uses, c.isUse = true

/-- Every lifetime is closed once, and before the resource is initialised again;
nothing is freed or used outside of one. -/
structure WellUsed (calls : List (Call α)) : Prop where
  freed_once : ∀ before rest, calls = before ++ .init true :: rest →
    (rest.takeWhile fun c => !c.isInit).countP Call.isFree = 1
  freed_inited : ∀ before rest, calls = before ++ .free :: rest → Inited before
  used_inited : ∀ before a rest, calls = before ++ .use a :: rest → Inited before

theorem Inited.of_live {calls : List (Call α)} (h : live calls = true) : Inited calls := by
  induction calls using List.reverseRecOn with
  | nil => cases h
  | append_singleton calls c ih =>
      rw [live_concat] at h
      cases c with
      | init ok =>
          obtain rfl : ok = true := h
          exact ⟨calls, [], rfl, fun c hc => by cases hc⟩
      | use a =>
          obtain ⟨old, uses, rfl, huses⟩ := ih h
          refine ⟨old, uses ++ [.use a], by rw [List.append_assoc, List.cons_append], ?_⟩
          intro c hc
          rcases List.mem_append.mp hc with hc | hc
          · exact huses c hc
          · rw [List.mem_singleton.mp hc]
            rfl
      | free => cases h

/-- Up to the next initialisation what is live is freed once, and what is not live is
not freed. -/
theorem countP_free {b : Bool} {calls : List (Call α)} (h : Runs.Meets after Fits b calls)
    (hend : Runs.run after b calls = false) :
    (calls.takeWhile fun c => !c.isInit).countP Call.isFree = if b then 1 else 0 := by
  induction calls generalizing b with
  | nil =>
      obtain rfl : b = false := hend
      rfl
  | cons c calls ih =>
      have hrest := ih h.2 hend
      cases c with
      | init ok =>
          obtain rfl : b = false := h.1
          rfl
      | use a =>
          obtain rfl : b = true := h.1
          rw [List.takeWhile_cons_of_pos rfl, List.countP_cons_of_neg (by exact Bool.false_ne_true)]
          exact hrest
      | free =>
          obtain rfl : b = true := h.1
          rw [List.takeWhile_cons_of_pos rfl, List.countP_cons_of_pos rfl, hrest]
          rfl

theorem Kept.wellUsed {calls : List (Call α)} (h : Kept calls) (hend : live calls = false) :
    WellUsed calls where
  freed_once := by
    rintro before rest rfl
    refine countP_free h.split.2 ?_
    exact (Runs.run_append false before (.init true :: rest)).symm.trans hend
  freed_inited := by
    rintro before rest rfl
    exact .of_live h.split.1
  used_inited := by
    rintro before a rest rfl
    exact .of_live h.split.1

/-! ## A context and its calls -/

/-- A call that was made: what was called, the context it was given, and the error if
it failed. -/
structure Made (O C ε : Type) where
  op : O
  ctx : C
  err : Option ε

structure Handle (O C ε : Type) where
  ctx : C
  calls : List (Call (Made O C ε))

variable {O C ε β : Type}

def failure : Except ε β → Option ε
  | .error e => some e
  | .ok _ => none

namespace Handle

def init (f : C → C × Except ε Unit) (h : Handle O C ε) : Handle O C ε × Except ε Unit :=
  let r := f h.ctx
  (⟨r.1, h.calls ++ [.init (failure r.2).isNone]⟩, r.2)

def use (op : O) (f : C → C × Except ε β) (h : Handle O C ε) :
    Handle O C ε × Except ε β :=
  let r := f h.ctx
  (⟨r.1, h.calls ++ [.use ⟨op, h.ctx, failure r.2⟩]⟩, r.2)

def free (f : C → C) (h : Handle O C ε) : Handle O C ε := ⟨f h.ctx, h.calls ++ [.free]⟩

/-- The calls so far were in order, and the context is live or not. -/
def Sound (h : Handle O C ε) (isLive : Bool) : Prop :=
  Kept h.calls ∧ live h.calls = isLive

variable {h : Handle O C ε}

theorem Sound.init (hs : h.Sound false) (f : C → C × Except ε Unit) :
    (h.init f).1.Sound (failure (h.init f).2).isNone :=
  ⟨hs.1.concat hs.2, live_concat ..⟩

theorem Sound.use (hs : h.Sound true) (op : O) (f : C → C × Except ε β) :
    (h.use op f).1.Sound true :=
  ⟨hs.1.concat hs.2, (live_concat ..).trans hs.2⟩

theorem Sound.free (hs : h.Sound true) (f : C → C) : (h.free f).Sound false :=
  ⟨hs.1.concat hs.2, live_concat ..⟩

/-- The calls of a use are those before it and one more. -/
theorem mem_use {op : O} {f : C → C × Except ε β} {u : Made O C ε} :
    .use u ∈ (h.use op f).1.calls ↔
      .use u ∈ h.calls ∨ u = ⟨op, h.ctx, failure (h.use op f).2⟩ := by
  show Call.use u ∈ h.calls ++ [_] ↔ _
  rw [List.mem_append, List.mem_singleton, Call.use.injEq]
  rfl

theorem mem_init {f : C → C × Except ε Unit} {u : Made O C ε} :
    .use u ∈ (h.init f).1.calls ↔ .use u ∈ h.calls := by
  show Call.use u ∈ h.calls ++ [_] ↔ _
  simp

theorem mem_free {f : C → C} {u : Made O C ε} :
    .use u ∈ (h.free f).calls ↔ .use u ∈ h.calls := by
  show Call.use u ∈ h.calls ++ [_] ↔ _
  simp

end Handle

end Lifetimes
