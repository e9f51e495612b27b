import Mathlib.Data.List.Basic

/-!
# A bounded queue

What a first-in first-out buffer is for, told of a list: elements are appended when
there is room for all of them, and the oldest are shown or taken away when there are
that many. A call that does not find this changes nothing.
-/

namespace Fifo

/-- A call; `write` is told where the elements are, and how many. -/
inductive Op (α : Type)
  | write (d : Nat → α) (len : Nat)
  | peek (len : Nat)
  | remove (len : Nat)
  | read (len : Nat)

/-- What a call shows. -/
inductive Result (α : Type)
  | ended (ok : Bool)
  | got (data : Option (List α))
  deriving DecidableEq

variable {α : Type}

/-- The elements that `write` is given. -/
def elems (d : Nat → α) (len : Nat) : List α := (List.range len).map d

@[simp] theorem length_elems (d : Nat → α) (len : Nat) : (elems d len).length = len := by
  rw [elems, List.length_map, List.length_range]

theorem elems_append (d : Nat → α) (m n : Nat) :
    elems d (m + n) = elems d m ++ elems (fun i => d (m + i)) n := by
  rw [elems, List.range_add, List.map_append, List.map_map]
  rfl

/-- One call on the queue. -/
def step (cap : Nat) (q : List α) : Op α → List α × Result α
  | .write d len =>
      if q.length + len ≤ cap then (q ++ elems d len, .ended true) else (q, .ended false)
  | .peek len => (q, .got (if len ≤ q.length then some (q.take len) else none))
  | .remove len =>
      if len ≤ q.length then (q.drop len, .ended true) else (q, .ended false)
  | .read len =>
      if len ≤ q.length then (q.drop len, .got (some (q.take len))) else (q, .got none)

end Fifo
