import LibSmoke.Knx.Telegram

/-!
# Backends

What the packet layer asks of a link: to move telegrams between the device and
the wire (`update`), to take one over for sending, and to hand out one of those
it holds. `read` hands out nothing when it fails, and the caller of the source
is then left with the telegram it had constructed to read into.

The packet layer reads while `count` is positive, so whether its loop ends is
up to the backend. `Steady` names the states from which it does: a read with
something on hand succeeds and takes one away. `drain` is what such a loop
reads.
-/

namespace LibSmoke

/-- `Backend`; what an `update` meets on the wire is an event `ε`. -/
structure Backend (β ε : Type) where
  update : ε → β → β × Bool
  broadcast : β → Telegram → β × Bool
  read : β → β × Option Telegram
  count : β → Nat

namespace Backend

variable {β ε : Type} (B : Backend β ε)

/-- Reading on hand telegrams succeeds, and keeps on doing so. -/
structure Steady (I : β → Prop) : Prop where
  update : ∀ {b} e, I b → I (B.update e b).1
  broadcast : ∀ {b} t, I b → I (B.broadcast b t).1
  read : ∀ {b}, I b → 0 < B.count b →
    I (B.read b).1 ∧ (B.read b).2.isSome ∧ B.count (B.read b).1 + 1 = B.count b

/-- Send the telegrams of a queue, front first; what `broadcast` answers is not
looked at. -/
def flush : List Telegram → β → β
  | [], b => b
  | t :: ts, b => flush ts (B.broadcast b t).1

/-- Everything on hand, front first, and the backend afterwards. -/
def drain : Nat → β → β × List Telegram
  | 0, b => (b, [])
  | n + 1, b =>
      ((drain n (B.read b).1).1,
        (B.read b).2.toList ++ (drain n (B.read b).1).2)

/-- The telegrams read over successive updates in which nothing is sent, each
followed by reading everything on hand. -/
def received : List ε → β → List Telegram
  | [], _ => []
  | e :: es, b =>
      let b := (B.update e b).1
      (drain B (B.count b) b).2 ++ received es (drain B (B.count b) b).1

variable {B} {I : β → Prop}

theorem Steady.flush (h : Steady B I) (ts : List Telegram) {b : β} (hb : I b) :
    I (B.flush ts b) := by
  induction ts generalizing b with
  | nil => exact hb
  | cons t ts ih => exact ih (h.broadcast t hb)

theorem Steady.drain (h : Steady B I) {b : β} (hb : I b) :
    I (B.drain (B.count b) b).1 ∧ B.count (B.drain (B.count b) b).1 = 0 := by
  induction hn : B.count b generalizing b with
  | zero => exact ⟨hb, hn⟩
  | succ n ih =>
      obtain ⟨hI, -, hcount⟩ := h.read hb (by omega)
      exact ih hI (by omega)

end Backend

/-- A link in memory: an update brings the telegrams its event carries, and
what is sent piles up. The first list is on hand, the second was sent. -/
def mailbox : Backend (List Telegram × List Telegram) (List Telegram) where
  update := fun ts b => ((b.1 ++ ts, b.2), true)
  broadcast := fun b t => ((b.1, b.2 ++ [t]), true)
  read := fun b =>
    match b.1 with
    | [] => (b, none)
    | t :: ts => ((ts, b.2), some t)
  count := fun b => b.1.length

theorem mailbox_steady : mailbox.Steady fun _ => True where
  update := fun _ _ => trivial
  broadcast := fun _ _ => trivial
  read := fun {b} _ h => by
    obtain ⟨_ | ⟨t, ts⟩, out⟩ := b
    · cases h
    · exact ⟨trivial, rfl, rfl⟩

theorem mailbox_flush (ts on out : List Telegram) :
    mailbox.flush ts (on, out) = (on, out ++ ts) := by
  induction ts generalizing out with
  | nil => rw [List.append_nil]; rfl
  | cons t ts ih =>
      show mailbox.flush ts (on, out ++ [t]) = _
      rw [ih, List.append_assoc]
      rfl

theorem mailbox_drain (ts out : List Telegram) :
    mailbox.drain ts.length (ts, out) = (([], out), ts) := by
  induction ts with
  | nil => rfl
  | cons t ts ih =>
      rw [List.length_cons, Backend.drain]
      show ((mailbox.drain ts.length (ts, out)).1,
        [t] ++ (mailbox.drain ts.length (ts, out)).2) = _
      rw [ih]
      rfl

end LibSmoke
