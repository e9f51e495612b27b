import LibSmoke.Lib.Custody
import LibSmoke.Smoke.Rounds

/-!
# The descriptors of the server

Here a client is its descriptor, and every descriptor the server is given and
every `close` is kept as history.

`shutdown` closes `_sock` whatever it holds, and the destructor calls it again:
a server that was shut down before, or never got ready, closes a descriptor that
is not its own (`shutdown_twice`). A client whose descriptor is 0 is removed
without a `close`, and a record deleted because `accept` failed is put into the
list all the same. Where a server is shut down only while it is ready, and
neither of the other two happens, its descriptors are handled as they should be
(`descriptors_released`).
-/

namespace LibSmoke

open Custody

/-- The server with `_sock`, which no constructor sets. -/
structure Descriptors where
  server : ServerSmoke Int
  sock : Int
  calls : List (Call Int)

namespace Descriptors

/-- `init` with what `socket` gives and whether `bind` and `listen` succeed;
`run` with what `accept` gives if somebody connects, what can be read off the
clients and how much of the `k`-th message of the round each of them takes. -/
inductive Op
  | init (fd : Int) (bound listening : Bool)
  | run (accept : Option Int) (recv : Int → Option (List UInt8))
      (send : Int → Nat → Nat)
  | shutdown

/-- What the system answers: a descriptor that is not in use, or -1. -/
def given (s : Descriptors) (fd : Int) : Int :=
  if 0 ≤ fd ∧ fd ∉ Custody.held s.calls then fd else -1

def new (junk : Int) : Descriptors := ⟨ServerSmoke.new, junk, []⟩

/-- `init`: a socket that cannot be bound or listened on is closed again. -/
def init (fd : Int) (bound listening : Bool) (s : Descriptors) : Descriptors :=
  if s.server.ready then s
  else
    let sock := s.given fd
    if sock < 0 then ⟨(s.server.init false).1, sock, s.calls⟩
    else if !bound || !listening then
      ⟨(s.server.init false).1, sock, s.calls ++ [.acquired sock, .released sock]⟩
    else ⟨(s.server.init true).1, sock, s.calls ++ [.acquired sock]⟩

/-- The loop that registers the sockets. -/
def register (server : ServerSmoke Int) : ServerSmoke Int :=
  { server with
    clients := server.clients.map fun c =>
      if c.sock = -1 then { c with mustDelete := true } else c }

/-- What a round meets. Nothing is read off -1 or sent to it. -/
def roundOf (s : Descriptors) (accept : Option Int)
    (recv : Int → Option (List UInt8)) (send : Int → Nat → Nat) : Round Int where
  accept := accept.map s.given
  recv := fun x => if x = -1 then none else recv x
  send := fun x k => if x = -1 then 0 else send x k

/-- The record of a failed `accept` is deleted and used on, here as it was. -/
def run (accept : Option Int) (recv : Int → Option (List UInt8))
    (send : Int → Nat → Nat) (s : Descriptors) : Descriptors :=
  let e := s.roundOf accept recv send
  let server := register s.server
  if s.server.ready = false then s
  else if server.wakes e then
    let new := (e.accept.filter fun fd => 0 ≤ fd).toList
    let gone := (server.flagged e).filter fun c => c.mustDelete && decide (0 < c.sock)
    ⟨(server.run e).1, s.sock,
      s.calls ++ new.map .acquired ++ (gone.map Client.sock).map .released⟩
  else { s with server := server }

def shutdown (s : Descriptors) : Descriptors :=
  ⟨{ s.server with ready := false, clients := [] }, s.sock,
    s.calls ++ (s.sock :: s.server.clients.map Client.sock).map .released⟩

/-- The destructor. -/
def destroy (s : Descriptors) : Descriptors := s.shutdown

def step (s : Descriptors) : Op → Descriptors
  | .init fd bound listening => s.init fd bound listening
  | .run accept recv send => s.run accept recv send
  | .shutdown => s.shutdown

/-- The client with descriptor 0, if there is one, stays. -/
def KeepsZero (s : Descriptors) (e : Round Int) : Prop :=
  (0 ∈ s.server.clients.map Client.sock → e.recv 0 ≠ some []) ∧
  (0 ∈ s.server.clients.map Client.sock ∨ e.accept = some 0 →
    ServerSmoke.short e 0 (s.server.reads e) 0 = false)

/-- A server is shut down only while it is ready; and in a round of a ready
server `accept` does not fail and no client with descriptor 0 is removed. -/
def Careful (s : Descriptors) : Op → Prop
  | .init .. => True
  | .run accept recv send =>
      s.server.ready = true →
        (∀ fd ∈ accept, 0 ≤ s.given fd) ∧ s.KeepsZero (s.roundOf accept recv send)
  | .shutdown => s.server.ready = true

instance (s : Descriptors) (e : Round Int) : Decidable (s.KeepsZero e) :=
  inferInstanceAs (Decidable (_ ∧ _))

instance (s : Descriptors) : ∀ op, Decidable (s.Careful op)
  | .init .. => .isTrue trivial
  | .run .. => inferInstanceAs (Decidable (_ → _ ∧ _))
  | .shutdown => inferInstanceAs (Decidable (_ = _))

/-- What a ready server holds is its socket and those of its clients. -/
structure Inv (s : Descriptors) : Prop where
  tidy : s.server.Tidy
  proper : Proper s.calls
  valid : ∀ x ∈ s.server.clients.map Client.sock, 0 ≤ x
  ready : s.server.ready = true →
    (Custody.held s.calls).Perm (s.sock :: s.server.clients.map Client.sock)
  idle : s.server.ready = false → Custody.held s.calls = [] ∧ s.server.clients = []

theorem given_cases (s : Descriptors) (fd : Int) :
    s.given fd = fd ∧ 0 ≤ fd ∧ fd ∉ Custody.held s.calls ∨ s.given fd = -1 := by
  rw [given]
  split
  · next h => exact .inl ⟨rfl, h.1, h.2⟩
  · exact .inr rfl

theorem new_inv (junk : Int) : (new junk).Inv where
  tidy := ⟨List.nodup_nil, fun c hc => absurd hc List.not_mem_nil, rfl⟩
  proper := Proper.nil
  valid := by
    intro x hx
    cases hx
  ready := by
    intro h
    cases h
  idle := fun _ => ⟨rfl, rfl⟩

theorem server_init {s : ServerSmoke Int} (h : s.ready = false) (b : Bool) :
    (s.init b).1 = { s with ready := b } := by
  rw [ServerSmoke.init, if_neg (by simp [h])]
  cases b <;> rfl

theorem init_inv (fd : Int) (bound listening : Bool) {s : Descriptors}
    (h : s.Inv) : (s.init fd bound listening).Inv := by
  rw [init]
  cases hready : s.server.ready with
  | true => simpa using h
  | false =>
      obtain ⟨hheld, hnobody⟩ := h.idle hready
      have hacquired : Proper (s.calls ++ [Call.acquired (s.given fd)]) :=
        h.proper.acquire _
      have hheld' : Custody.held (s.calls ++ [Call.acquired (s.given fd)]) =
          [s.given fd] := by
        rw [held_concat, hheld]
        rfl
      simp only [server_init hready, Bool.false_eq_true, if_false]
      split
      · exact ⟨⟨h.tidy.nodup, h.tidy.kept, h.tidy.queue⟩, h.proper, h.valid,
          fun hno => Bool.noConfusion hno, fun _ => ⟨hheld, hnobody⟩⟩
      · split
        · have hboth := hacquired.release_all [s.given fd] []
            (by rw [hheld']; rfl)
          rw [List.append_cons]
          exact ⟨⟨h.tidy.nodup, h.tidy.kept, h.tidy.queue⟩, hboth.1, h.valid,
            fun hno => Bool.noConfusion hno,
            fun _ => ⟨hboth.2.eq_nil, hnobody⟩⟩
        · refine ⟨⟨h.tidy.nodup, h.tidy.kept, h.tidy.queue⟩, hacquired, h.valid,
            fun _ => ?_, fun hno => Bool.noConfusion hno⟩
          simp only [hheld', hnobody, List.map_nil, List.Perm.refl]

theorem shutdown_inv {s : Descriptors} (h : s.Inv)
    (hready : s.server.ready = true) : s.shutdown.Inv := by
  have hall := h.proper.release_all (s.sock :: s.server.clients.map Client.sock) []
    (by rw [List.append_nil]; exact h.ready hready)
  refine ⟨⟨List.nodup_nil, fun c hc => absurd hc List.not_mem_nil, h.tidy.queue⟩,
    hall.1, ?_, fun hno => Bool.noConfusion hno, fun _ => ⟨hall.2.eq_nil, rfl⟩⟩
  intro x hx
  cases hx

theorem register_eq {s : Descriptors} (h : s.Inv) : register s.server = s.server := by
  have hclients : (s.server.clients.map fun c =>
      if c.sock = -1 then { c with mustDelete := true } else c) =
      s.server.clients := by
    refine (List.map_congr_left fun c hc => ?_).trans (List.map_id _)
    have hpos := h.valid c.sock (List.mem_map_of_mem hc)
    rw [if_neg (by omega), id]
  rw [register, hclients]

/-- Every client that is to be deleted has a descriptor that gets closed. -/
theorem pos_of_flagged {s : Descriptors} (h : s.Inv) {e : Round Int}
    (hnew : ∀ x ∈ e.accept, 0 ≤ x) (hzero : s.KeepsZero e) {c : Client Int}
    (hc : c ∈ s.server.flagged e) (hdel : c.mustDelete = true) : 0 < c.sock := by
  rw [ServerSmoke.flagged_eq e h.tidy] at hc
  rcases List.mem_append.mp hc with hc | hc
  · obtain ⟨c, hold, rfl⟩ := List.mem_map.mp hc
    have hmem := List.mem_map_of_mem (f := Client.sock) hold
    have hne : c.sock ≠ 0 := by
      intro heq
      rw [heq] at hmem
      rw [ServerSmoke.mark, h.tidy.kept c hold, Bool.false_or, heq,
        hzero.2 (.inl hmem), Bool.or_false, ServerSmoke.closed_iff] at hdel
      exact hzero.1 hmem hdel
    exact lt_of_le_of_ne (h.valid c.sock hmem) hne.symm
  · obtain ⟨c, hold, rfl⟩ := List.mem_map.mp hc
    obtain ⟨x, hx, rfl⟩ := Option.map_eq_some_iff.mp (Option.mem_toList.mp hold)
    have hne : x ≠ 0 := by
      rintro rfl
      rw [ServerSmoke.mark, hzero.2 (.inr hx)] at hdel
      cases hdel
    exact lt_of_le_of_ne (hnew x hx) hne.symm

/-- A round of a ready server: what it accepts it holds from then on, and what
it removes it closes. -/
theorem round_inv {s : Descriptors} (h : s.Inv) (hready : s.server.ready = true)
    {e : Round Int} (hwake : s.server.wakes e = true)
    (hnew : ∀ x ∈ e.accept, 0 ≤ x ∧ x ∉ Custody.held s.calls)
    (hzero : s.KeepsZero e) :
    Inv ⟨(s.server.run e).1, s.sock,
      s.calls ++ (e.accept.filter fun fd => 0 ≤ fd).toList.map .acquired ++
        (((s.server.flagged e).filter fun c =>
          c.mustDelete && decide (0 < c.sock)).map Client.sock).map .released⟩ := by
  have hfresh : ∀ x, e.accept = some x → x ∉ s.server.clients.map Client.sock := by
    intro x hx hmem
    have hperm := h.ready hready
    exact (hnew x hx).2 (hperm.symm.subset (List.mem_cons_of_mem _ hmem))
  have hgone : (s.server.flagged e).filter (fun c =>
      c.mustDelete && decide (0 < c.sock)) =
      (s.server.flagged e).filter fun c => c.mustDelete := by
    refine List.filter_congr fun c hc => ?_
    cases hdel : c.mustDelete with
    | false => rfl
    | true =>
        have hpos := pos_of_flagged h (fun x hx => (hnew x hx).1) hzero hc hdel
        rw [decide_eq_true hpos]
        rfl
  have hacquire : Proper (s.calls ++
        (e.accept.filter fun fd => 0 ≤ fd).toList.map .acquired) ∧
      (Custody.held (s.calls ++
        (e.accept.filter fun fd => 0 ≤ fd).toList.map .acquired)).Perm
        (s.sock :: (s.server.flagged e).map Client.sock) := by
    rw [ServerSmoke.sock_flagged]
    cases hacc : e.accept with
    | none =>
        simp only [Option.filter_none, Option.toList_none, List.map_nil,
          List.append_nil]
        exact ⟨h.proper, h.ready hready⟩
    | some x =>
        have hpos := (hnew x hacc).1
        simp only [Option.filter_some, hpos, decide_true, if_true,
          Option.toList_some, List.map_singleton]
        refine ⟨h.proper.acquire x, ?_⟩
        rw [held_concat]
        exact ((h.ready hready).cons x).trans
          (List.perm_append_singleton x _).symm
  have hsplit : (s.sock :: (s.server.flagged e).map Client.sock).Perm
      (((s.server.flagged e).filter fun c => c.mustDelete).map Client.sock ++
        (s.sock :: ((s.server.flagged e).filter
          fun c => !c.mustDelete).map Client.sock)) := by
    have hparts := (List.filter_append_perm (fun c : Client Int => c.mustDelete)
      (s.server.flagged e)).map Client.sock
    rw [List.map_append] at hparts
    exact (hparts.symm.cons s.sock).trans List.perm_middle.symm
  have hrelease := hacquire.1.release_all _ _ (hacquire.2.trans hsplit)
  have hrun := ServerSmoke.run_of_wakes e hready hwake
  rw [hgone]
  refine ⟨(ServerSmoke.run_spec e h.tidy hfresh).1, hrelease.1, ?_, ?_, ?_⟩
  · intro x hx
    rw [hrun] at hx
    have hmem : x ∈ (s.server.flagged e).map Client.sock :=
      (List.filter_sublist.map Client.sock).subset hx
    rw [ServerSmoke.sock_flagged, List.mem_append, Option.mem_toList] at hmem
    exact hmem.elim (h.valid x) fun hx => (hnew x hx).1
  · intro _
    rw [hrun]
    exact hrelease.2
  · intro hno
    rw [hrun] at hno
    rw [hready] at hno
    cases hno

theorem run_inv {accept : Option Int} {recv : Int → Option (List UInt8)}
    {send : Int → Nat → Nat} {s : Descriptors} (h : s.Inv)
    (hcare : s.Careful (.run accept recv send)) :
    (s.run accept recv send).Inv := by
  simp only [run, register_eq h]
  split
  · exact h
  · next hready =>
      split
      · next hwake =>
          have hready : s.server.ready = true := by simpa using hready
          obtain ⟨haccept, hzero⟩ := hcare hready
          refine round_inv h hready hwake ?_ hzero
          intro x hx
          obtain ⟨fd, hfd, rfl⟩ := Option.map_eq_some_iff.mp hx
          have hpos := haccept fd hfd
          rcases s.given_cases fd with ⟨heq, -, hfree⟩ | hbad
          · rw [heq] at hpos ⊢
            exact ⟨hpos, hfree⟩
          · rw [hbad] at hpos
            cases hpos
      · exact h

theorem step_inv (s : Descriptors) (op : Op) (h : s.Inv) (hcare : s.Careful op) :
    (s.step op).Inv := by
  cases op with
  | init fd bound listening => exact init_inv fd bound listening h
  | run accept recv send => exact run_inv h hcare
  | shutdown => exact shutdown_inv h hcare

/-- As long as the server is shut down only while it is ready, `accept` does not
fail and no client with descriptor 0 is removed, only descriptors that are held
are closed; and the destructor then closes the rest, each once, if and only if
the server is ready. -/
theorem descriptors_released (junk : Int) (ops : List Op)
    (h : Runs.Meets step Careful (new junk) ops) :
    let s := Runs.run step (new junk) ops
    Proper s.calls ∧
    ((Proper s.destroy.calls ∧ ∀ fd : Int,
        s.destroy.calls.count (.released fd) =
          s.destroy.calls.count (.acquired fd)) ↔
      s.server.ready = true) := by
  intro s
  have hinv : s.Inv := Runs.Meets.inv step_inv (new_inv junk) h
  refine ⟨hinv.proper, ?_, ?_⟩
  · rintro ⟨hproper, -⟩
    by_contra hready
    have hidle := hinv.idle (by simpa using hready)
    refine not_proper_of_not_held ?_ _ hproper
    rw [hidle.1]
    exact List.not_mem_nil
  · intro hready
    have hdone := shutdown_inv hinv hready
    refine ⟨hdone.proper, fun fd => ?_⟩
    have hcount := hdone.proper.count fd
    rw [(hdone.idle rfl).1, List.count_nil, Nat.add_zero] at hcount
    exact hcount

/-- A client joins, another does, and the first one leaves. -/
def visitors : List Op :=
  [.init 3 true true, .run (some 4) (fun _ => none) (fun _ _ => bufsz),
    .run (some 5) (fun x => if x = 4 then some [] else none) (fun _ _ => bufsz)]

theorem descriptors_released_visitors :
    (Runs.run step (new 0) visitors).calls =
      [.acquired 3, .acquired 4, .acquired 5, .released 4] ∧
    Proper (Runs.run step (new 0) visitors).calls ∧
    ((Proper (Runs.run step (new 0) visitors).destroy.calls ∧ ∀ fd : Int,
        (Runs.run step (new 0) visitors).destroy.calls.count (.released fd) =
          (Runs.run step (new 0) visitors).destroy.calls.count (.acquired fd)) ↔
      (Runs.run step (new 0) visitors).server.ready = true) :=
  ⟨by decide, descriptors_released 0 visitors (by decide)⟩

/-- A server that is shut down and then destroyed closes its socket twice. -/
theorem shutdown_twice :
    ¬ Proper (Runs.run step (new 0) [.init 3 true true, .shutdown]).destroy.calls := by
  have htwice : (Runs.run step (new 0) [.init 3 true true, .shutdown]).destroy.calls =
      [.acquired 3, .released 3] ++ [.released 3] := by decide
  rw [htwice]
  exact not_proper_of_not_held (by decide) []

end Descriptors

end LibSmoke
