import LibSmoke.Smoke.Rounds

/-!
# The records of the clients

`ServerSmoke::run` once more, with the records its list points to: a client is named by
the address of its record and by its descriptor, and what happens to the records is kept
as history. Where `accept` does not fail this is the round of `ServerSmoke`
(`run_server`). Where it fails, the record is deleted, and then used and put into the
list all the same (`failed_accept`).
-/

namespace LibSmoke

open Framing

/-- What happens to the record at an address. -/
inductive Touch
  | created (p : Nat)
  | used (p : Nat)
  | deleted (p : Nat)
  | stored (p : Nat)
  deriving DecidableEq

/-- A server and its records; `next` is the address of the next one. -/
structure Records where
  server : ServerSmoke (Nat × Int)
  next : Nat
  log : List Touch

namespace Records

open ServerSmoke

/-- A loop looks at every record. -/
def used (cs : List (Client (Nat × Int))) : List Touch := cs.map fun c => .used c.sock.1

/-- The loop that registers the sockets. -/
def register (cs : List (Client (Nat × Int))) : List (Client (Nat × Int)) :=
  cs.map fun c => if c.sock.2 = -1 then { c with mustDelete := true } else c

/-- The descriptors that `select` is asked about. -/
def registered (cs : List (Client (Nat × Int))) : List Int :=
  (cs.map fun c => c.sock.2).filter (· ≠ -1)

/-- The branch for a new connection, `fd` being what `accept` gives: what is put into
the list, and what happens to its record. `junk` is what the memory of the record holds
once it has been deleted. -/
def connect (p : Nat) (junk : Client Int) (fd : Int) :
    Client (Nat × Int) × List Touch :=
  if fd < 0 then
    (⟨(p, junk.sock), junk.mustDelete⟩,
      [.created p, .used p, .deleted p, .used p, .stored p])
  else (⟨(p, fd), false⟩, [.created p, .used p, .used p, .stored p])

/-- What the loops meet: a descriptor that `select` was not asked about is not set. -/
def roundOf (s : Records) (recv : Int → Option (List UInt8)) (send : Int → Nat → Nat)
    (accept : Option Int) : Round (Nat × Int) where
  accept := accept.map fun fd => (s.next, fd)
  recv := fun x => if x.2 ∈ registered s.server.clients then recv x.2 else none
  send := fun x => send x.2

/-- The loop that removes clients, and deletes their records. -/
def removed (cs : List (Client (Nat × Int))) : List Touch :=
  cs.flatMap fun c =>
    if c.mustDelete then [.used c.sock.1, .deleted c.sock.1] else [.used c.sock.1]

/-- `run`; `accept` is what `accept` gives if somebody connects. -/
def run (recv : Int → Option (List UInt8)) (send : Int → Nat → Nat) (accept : Option Int)
    (junk : Client Int) (s : Records) : Records × List ((Nat × Int) × List UInt8) :=
  if s.server.ready = false then (s, [])
  else
    let e := s.roundOf recv send accept
    let cs := register s.server.clients
    let log := s.log ++ used cs
    if wakes e { s.server with clients := cs } then
      let new := accept.map (connect s.next junk)
      let cs := cs ++ (new.map Prod.fst).toList
      let (cs', got) := recvLoop e cs
      let queue := s.server.pktQueue ++ got
      let (cs'', sent) := broadcastLoop e 0 queue cs'
      (⟨{ s.server with clients := cs''.filter fun c => !c.mustDelete, pktQueue := [] },
        s.next + accept.isSome.toNat,
        log ++ (new.map Prod.snd).getD [] ++ used cs ++
          (queue.flatMap fun _ => used cs') ++ removed cs''⟩, sent)
    else (⟨{ s.server with clients := cs }, s.next, log⟩, [])

section Round

variable {s : Records} (recv : Int → Option (List UInt8)) (send : Int → Nat → Nat)
  (junk : Client Int)

/-! ## Where `accept` does not fail -/

theorem recvLoop_concat {κ : Type} {e : Round κ} {cs : List (Client κ)} {c : Client κ}
    (h : e.recv c.sock = none) :
    recvLoop e (cs ++ [c]) = ((recvLoop e cs).1 ++ [c], (recvLoop e cs).2) := by
  induction cs with
  | nil =>
      simp only [List.nil_append, recvLoop, h]
      split <;> rfl
  | cons c' cs ih =>
      simp only [List.cons_append, recvLoop, ih]
      split
      · rfl
      · split <;> rfl

/-- The round is that of `ServerSmoke` if nobody connects, or somebody for whom `accept`
gives a descriptor that no client has. -/
theorem run_server {accept : Option Int}
    (h : ∀ fd ∈ accept, 0 ≤ fd ∧ fd ∉ registered s.server.clients) :
    ((s.run recv send accept junk).1.server, (s.run recv send accept junk).2) =
      if s.server.ready = false then (s.server, [])
      else ServerSmoke.run (s.roundOf recv send accept)
        { s.server with clients := register s.server.clients } := by
  rw [run]
  by_cases hready : s.server.ready = false
  · rw [if_pos hready, if_pos hready]
  · rw [if_neg hready, if_neg hready, ServerSmoke.run, if_neg hready]
    simp only []
    split
    · cases accept with
      | none =>
          simp only [Option.map_none, Option.toList_none, List.append_nil, roundOf]
      | some fd =>
          obtain ⟨hpos, hnew⟩ := h fd rfl
          have hrecv : (s.roundOf recv send (some fd)).recv (s.next, fd) = none :=
            if_neg hnew
          have hloop : recvLoop (s.roundOf recv send (some fd))
              (register s.server.clients ++ [⟨(s.next, fd), false⟩]) = _ :=
            recvLoop_concat hrecv
          have haccept : (s.roundOf recv send (some fd)).accept = some (s.next, fd) := rfl
          rw [haccept]
          simp only [Option.map_some, Option.toList_some, connect,
            if_neg (Int.not_lt.mpr hpos), hloop]
    · rfl

/-! ## Where `accept` fails -/

/-- A round in which `accept` gives `fd` leaves no trace of that: the clients are those
of a round in which nobody connects, each has been sent the same, and the record is not
touched any more once it has been deleted. -/
structure Traceless (recv : Int → Option (List UInt8)) (send : Int → Nat → Nat)
    (junk : Client Int) (fd : Int) (s : Records) : Prop where
  clients : (s.run recv send (some fd) junk).1.server.clients =
    (s.run recv send none junk).1.server.clients
  sent : ∀ c ∈ s.server.clients, streamOf c.sock (s.run recv send (some fd) junk).2 =
    streamOf c.sock (s.run recv send none junk).2
  untouched : ∀ pre post, (s.run recv send (some fd) junk).1.log =
      s.log ++ pre ++ .deleted s.next :: post →
    .used s.next ∉ post ∧ .stored s.next ∉ post ∧ .deleted s.next ∉ post

/-- The clients as the removing loop finds them, `c` being the last. -/
def flaggedWith (e : Round (Nat × Int)) (s : Records) (c : Client (Nat × Int)) :
    List (Client (Nat × Int)) × List Touch :=
  let cs := register s.server.clients ++ [c]
  let queue := s.server.pktQueue ++ (recvLoop e cs).2
  ((broadcastLoop e 0 queue (recvLoop e cs).1).1,
    used cs ++ (queue.flatMap fun _ => used (recvLoop e cs).1))

/-- A round in which `accept` fails: the record is deleted, used and stored, and the
loops go over it with the others. -/
theorem run_failed (hready : s.server.ready = true) {fd : Int} (hfd : fd < 0) :
    let last := s.flaggedWith (s.roundOf recv send (some fd))
      ⟨(s.next, junk.sock), junk.mustDelete⟩
    (s.run recv send (some fd) junk).1.server.clients =
      last.1.filter (fun c => !c.mustDelete) ∧
    (s.run recv send (some fd) junk).1.log =
      s.log ++ (used (register s.server.clients) ++ [.created s.next, .used s.next]) ++
        .deleted s.next :: (.used s.next :: .stored s.next ::
          (last.2 ++ removed last.1)) := by
  have hwake : wakes (s.roundOf recv send (some fd))
      { s.server with clients := register s.server.clients } = true := rfl
  have hon : ¬ s.server.ready = false := by
    rw [hready]
    exact Bool.noConfusion
  rw [run, if_neg hon]
  simp only [hwake, if_true, Option.map_some, connect, if_pos hfd, Option.toList_some,
    Option.getD_some, flaggedWith]
  refine ⟨trivial, ?_⟩
  simp only [List.append_assoc, List.cons_append, List.nil_append]

theorem mem_flaggedWith (e : Round (Nat × Int)) (s : Records) (c : Client (Nat × Int)) :
    ∃ c' ∈ (s.flaggedWith e c).1, c'.sock = c.sock := by
  have hsock : (s.flaggedWith e c).1.map Client.sock =
      (register s.server.clients ++ [c]).map Client.sock :=
    (sock_broadcastLoop ..).trans (sock_recvLoop ..)
  have hmem : c.sock ∈ (s.flaggedWith e c).1.map Client.sock := by
    rw [hsock]
    exact List.mem_map_of_mem (List.mem_append_right _ List.mem_cons_self)
  obtain ⟨c', hc', heq⟩ := List.mem_map.mp hmem
  exact ⟨c', hc', heq⟩

/-- At the end the list still has the deleted record, or it has been deleted again. -/
theorem failed_left (hready : s.server.ready = true) {fd : Int} (hfd : fd < 0) :
    (∃ c ∈ (s.run recv send (some fd) junk).1.server.clients, c.sock.1 = s.next) ∨
    ∃ pre post, (s.run recv send (some fd) junk).1.log =
      s.log ++ pre ++ .deleted s.next :: post ∧ .deleted s.next ∈ post := by
  obtain ⟨hclients, hlog⟩ := run_failed recv send junk hready hfd
  obtain ⟨c, hc, hsock⟩ := mem_flaggedWith (s.roundOf recv send (some fd)) s
    ⟨(s.next, junk.sock), junk.mustDelete⟩
  cases hdel : c.mustDelete with
  | false =>
      refine .inl ⟨c, ?_, congrArg Prod.fst hsock⟩
      rw [hclients]
      exact List.mem_filter.mpr ⟨hc, by rw [hdel]; rfl⟩
  | true =>
      refine .inr ⟨_, _, hlog, ?_⟩
      refine List.mem_cons_of_mem _ (List.mem_cons_of_mem _ (List.mem_append_right _ ?_))
      refine List.mem_flatMap.mpr ⟨c, hc, ?_⟩
      rw [if_pos hdel, hsock]
      exact List.mem_cons_of_mem _ List.mem_cons_self

/-- Whatever the clients do, such a round leaves a trace. -/
theorem failed_accept (hready : s.server.ready = true) {fd : Int} (hfd : fd < 0) :
    ¬ s.Traceless recv send junk fd := by
  rintro ⟨-, -, huntouched⟩
  obtain ⟨-, hlog⟩ := run_failed recv send junk hready hfd
  exact (huntouched _ _ hlog).1 List.mem_cons_self

end Round

/-- A server with one client, which nothing can be read off. -/
def oneClient : Records := ⟨⟨true, [⟨(0, 4), false⟩], []⟩, 1, []⟩

theorem failed_accept_one : ¬ oneClient.Traceless (fun _ => none) (fun _ _ => bufsz)
    ⟨-1, false⟩ (-1) :=
  failed_accept (fun _ => none) (fun _ _ => bufsz) ⟨-1, false⟩ rfl (by decide)

/-- The record stays in the list, with what is left of it in memory. -/
theorem failed_accept_stored :
    ¬ ∀ (s : Records) recv send junk fd, s.server.ready = true → fd < 0 →
      s.Traceless recv send junk fd := by
  intro h
  have hsame := (h oneClient (fun _ => none) (fun _ _ => bufsz) ⟨-1, false⟩ (-1) rfl
    (by decide)).clients
  have hleft : (oneClient.run (fun _ => none) (fun _ _ => bufsz) (some (-1))
      ⟨-1, false⟩).1.server.clients = [⟨(0, 4), false⟩, ⟨(1, -1), false⟩] := by decide
  have hnone : (oneClient.run (fun _ => none) (fun _ _ => bufsz) none
      ⟨-1, false⟩).1.server.clients = [⟨(0, 4), false⟩] := by decide
  rw [hleft, hnone] at hsame
  cases hsame

end Records

end LibSmoke
