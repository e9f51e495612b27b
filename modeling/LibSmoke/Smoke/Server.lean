import LibSmoke.Lib.Merging
import Mathlib.Algebra.Group.Nat.Defs

/-!
# The relay server

`ServerSmoke::run` is one round of the relay: accept a connection, take what
`select` says can be read off the clients in their order, and send every piece
to every client, the one it came from included. A piece is whatever `recv` gave:
the server knows nothing of telegrams.

A client is named by its connection, which the source does by the pointer to its
record. A failing `accept` is left out: the source deletes the record and goes
on with it.
-/

namespace LibSmoke

/-- `BUFSZ`. -/
def bufsz : Nat := 512

structure Client (κ : Type) where
  sock : κ
  mustDelete : Bool
  deriving DecidableEq

structure ServerSmoke (κ : Type) where
  ready : Bool
  clients : List (Client κ)
  pktQueue : List (List UInt8)

/-- What a round meets on the sockets: the new connection; for the clients
`select` marks as readable what `recv` gives, nothing being a closed or failed
connection; and how much of the `k`-th message of the round a `send` takes. -/
structure Round (κ : Type) where
  accept : Option κ
  recv : κ → Option (List UInt8)
  send : κ → Nat → Nat

namespace ServerSmoke

variable {κ : Type} (e : Round κ)

def new : ServerSmoke κ := ⟨false, [], []⟩

/-- `listening` is whether the socket could be made, bound and listened on. -/
def init (listening : Bool) (s : ServerSmoke κ) : ServerSmoke κ × Bool :=
  if s.ready then (s, false)
  else if listening then ({ s with ready := true }, true)
  else ({ s with ready := false }, false)

/-- Reading from the clients in their order. -/
def recvLoop : List (Client κ) → List (Client κ) × List (List UInt8)
  | [] => ([], [])
  | c :: cs =>
      let (rest, queue) := recvLoop cs
      if c.mustDelete then (c :: rest, queue)
      else
        match e.recv c.sock with
        | none => (c :: rest, queue)
        | some [] => ({ c with mustDelete := true } :: rest, queue)
        | some (b :: bs) => (c :: rest, (b :: bs) :: queue)

/-- The `k`-th message of the round to one client, and what of it was sent. -/
def sendOne (k : Nat) (data : List UInt8) (c : Client κ) :
    Client κ × List UInt8 :=
  if c.mustDelete then (c, [])
  else
    let sent := data.take (e.send c.sock k)
    if sent.length < data.length then ({ c with mustDelete := true }, sent)
    else (c, sent)

/-- One message to all clients. -/
def sendAll (k : Nat) (data : List UInt8) (cs : List (Client κ)) :
    List (Client κ) × List (κ × List UInt8) :=
  (cs.map fun c => (sendOne e k data c).1,
    cs.map fun c => (c.sock, (sendOne e k data c).2))

/-- The queue, message by message. -/
def broadcastLoop : Nat → List (List UInt8) → List (Client κ) →
    List (Client κ) × List (κ × List UInt8)
  | _, [], cs => (cs, [])
  | k, data :: queue, cs =>
      let (cs, sent) := sendAll e k data cs
      let (cs, sent') := broadcastLoop (k + 1) queue cs
      (cs, sent ++ sent')

/-- `select` finds something to read. -/
def wakes (s : ServerSmoke κ) : Bool :=
  e.accept.isSome || s.clients.any fun c => (e.recv c.sock).isSome

/-- `run`, and what was sent to whom. A client accepted in this round is not
among those `select` was asked about. -/
def run (s : ServerSmoke κ) : ServerSmoke κ × List (κ × List UInt8) :=
  if s.ready = false then (s, [])
  else if s.wakes e then
    let (cs, got) := recvLoop e s.clients
    let cs := cs ++ (e.accept.map fun sock => ⟨sock, false⟩).toList
    let (cs, sent) := broadcastLoop e 0 (s.pktQueue ++ got) cs
    ({ s with clients := cs.filter fun c => !c.mustDelete, pktQueue := [] }, sent)
  else (s, [])

/-! ## What a client that stays is sent -/

/-- What the reading loop takes off the clients, with whom it came from. -/
def pieces : List (Client κ) → List (κ × List UInt8)
  | [] => []
  | c :: cs =>
      if c.mustDelete then pieces cs
      else
        match e.recv c.sock with
        | none | some [] => pieces cs
        | some (b :: bs) => (c.sock, b :: bs) :: pieces cs

theorem recvLoop_pieces (cs : List (Client κ)) :
    (recvLoop e cs).2 = (pieces e cs).map Prod.snd := by
  induction cs with
  | nil => rfl
  | cons c cs ih =>
      simp only [recvLoop, pieces]
      split
      · exact ih
      · split
        · exact ih
        · exact ih
        · exact congrArg _ ih

theorem mem_pieces {cs : List (Client κ)} {p : κ × List UInt8}
    (h : p ∈ pieces e cs) : p.1 ∈ cs.map Client.sock ∧ e.recv p.1 = some p.2 := by
  induction cs with
  | nil => cases h
  | cons c cs ih =>
      have hrest : p ∈ pieces e cs →
          p.1 ∈ (c :: cs).map Client.sock ∧ e.recv p.1 = some p.2 := by
        intro hp
        obtain ⟨hmem, hrecv⟩ := ih hp
        exact ⟨List.mem_cons_of_mem _ hmem, hrecv⟩
      rw [pieces] at h
      split at h
      · exact hrest h
      · split at h
        · exact hrest h
        · exact hrest h
        · next hrecv =>
            rcases List.mem_cons.mp h with rfl | hp
            · exact ⟨List.mem_cons_self, hrecv⟩
            · exact hrest hp

theorem sock_recvLoop (cs : List (Client κ)) :
    (recvLoop e cs).1.map Client.sock = cs.map Client.sock := by
  induction cs with
  | nil => rfl
  | cons c cs ih =>
      simp only [recvLoop]
      split
      · exact congrArg (c.sock :: ·) ih
      · split <;> exact congrArg (c.sock :: ·) ih

theorem mem_of_recvLoop {cs : List (Client κ)} {x : κ}
    (h : ⟨x, false⟩ ∈ (recvLoop e cs).1) : ⟨x, false⟩ ∈ cs := by
  induction cs with
  | nil => exact h
  | cons c cs ih =>
      have hrest : ∀ c' : Client κ, (c' = c ∨ c'.mustDelete = true) →
          ⟨x, false⟩ ∈ c' :: (recvLoop e cs).1 → ⟨x, false⟩ ∈ c :: cs := by
        intro c' hc' hmem
        rcases List.mem_cons.mp hmem with heq | hmem
        · rcases hc' with rfl | hdel
          · rw [heq]
            exact List.mem_cons_self
          · rw [← heq] at hdel
            cases hdel
        · exact List.mem_cons_of_mem c (ih hmem)
      simp only [recvLoop] at h
      split at h
      · exact hrest c (.inl rfl) h
      · split at h
        · exact hrest c (.inl rfl) h
        · exact hrest _ (.inr rfl) h
        · exact hrest c (.inl rfl) h

/-- A client that is kept has been sent all of the message. -/
theorem sendOne_cases (k : Nat) (data : List UInt8) (c : Client κ) :
    ((sendOne e k data c).1.mustDelete = true) ∨
    c.mustDelete = false ∧ sendOne e k data c = (c, data) := by
  rw [sendOne]
  split
  · next hdel => exact .inl hdel
  · next hkeep =>
      simp only []
      split
      · exact .inl rfl
      · next hlen =>
          have hall : data.length ≤ e.send c.sock k := by
            rw [List.length_take] at hlen
            omega
          rw [List.take_of_length_le hall]
          exact .inr ⟨Bool.eq_false_iff.mpr hkeep, rfl⟩

@[simp] theorem sock_sendOne (k : Nat) (data : List UInt8) (c : Client κ) :
    (sendOne e k data c).1.sock = c.sock := by
  rw [sendOne]
  split
  · rfl
  · simp only []
    split <;> rfl

theorem sock_sendAll (k : Nat) (data : List UInt8) (cs : List (Client κ)) :
    (sendAll e k data cs).1.map Client.sock = cs.map Client.sock := by
  rw [sendAll, List.map_map]
  exact List.map_congr_left fun c _ => sock_sendOne e k data c

theorem sock_broadcastLoop (k : Nat) (queue : List (List UInt8))
    (cs : List (Client κ)) :
    (broadcastLoop e k queue cs).1.map Client.sock = cs.map Client.sock := by
  induction queue generalizing k cs with
  | nil => rfl
  | cons data queue ih => exact (ih (k + 1) _).trans (sock_sendAll e k data cs)

theorem broadcastLoop_sent (k : Nat) (data : List UInt8)
    (queue : List (List UInt8)) (cs : List (Client κ)) :
    (broadcastLoop e k (data :: queue) cs).2 = (sendAll e k data cs).2 ++
      (broadcastLoop e (k + 1) queue (sendAll e k data cs).1).2 := rfl

variable [DecidableEq κ]

open Framing

theorem streamOf_sendAll_other {k : Nat} {data : List UInt8}
    {cs : List (Client κ)} {x : κ} (h : x ∉ cs.map Client.sock) :
    streamOf x (sendAll e k data cs).2 = [] := by
  rw [streamOf, tagged, List.filter_eq_nil_iff.mpr]
  · rfl
  · intro p hp
    obtain ⟨c, hc, rfl⟩ := List.mem_map.mp hp
    intro heq
    exact h (List.mem_map.mpr ⟨c, hc, by simpa using heq⟩)

theorem streamOf_sendAll {k : Nat} {data : List UInt8} {cs : List (Client κ)}
    (hnodup : (cs.map Client.sock).Nodup) {x : κ}
    (h : ⟨x, false⟩ ∈ (sendAll e k data cs).1) :
    ⟨x, false⟩ ∈ cs ∧ streamOf x (sendAll e k data cs).2 = data := by
  induction cs with
  | nil => cases h
  | cons c cs ih =>
      rw [List.map_cons, List.nodup_cons] at hnodup
      have hsplit : (sendAll e k data (c :: cs)).2 =
          [(c.sock, (sendOne e k data c).2)] ++ (sendAll e k data cs).2 := rfl
      rw [hsplit, streamOf_append]
      rcases List.mem_cons.mp h with heq | hmem
      · have heq : ⟨x, false⟩ = (sendOne e k data c).1 := heq
        rcases sendOne_cases e k data c with hdel | ⟨hkeep, hone⟩
        · rw [← heq] at hdel
          cases hdel
        · rw [hone] at heq
          subst heq
          rw [hone, streamOf_self, streamOf_sendAll_other e hnodup.1,
            List.append_nil]
          exact ⟨List.mem_cons_self, rfl⟩
      · have hsock : x ∈ cs.map Client.sock := by
          rw [← sock_sendAll e k data cs]
          exact List.mem_map.mpr ⟨_, hmem, rfl⟩
        have hne : x ≠ c.sock := by
          intro heq
          exact hnodup.1 (heq ▸ hsock)
        obtain ⟨hin, hdata⟩ := ih hnodup.2 hmem
        rw [streamOf_other hne, List.nil_append]
        exact ⟨List.mem_cons_of_mem c hin, hdata⟩

theorem streamOf_broadcastLoop_other {k : Nat} {queue : List (List UInt8)}
    {cs : List (Client κ)} {x : κ} (h : x ∉ cs.map Client.sock) :
    streamOf x (broadcastLoop e k queue cs).2 = [] := by
  induction queue generalizing k cs with
  | nil => rfl
  | cons data queue ih =>
      rw [broadcastLoop_sent, streamOf_append, streamOf_sendAll_other e h,
        List.nil_append]
      exact ih (by rwa [sock_sendAll])

/-- A client that stays is sent the whole queue. -/
theorem streamOf_broadcastLoop {k : Nat} {queue : List (List UInt8)}
    {cs : List (Client κ)} (hnodup : (cs.map Client.sock).Nodup) {x : κ}
    (h : ⟨x, false⟩ ∈ (broadcastLoop e k queue cs).1) :
    ⟨x, false⟩ ∈ cs ∧ streamOf x (broadcastLoop e k queue cs).2 = queue.flatten := by
  induction queue generalizing k cs with
  | nil => exact ⟨h, rfl⟩
  | cons data queue ih =>
      have hrest : ⟨x, false⟩ ∈
          (broadcastLoop e (k + 1) queue (sendAll e k data cs).1).1 := h
      obtain ⟨hmem, hqueue⟩ := ih (by rwa [sock_sendAll]) hrest
      obtain ⟨hin, hdata⟩ := streamOf_sendAll e hnodup hmem
      rw [broadcastLoop_sent, streamOf_append, hdata, hqueue, List.flatten_cons]
      exact ⟨hin, rfl⟩

theorem streamOf_pieces_other {cs : List (Client κ)} {x : κ}
    (h : x ∉ cs.map Client.sock) : streamOf x (pieces e cs) = [] := by
  rw [streamOf, tagged, List.filter_eq_nil_iff.mpr]
  · rfl
  · intro p hp hpx
    exact h (of_decide_eq_true hpx ▸ (mem_pieces e hp).1)

/-- Of each client at most one piece is taken. -/
theorem streamOf_pieces {cs : List (Client κ)}
    (hnodup : (cs.map Client.sock).Nodup) (x : κ) :
    streamOf x (pieces e cs) <+: (e.recv x).getD [] := by
  induction cs with
  | nil => exact List.nil_prefix
  | cons c cs ih =>
      rw [List.map_cons, List.nodup_cons] at hnodup
      have hrest := ih hnodup.2
      rw [pieces]
      split
      · exact hrest
      · split
        · exact hrest
        · exact hrest
        · next b bs hrecv =>
            by_cases hx : x = c.sock
            · have hnone : streamOf x (pieces e cs) = [] :=
                streamOf_pieces_other e (hx ▸ hnodup.1)
              have hone : streamOf x ([(c.sock, b :: bs)] ++ pieces e cs) =
                  b :: bs := by
                rw [streamOf_append, hnone, List.append_nil, hx, streamOf_self]
              rw [← List.singleton_append, hone, hx, hrecv]
              exact List.prefix_rfl
            · have hone : streamOf x ([(c.sock, b :: bs)] ++ pieces e cs) =
                  streamOf x (pieces e cs) := by
                rw [streamOf_append, streamOf_other hx, List.nil_append]
              rw [← List.singleton_append, hone]
              exact hrest

/-! ## A round -/

/-- Between two rounds: nobody is about to be deleted, and nothing queued. -/
structure Tidy (s : ServerSmoke κ) : Prop where
  nodup : (s.clients.map Client.sock).Nodup
  kept : ∀ c ∈ s.clients, c.mustDelete = false
  queue : s.pktQueue = []

/-- What a round takes off the clients. -/
def pushed (s : ServerSmoke κ) : List (κ × List UInt8) :=
  if s.ready then pieces e s.clients else []

theorem streamOf_pushed_other {s : ServerSmoke κ} {x : κ}
    (h : x ∉ s.clients.map Client.sock) : streamOf x (s.pushed e) = [] := by
  rw [pushed]
  split
  · exact streamOf_pieces_other e h
  · rfl

omit [DecidableEq κ] in
theorem pieces_of_sleep {s : ServerSmoke κ} (h : ¬ s.wakes e = true) :
    pieces e s.clients = [] := by
  have hnone : ∀ c ∈ s.clients, e.recv c.sock = none := by
    intro c hc
    rw [wakes, Bool.or_eq_true, not_or, List.any_eq_true] at h
    by_contra hsome
    exact h.2 ⟨c, hc, Option.isSome_iff_ne_none.mpr hsome⟩
  revert hnone
  generalize s.clients = cs
  intro hnone
  induction cs with
  | nil => rfl
  | cons c cs ih =>
      have hrest := ih fun c' hc' => hnone c' (List.mem_cons_of_mem c hc')
      rw [pieces, hnone c List.mem_cons_self, hrest, ite_self]

/-- What a round does: who stays was there or is new, and was sent all that the
round took off the clients. -/
theorem run_spec {s : ServerSmoke κ} (h : s.Tidy)
    (hnew : ∀ x, e.accept = some x → x ∉ s.clients.map Client.sock) :
    (s.run e).1.Tidy ∧
    (∀ c ∈ (s.run e).1.clients,
      (c ∈ s.clients ∨ s.ready = true ∧ e.accept = some c.sock) ∧
      streamOf c.sock (s.run e).2 = merged (s.pushed e)) ∧
    ∀ x, x ∉ s.clients.map Client.sock → e.accept ≠ some x →
      streamOf x (s.run e).2 = [] := by
  rw [run, pushed]
  by_cases hready : s.ready = false
  · rw [if_pos hready, hready]
    exact ⟨h, fun c hc => ⟨.inl hc, rfl⟩, fun x _ _ => rfl⟩
  · have hready : s.ready = true := by simpa using hready
    rw [if_neg (by simp [hready]), if_pos hready]
    by_cases hwake : s.wakes e
    · rw [if_pos hwake]
      simp only []
      rw [h.queue, List.nil_append, recvLoop_pieces]
      have hsock : ((recvLoop e s.clients).1 ++
          (e.accept.map fun sock => (⟨sock, false⟩ : Client κ)).toList).map
            Client.sock = s.clients.map Client.sock ++ e.accept.toList := by
        rw [List.map_append, sock_recvLoop]
        cases e.accept <;> rfl
      have hnodup : (s.clients.map Client.sock ++ e.accept.toList).Nodup := by
        refine List.nodup_append.mpr ⟨h.nodup, ?_, ?_⟩
        · cases e.accept <;> simp
        · intro x hx y hy heq
          exact hnew x (by rw [heq]; simpa using hy) hx
      rw [← hsock] at hnodup
      refine ⟨⟨?_, ?_, rfl⟩, ?_, ?_⟩
      · refine List.Nodup.sublist (List.filter_sublist.map Client.sock) ?_
        rwa [sock_broadcastLoop]
      · intro c hc
        simpa using (List.mem_filter.mp hc).2
      · intro c hc
        obtain ⟨hmem, hkeep⟩ := List.mem_filter.mp hc
        have hc : c = ⟨c.sock, false⟩ := by
          cases c
          simpa using hkeep
        rw [hc] at hmem ⊢
        obtain ⟨hin, hall⟩ := streamOf_broadcastLoop e hnodup hmem
        refine ⟨?_, hall⟩
        rcases List.mem_append.mp hin with hin | hin
        · exact .inl (mem_of_recvLoop e hin)
        · refine .inr ⟨hready, ?_⟩
          cases hacc : e.accept with
          | none => rw [hacc] at hin; cases hin
          | some x =>
              rw [hacc] at hin
              cases List.mem_singleton.mp hin
              rfl
      · intro x hx hne
        refine streamOf_broadcastLoop_other e ?_
        rw [hsock, List.mem_append]
        rintro (hin | hin)
        · exact hx hin
        · exact hne (by simpa using hin)
    · rw [if_neg hwake, pieces_of_sleep e hwake]
      exact ⟨h, fun c hc => ⟨.inl hc, rfl⟩, fun x _ _ => rfl⟩

end ServerSmoke

end LibSmoke
