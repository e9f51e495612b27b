import LibSmoke.Lib.Runs
import LibSmoke.Smoke.Server

/-!
# The relay as a broadcast in one order

What a round does to the list of clients is here said client by client: the
reading loop and the sending loop only ever set `mustDelete`, each for its own
reason, and the loop that removes them goes over the list with an unsigned index
it takes back by one at each removal (`removeLoop_eq`).

Clients are told apart by how many were accepted before them. Whoever is in the
list at both ends of a stretch of rounds was in it all along, and so all such
clients are sent the same bytes (`relay_total_order`).
-/

namespace LibSmoke

namespace ServerSmoke

open Framing

variable {κ : Type}

/-- The removing loop. The index is a `size_t`: the `i--` of a removal at index
0 wraps around, and the `i++` of the loop brings it back. -/
def removeLoop : Nat → UInt64 → List (Client κ) → List (Client κ)
  | 0, _, cs => cs
  | fuel + 1, i, cs =>
      if h : i.toNat < cs.length then
        if cs[i.toNat].mustDelete then
          removeLoop fuel (i - 1 + 1) (cs.eraseIdx i.toNat)
        else removeLoop fuel (i + 1) cs
      else cs

theorem removeLoop_append (front back : List (Client κ))
    (hfront : ∀ c ∈ front, c.mustDelete = false)
    (hsize : front.length + back.length < 2 ^ 64) {i : UInt64}
    (hi : i.toNat = front.length) {fuel : Nat} (hfuel : back.length ≤ fuel) :
    removeLoop fuel i (front ++ back) =
      front ++ back.filter fun c => !c.mustDelete := by
  induction fuel generalizing front back i with
  | zero =>
      cases List.length_eq_zero_iff.mp (Nat.le_zero.mp hfuel)
      rfl
  | succ fuel ih =>
      rw [removeLoop]
      cases back with
      | nil =>
          rw [dif_neg (by rw [List.append_nil]; omega), List.filter_nil]
      | cons c back =>
          rw [List.length_cons] at hsize hfuel
          have hlt : i.toNat < (front ++ c :: back).length := by
            rw [List.length_append, List.length_cons]
            omega
          have hget : (front ++ c :: back)[i.toNat] = c := by
            simp only [hi, List.getElem_append_right (Nat.le_refl _),
              Nat.sub_self, List.getElem_cons_zero]
          rw [dif_pos hlt, hget]
          by_cases hdel : c.mustDelete
          · have herase : (front ++ c :: back).eraseIdx i.toNat = front ++ back := by
              rw [hi, List.eraseIdx_append_of_length_le (Nat.le_refl _),
                Nat.sub_self, List.eraseIdx_cons_zero]
            rw [if_pos hdel, herase, UInt64.sub_add_cancel,
              ih front back hfront (by omega) hi (by omega),
              List.filter_cons_of_neg (by simp [hdel])]
          · have hnext : (i + 1).toNat = (front ++ [c]).length := by
              have hone : (1 : UInt64).toNat = 1 := rfl
              rw [UInt64.toNat_add, hi, hone, List.length_append,
                List.length_singleton]
              exact Nat.mod_eq_of_lt (by omega)
            have hkeep : ∀ c' ∈ front ++ [c], c'.mustDelete = false := by
              intro c' hc'
              rcases List.mem_append.mp hc' with hc' | hc'
              · exact hfront c' hc'
              · rw [List.mem_singleton.mp hc']
                exact Bool.eq_false_iff.mpr hdel
            rw [if_neg hdel, List.append_cons,
              ih (front ++ [c]) back hkeep
                (by rw [List.length_append, List.length_singleton]; omega) hnext
                (by omega),
              List.filter_cons_of_pos (by simp [hdel]), ← List.append_cons]

/-- Every step of the loop takes one more client, off the list or past it. -/
theorem removeLoop_eq {cs : List (Client κ)} (h : cs.length < 2 ^ 64) :
    removeLoop cs.length 0 cs = cs.filter fun c => !c.mustDelete := by
  have hnil : ∀ c ∈ ([] : List (Client κ)), c.mustDelete = false := by
    intro c hc
    cases hc
  have hall := removeLoop_append [] cs hnil (by simpa using h)
    (i := 0) rfl (Nat.le_refl _)
  simpa only [List.nil_append] using hall

variable (e : Round κ)

/-- The clients as the removing loop finds them. -/
def flagged (s : ServerSmoke κ) : List (Client κ) :=
  (broadcastLoop e 0 (s.pktQueue ++ (recvLoop e s.clients).2)
    ((recvLoop e s.clients).1 ++
      (e.accept.map fun sock => ⟨sock, false⟩).toList)).1

theorem run_of_wakes {s : ServerSmoke κ} (hready : s.ready = true)
    (hwake : s.wakes e = true) :
    (s.run e).1 =
      ⟨s.ready, (s.flagged e).filter fun c => !c.mustDelete, []⟩ := by
  rw [run, if_neg (by simp [hready]), if_pos hwake]
  rfl

theorem sock_flagged (s : ServerSmoke κ) :
    (s.flagged e).map Client.sock =
      s.clients.map Client.sock ++ e.accept.toList := by
  rw [flagged, sock_broadcastLoop, List.map_append, sock_recvLoop]
  cases e.accept <;> rfl

/-- A round that `select` wakes ends with the removing loop. -/
theorem run_removeLoop {s : ServerSmoke κ} (hready : s.ready = true)
    (hwake : s.wakes e = true) (hsize : s.clients.length + 1 < 2 ^ 64) :
    (s.run e).1.clients = removeLoop (s.flagged e).length 0 (s.flagged e) := by
  have hnew : e.accept.toList.length ≤ 1 := by
    cases e.accept <;> simp
  have hlen := congrArg List.length (sock_flagged e s)
  simp only [List.length_map, List.length_append] at hlen
  rw [run_of_wakes e hready hwake, removeLoop_eq (by omega)]

/-! ## What a round does to one client -/

/-- `recv` answers that the connection is closed or failed. -/
def closed (x : κ) : Bool := e.recv x = some []

theorem closed_iff {x : κ} : closed e x = true ↔ e.recv x = some [] :=
  decide_eq_true_iff

/-- One of the sends to the client, from the `k`-th on, is short or fails. -/
def short : Nat → List (List UInt8) → κ → Bool
  | _, [], _ => false
  | k, data :: queue, x =>
      decide (e.send x k < data.length) || short (k + 1) queue x

/-- What `recv` takes off a connection for the others. -/
def chunk (x : κ) : Option (List UInt8) :=
  match e.recv x with
  | none | some [] => none
  | some (b :: bs) => some (b :: bs)

/-- The client, to be deleted if `b`. -/
def mark (c : Client κ) (b : Bool) : Client κ := ⟨c.sock, c.mustDelete || b⟩

theorem mark_of_keep {c : Client κ} (h : c.mustDelete = false) :
    mark c false = c := by
  rw [mark, h]
  exact congrArg _ h.symm

theorem recvLoop_eq (cs : List (Client κ)) (h : ∀ c ∈ cs, c.mustDelete = false) :
    recvLoop e cs =
      (cs.map fun c => mark c (closed e c.sock), cs.filterMap fun c => chunk e c.sock) := by
  induction cs with
  | nil => rfl
  | cons c cs ih =>
      have hrest := ih fun c' hc' => h c' (List.mem_cons_of_mem c hc')
      have hkeep := h c List.mem_cons_self
      simp only [recvLoop, hrest, List.map_cons, List.filterMap_cons, closed, chunk]
      rw [if_neg (by simp [hkeep])]
      split
      · next hrecv => simp [hrecv, mark_of_keep hkeep]
      · next hrecv => simp [hrecv, mark]
      · next hrecv => simp [hrecv, mark_of_keep hkeep]

theorem sendOne_client (k : Nat) (data : List UInt8) (c : Client κ) :
    (sendOne e k data c).1 = mark c (decide (e.send c.sock k < data.length)) := by
  obtain ⟨sock, del⟩ := c
  cases del with
  | true => rfl
  | false =>
      have hlen : (data.take (e.send sock k)).length < data.length ↔
          e.send sock k < data.length := by
        rw [List.length_take]
        omega
      simp only [sendOne, hlen]
      by_cases hshort : e.send sock k < data.length
      · simp [hshort, mark]
      · simp [hshort, mark]

theorem broadcastLoop_clients (k : Nat) (queue : List (List UInt8))
    (cs : List (Client κ)) :
    (broadcastLoop e k queue cs).1 = cs.map fun c => mark c (short e k queue c.sock) := by
  induction queue generalizing k cs with
  | nil =>
      have hid : (fun c : Client κ => mark c (short e k [] c.sock)) = id := by
        funext c
        simp [short, mark]
      rw [hid, List.map_id]
      rfl
  | cons data queue ih =>
      have hstep : (broadcastLoop e k (data :: queue) cs).1 =
          (broadcastLoop e (k + 1) queue
            (cs.map fun c => (sendOne e k data c).1)).1 := rfl
      rw [hstep, ih, List.map_map]
      refine List.map_congr_left fun c _ => ?_
      rw [Function.comp_apply, sendOne_client]
      simp only [mark, short, Bool.or_assoc]

/-- The first send that is short or fails was made, all before it being whole. -/
theorem short_iff {k : Nat} {queue : List (List UInt8)} {x : κ} :
    short e k queue x = true ↔
      ∃ i data, queue[i]? = some data ∧ e.send x (k + i) < data.length ∧
        ∀ j < i, ∀ data', queue[j]? = some data' →
          data'.length ≤ e.send x (k + j) := by
  induction queue generalizing k with
  | nil => simp [short]
  | cons data queue ih =>
      rw [short, Bool.or_eq_true, decide_eq_true_iff, ih]
      constructor
      · intro h
        by_cases hfirst : e.send x k < data.length
        · exact ⟨0, data, rfl, hfirst, fun j hj => absurd hj (Nat.not_lt_zero j)⟩
        · obtain ⟨i, data', hget, hlt, hbefore⟩ := h.resolve_left hfirst
          refine ⟨i + 1, data', hget, ?_, ?_⟩
          · rwa [Nat.add_assoc, Nat.add_comm 1 i] at hlt
          · intro j hj data'' hdata
            cases j with
            | zero =>
                cases Option.some.inj hdata
                exact Nat.not_lt.mp hfirst
            | succ j =>
                have hle := hbefore j (by omega) data'' hdata
                rwa [Nat.add_assoc, Nat.add_comm 1 j] at hle
      · rintro ⟨i, data', hget, hlt, hbefore⟩
        cases i with
        | zero =>
            cases Option.some.inj hget
            exact .inl hlt
        | succ i =>
            refine .inr ⟨i, data', hget, ?_, ?_⟩
            · rwa [Nat.add_assoc, Nat.add_comm 1 i]
            · intro j hj data'' hdata
              have hle := hbefore (j + 1) (by omega) data'' hdata
              rwa [Nat.add_assoc, Nat.add_comm 1 j]

theorem filter_mark (f : κ → Bool) (cs : List (Client κ))
    (h : ∀ c ∈ cs, c.mustDelete = false) :
    (cs.map fun c => mark c (f c.sock)).filter (fun c => !c.mustDelete) =
      cs.filter fun c => !f c.sock := by
  induction cs with
  | nil => rfl
  | cons c cs ih =>
      have hrest := ih fun c' hc' => h c' (List.mem_cons_of_mem c hc')
      have hkeep := h c List.mem_cons_self
      rw [List.map_cons]
      cases hf : f c.sock with
      | true =>
          rw [List.filter_cons_of_neg (by simp [mark]),
            List.filter_cons_of_neg (by simp [hf]), hrest]
      | false =>
          rw [mark_of_keep hkeep, List.filter_cons_of_pos (by simp [hkeep]),
            List.filter_cons_of_pos (by simp [hf]), hrest]

/-- What a ready server reads in a round, in reading order. -/
def reads (s : ServerSmoke κ) : List (List UInt8) :=
  s.clients.filterMap fun c => chunk e c.sock

theorem flagged_eq [DecidableEq κ] {s : ServerSmoke κ} (h : s.Tidy) :
    s.flagged e =
      (s.clients.map fun c =>
        mark c (closed e c.sock || short e 0 (s.reads e) c.sock)) ++
      (e.accept.map fun x => (⟨x, false⟩ : Client κ)).toList.map fun c =>
        mark c (short e 0 (s.reads e) c.sock) := by
  have htwice : (fun c : Client κ => mark c (short e 0 (s.reads e) c.sock)) ∘
      (fun c => mark c (closed e c.sock)) =
      fun c => mark c (closed e c.sock || short e 0 (s.reads e) c.sock) := by
    funext c
    simp only [Function.comp_apply, mark, Bool.or_assoc]
  rw [flagged, recvLoop_eq e s.clients h.kept, h.queue, List.nil_append,
    broadcastLoop_clients, List.map_append, List.map_map]
  exact congrArg (List.map · s.clients ++ _) htwice

theorem keep_of_new {c : Client κ}
    (h : c ∈ (e.accept.map fun x => (⟨x, false⟩ : Client κ)).toList) :
    c.mustDelete = false := by
  obtain ⟨x, -, rfl⟩ := Option.map_eq_some_iff.mp (Option.mem_toList.mp h)
  rfl

/-- A round of a ready server, client by client. -/
theorem run_clients [DecidableEq κ] {s : ServerSmoke κ} (h : s.Tidy)
    (hready : s.ready = true) :
    (s.run e).1.clients =
      (s.clients.filter fun c =>
        !(closed e c.sock || short e 0 (s.reads e) c.sock)) ++
      ((e.accept.map fun x => (⟨x, false⟩ : Client κ)).toList.filter fun c =>
        !short e 0 (s.reads e) c.sock) := by
  by_cases hwake : s.wakes e
  · rw [run_of_wakes e hready hwake, flagged_eq e h]
    simp only []
    rw [List.filter_append,
      filter_mark (fun x => closed e x || short e 0 (s.reads e) x) _ h.kept,
      filter_mark (short e 0 (s.reads e)) _ fun c => keep_of_new e]
  · -- nothing is read and nobody comes
    have hsleep : ¬(e.accept.isSome = true ∨
        ∃ c ∈ s.clients, (e.recv c.sock).isSome = true) := by
      rwa [wakes, Bool.or_eq_true, List.any_eq_true] at hwake
    have hnone : ∀ c ∈ s.clients, e.recv c.sock = none := by
      intro c hc
      by_contra hsome
      exact hsleep (.inr ⟨c, hc, Option.isSome_iff_ne_none.mpr hsome⟩)
    have hreads : s.reads e = [] := by
      rw [reads, List.filterMap_eq_nil_iff]
      intro c hc
      rw [chunk, hnone c hc]
    have haccept : e.accept = none := by
      by_contra hsome
      exact hsleep (.inl (Option.isSome_iff_ne_none.mpr hsome))
    rw [run, if_neg (by simp [hready]), if_neg hwake, hreads, haccept,
      Option.map_none, Option.toList_none, List.filter_nil, List.append_nil,
      List.filter_eq_self.mpr]
    intro c hc
    simp [closed, hnone c hc, short]

theorem map_snd_pieces {cs : List (Client κ)}
    (h : ∀ c ∈ cs, c.mustDelete = false) :
    (pieces e cs).map Prod.snd = cs.filterMap fun c => chunk e c.sock := by
  rw [← recvLoop_pieces, recvLoop_eq e cs h]

end ServerSmoke

/-! ## Runs -/

open Framing

/-- A server, and how many connections it accepted. -/
structure Rounds where
  server : ServerSmoke Nat
  accepted : Nat

namespace Rounds

/-- What a round meets: whether somebody connects, and for the clients, by how
many were accepted before them, what a `Round` has. -/
structure Event where
  accept : Bool
  recv : Nat → Option (List UInt8)
  send : Nat → Nat → Nat

def start (listening : Bool) : Rounds := ⟨(ServerSmoke.new.init listening).1, 0⟩

def roundOf (w : Rounds) (e : Event) : Round Nat :=
  ⟨if e.accept then some w.accepted else none, e.recv, e.send⟩

def step (w : Rounds) (e : Event) : Rounds :=
  ⟨(w.server.run (w.roundOf e)).1, w.accepted + e.accept.toNat⟩

def ids (w : Rounds) : List Nat := w.server.clients.map Client.sock

/-- Who is accepted in a round. -/
def joining (w : Rounds) (e : Event) : List Nat :=
  if w.server.ready && e.accept then [w.accepted] else []

/-- The chunks received in a round, in reading order. -/
def received (w : Rounds) (e : Event) : List (List UInt8) :=
  w.ids.filterMap (ServerSmoke.chunk (w.roundOf e))

/-- Some chunk of the round is the first that is not sent whole to `x`. -/
def SendFailed (w : Rounds) (e : Event) (x : Nat) : Prop :=
  ∃ k data, (w.received e)[k]? = some data ∧ e.send x k < data.length ∧
    ∀ j < k, ∀ data', (w.received e)[j]? = some data' → data'.length ≤ e.send x j

/-- What is sent to whom in a stretch of rounds. -/
def sentIn : Rounds → List Event → List (Nat × List UInt8)
  | _, [] => []
  | w, e :: es => (w.server.run (w.roundOf e)).2 ++ sentIn (w.step e) es

/-- The chunks received in a stretch of rounds. -/
def receivedIn : Rounds → List Event → List (List UInt8)
  | _, [] => []
  | w, e :: es => w.received e ++ receivedIn (w.step e) es

structure Inv (w : Rounds) : Prop where
  tidy : w.server.Tidy
  fresh : ∀ x ∈ w.ids, x < w.accepted
  idle : w.server.ready = false → w.server.clients = []

theorem start_inv (listening : Bool) : (start listening).Inv where
  tidy := by
    constructor <;> cases listening <;> simp [start, ServerSmoke.init, ServerSmoke.new]
  fresh := by
    cases listening <;> simp [ids, start, ServerSmoke.init, ServerSmoke.new]
  idle := by cases listening <;> simp [start, ServerSmoke.init, ServerSmoke.new]

theorem received_eq (w : Rounds) (e : Event) :
    w.received e = w.server.reads (w.roundOf e) := by
  rw [received, ids, List.filterMap_map]
  rfl

theorem sendFailed_iff {w : Rounds} {e : Event} {x : Nat} :
    w.SendFailed e x ↔
      ServerSmoke.short (w.roundOf e) 0 (w.received e) x = true := by
  rw [ServerSmoke.short_iff]
  simp only [Nat.zero_add]
  rfl

theorem step_ready (w : Rounds) (e : Event) :
    (w.step e).server.ready = w.server.ready := by
  simp only [step, ServerSmoke.run]
  split
  · rfl
  · split <;> rfl

theorem map_sock_filter (f : Nat → Bool) (cs : List (Client Nat)) :
    (cs.filter fun c => f c.sock).map Client.sock = (cs.map Client.sock).filter f := by
  rw [List.filter_map]
  rfl

/-- Who is in the list after a round. -/
theorem ids_step {w : Rounds} (h : w.Inv) (e : Event) :
    (w.step e).ids =
      (w.ids.filter fun x => !(ServerSmoke.closed (w.roundOf e) x ||
        ServerSmoke.short (w.roundOf e) 0 (w.received e) x)) ++
      (w.joining e).filter fun x =>
        !ServerSmoke.short (w.roundOf e) 0 (w.received e) x := by
  cases hready : w.server.ready with
  | false =>
      have hrun : (w.step e).server = w.server := by
        rw [step, ServerSmoke.run, if_pos hready]
      rw [ids, hrun, ids, joining, hready, h.idle hready]
      rfl
  | true =>
      have hnew : ((w.roundOf e).accept.map fun x =>
          (⟨x, false⟩ : Client Nat)).toList.map Client.sock = w.joining e := by
        rw [joining, hready, roundOf]
        cases e.accept <;> rfl
      rw [ids, step, ServerSmoke.run_clients (w.roundOf e) h.tidy hready,
        List.map_append, ← received_eq,
        map_sock_filter fun x => !(ServerSmoke.closed (w.roundOf e) x ||
          ServerSmoke.short (w.roundOf e) 0 (w.received e) x),
        map_sock_filter fun x => !ServerSmoke.short (w.roundOf e) 0 (w.received e) x,
        hnew]
      rfl

theorem joining_eq_of_mem {w : Rounds} {e : Event} {x : Nat}
    (h : x ∈ w.joining e) : x = w.accepted ∧ e.accept = true := by
  rw [joining] at h
  split at h
  · next hacc =>
      rw [Bool.and_eq_true] at hacc
      exact ⟨List.mem_singleton.mp h, hacc.2⟩
  · cases h

theorem mem_of_mem_step {w : Rounds} (h : w.Inv) {e : Event} {x : Nat}
    (hx : x ∈ (w.step e).ids) : x ∈ w.ids ∨ x ∈ w.joining e := by
  rw [ids_step h] at hx
  exact (List.mem_append.mp hx).imp List.mem_of_mem_filter List.mem_of_mem_filter

theorem accept_fresh {w : Rounds} (h : w.Inv) (e : Event) :
    ∀ x, (w.roundOf e).accept = some x → x ∉ w.ids := by
  intro x hx hmem
  rw [roundOf] at hx
  cases hacc : e.accept with
  | false => simp [hacc] at hx
  | true =>
      simp only [hacc, if_true, Option.some.injEq] at hx
      exact absurd (h.fresh x hmem) (by omega)

theorem step_inv (w : Rounds) (e : Event) (h : w.Inv) : (w.step e).Inv where
  tidy := (ServerSmoke.run_spec (w.roundOf e) h.tidy (accept_fresh h e)).1
  fresh := by
    intro x hx
    rcases mem_of_mem_step h hx with hmem | hmem
    · exact Nat.lt_of_lt_of_le (h.fresh x hmem) (Nat.le_add_right _ _)
    · obtain ⟨rfl, hacc⟩ := joining_eq_of_mem hmem
      rw [step, hacc]
      exact Nat.lt_succ_self _
  idle := by
    intro hready
    rw [step_ready] at hready
    rw [step, ServerSmoke.run, if_pos hready]
    exact h.idle hready

/-- Numbers are given once, so who is in the list later was in it before. -/
theorem mem_of_mem_run {w : Rounds} (h : w.Inv) {es : List Event} {x : Nat}
    (hold : x < w.accepted) (hx : x ∈ (Runs.run step w es).ids) : x ∈ w.ids := by
  induction es generalizing w with
  | nil => exact hx
  | cons e es ih =>
      have hnext : x < (w.step e).accepted :=
        Nat.lt_of_lt_of_le hold (Nat.le_add_right _ _)
      rcases mem_of_mem_step h (ih (step_inv w e h) hnext hx) with hmem | hmem
      · exact hmem
      · exact absurd (joining_eq_of_mem hmem).1 (Nat.ne_of_lt hold)

/-- Whoever is in the list after a round was sent all that was received in it. -/
theorem streamOf_step {w : Rounds} (h : w.Inv) {e : Event} {x : Nat}
    (hx : x ∈ (w.step e).ids) :
    streamOf x (w.server.run (w.roundOf e)).2 = (w.received e).flatten := by
  obtain ⟨c, hc, rfl⟩ := List.mem_map.mp hx
  have hspec := ServerSmoke.run_spec (w.roundOf e) h.tidy (accept_fresh h e)
  rw [(hspec.2.1 c hc).2, ServerSmoke.pushed, received_eq, ServerSmoke.reads]
  cases hready : w.server.ready with
  | false =>
      rw [h.idle hready]
      rfl
  | true =>
      rw [if_pos rfl, merged, ServerSmoke.map_snd_pieces _ h.tidy.kept]

theorem streamOf_sentIn {w : Rounds} (h : w.Inv) {es : List Event} {x : Nat}
    (hold : x < w.accepted) (hx : x ∈ (Runs.run step w es).ids) :
    streamOf x (w.sentIn es) = (w.receivedIn es).flatten := by
  induction es generalizing w with
  | nil => rfl
  | cons e es ih =>
      have hinv := step_inv w e h
      have hnext : x < (w.step e).accepted :=
        Nat.lt_of_lt_of_le hold (Nat.le_add_right _ _)
      have hmem := mem_of_mem_run hinv hnext hx
      rw [sentIn, streamOf_append, receivedIn, List.flatten_append,
        streamOf_step h hmem, ih hinv hnext hx]

/-- Between rounds nothing is queued; a round removes exactly the clients whose
connection was closed or to which a send failed, the others keeping their order;
and clients that are in the list at both ends of a stretch of rounds are all
sent the same, the chunks received in it. -/
theorem relay_total_order (listening : Bool) (before : List Event) :
    let w := Runs.run step (start listening) before
    w.server.pktQueue = [] ∧ w.ids.Nodup ∧
    (∀ e, (w.step e).ids.Sublist (w.ids ++ w.joining e) ∧
      (∀ x ∈ w.ids,
        x ∉ (w.step e).ids ↔ e.recv x = some [] ∨ w.SendFailed e x) ∧
      ∀ x ∈ w.joining e, x ∉ (w.step e).ids ↔ w.SendFailed e x) ∧
    ∀ during x, x ∈ w.ids → x ∈ (Runs.run step w during).ids →
      streamOf x (w.sentIn during) = (w.receivedIn during).flatten := by
  intro w
  have h : w.Inv := Runs.run_inv step_inv (start_inv listening) before
  refine ⟨h.tidy.queue, h.tidy.nodup, fun e => ⟨?_, ?_, ?_⟩, ?_⟩
  · rw [ids_step h]
    exact List.filter_sublist.append List.filter_sublist
  · intro x hx
    have hnew : x ∉ w.joining e := by
      intro hmem
      exact absurd (joining_eq_of_mem hmem).1 (Nat.ne_of_lt (h.fresh x hx))
    have hclosed : ServerSmoke.closed (w.roundOf e) x = true ↔
        e.recv x = some [] := ServerSmoke.closed_iff _
    rw [ids_step h, List.mem_append, List.mem_filter, List.mem_filter,
      sendFailed_iff, ← hclosed]
    simp [hx, hnew, imp_iff_not_or]
  · intro x hx
    have hold : x ∉ w.ids := by
      intro hmem
      exact absurd (joining_eq_of_mem hx).1 (Nat.ne_of_lt (h.fresh x hmem))
    rw [ids_step h, List.mem_append, List.mem_filter, List.mem_filter,
      sendFailed_iff]
    simp [hx, hold]
  · intro during x hx hlast
    exact streamOf_sentIn h (h.fresh x hx) hlast

def quiet : Event := ⟨false, fun _ => none, fun _ _ => bufsz⟩

/-- Three clients join. Then 0 and 1 send at once, 2 has closed its connection,
and the second message does not fit into the buffer of 1. -/
def joinAll : List Event := List.replicate 3 { quiet with accept := true }

def crowded : Event where
  accept := false
  recv := fun x => if x = 0 then some [7, 8] else if x = 1 then some [9] else some []
  send := fun x k => if x = 1 ∧ k = 1 then 0 else bufsz

theorem relay_total_order_crowded :
    let w := Runs.run step (start true) joinAll
    (w.step crowded).ids = [0] ∧
    (2 ∉ (w.step crowded).ids ↔
      crowded.recv 2 = some [] ∨ w.SendFailed crowded 2) ∧
    streamOf 0 (w.sentIn [crowded, crowded]) =
      (w.receivedIn [crowded, crowded]).flatten ∧
    (w.receivedIn [crowded, crowded]).flatten = [7, 8, 9, 7, 8] :=
  ⟨by decide,
    ((relay_total_order true joinAll).2.2.1 crowded).2.1 2 (by decide),
    (relay_total_order true joinAll).2.2.2 [crowded, crowded] 0 (by decide)
      (by decide),
    by decide⟩

end Rounds

end LibSmoke
