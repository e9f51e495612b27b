import LibSmoke.Knx.Bd1KeyExchange
import LibSmoke.Knx.MkaCalls

/-!
# The cyclic exchange over its library

`BD1KeyExchange` over any calls of `bd1.h`, as `MkaCalls` has it for `mka.h`: every
call and every free is put down. Both exchanges keep their context
(`contexts_kept`).
-/

namespace LibSmoke

open Lifetimes

structure Bd1Calls (D C ε : Type) where
  init : C → C × Except ε Unit
  genPoint : Nat → D → C → C × Except ε (List UInt8)
  genValue : List UInt8 → Nat → Nat → C → C × Except ε (List UInt8)
  computeKey : List UInt8 → Nat → Nat → Nat → C → C × Except ε (List UInt8)
  free : C → C

/-- The uses of a context. -/
inductive Bd1Op
  | genPoint
  | genValue
  | computeKey
  deriving DecidableEq

structure Bd1Session (C ε : Type) where
  status : KeyStatus
  nodes : Finset UInt16
  keyBuffer : List UInt8
  keylen : Nat
  xKeys : List (UInt16 × List UInt8)
  prev : UInt16
  next : UInt16
  zi : List UInt8
  recvZcnt : UInt8
  handle : Handle Bd1Op C ε

namespace Bd1Session

open Bd1KeyExchange (push tempbuf)

variable {D C ε : Type} (lib : Bd1Calls D C ε) (id : UInt16)

/-- The constructor; the context is what was there. -/
def new (ctx : C) : Bd1Session C ε :=
  ⟨.offline, ∅, List.replicate bd1Bufsize 0, 0, [], 0, 0,
    List.replicate (bd1Bufsize * 2) 0, 0, ⟨ctx, []⟩⟩

/-- `_get_prev_next_nodes`. -/
def getPrevNextNodes (s : Bd1Session C ε) : Bd1Session C ε :=
  let net := NetworkT.of id s.nodes
  { s with prev := net.prev, next := net.next }

def init (drbg : Option D) (nodes : Finset UInt16) (s : Bd1Session C ε) :
    Bd1Session C ε × List Outgoing × Bool :=
  if s.status ≠ .offline then (s, [], false)
  else if nodes.card > 255 ∨ nodes.card < 2 then (s, [], false)
  else
    let s := { s with status := .running, nodes := nodes }
    match drbg with
    | none => ({ s with status := .error }, [], false)
    | some draw =>
        match s.handle.init lib.init with
        | (h, .error _) => ({ s with handle := h, status := .error }, [], false)
        | (h, .ok _) =>
            let s := { getPrevNextNodes id s with recvZcnt := 0 }
            match h.use .genPoint (lib.genPoint bd1Bufsize draw) with
            | (h, .error _) =>
                ({ s with handle := h.free lib.free, status := .error }, [], false)
            | (h, .ok mykey) =>
                ({ s with handle := h }, [bufferPacket broadcastAddr cmdBd1Zi mykey], true)

/-- `shutdown`, which is also all the destructor does. -/
def shutdown (s : Bd1Session C ε) : Bd1Session C ε :=
  { s with
    handle := if s.status ≠ .offline ∧ s.status ≠ .error then s.handle.free lib.free
      else s.handle
    status := .offline }

/-- The body of the reading loop, for one packet. -/
def place (p : Pkt) (s : Bd1Session C ε) : Bd1Session C ε :=
  if p.data.length ≠ bd1Bufsize then s
  else if p.cmd = cmdBd1Zi then
    let s := if p.src = s.prev then
        { s with zi := memcpy s.zi 0 p.data, recvZcnt := s.recvZcnt ||| 1 }
      else s
    if p.src = s.next then
      { s with zi := memcpy s.zi bd1Bufsize p.data, recvZcnt := s.recvZcnt ||| 2 }
    else s
  else if p.cmd = cmdBd1Xi then { s with xKeys := push (p.src, p.data) s.xKeys }
  else s

/-- The reading loop of `update`. -/
def readLoop : List Pkt → Bd1Session C ε → Bd1Session C ε × List Pkt
  | [], s => (s, [])
  | p :: q, s =>
      if s.xKeys.length < s.nodes.card then readLoop q (place p s) else (s, p :: q)

/-- The own difference, once both neighbours' points are there. -/
def ownValue (s : Bd1Session C ε) : Bd1Session C ε × List Outgoing × Bool :=
  if s.recvZcnt = 3 then
    match s.handle.use .genValue (lib.genValue s.zi (2 * bd1Bufsize) bd1Bufsize) with
    | (h, .error _) => ({ s with handle := h.free lib.free, status := .error }, [], false)
    | (h, .ok mykey) =>
        ({ s with
            handle := h
            xKeys := push (id, padded bd1Bufsize mykey) s.xKeys
            recvZcnt := 4 },
          [bufferPacket broadcastAddr cmdBd1Xi mykey], true)
  else (s, [], true)

/-- The key, once all differences are there. -/
def finish (s : Bd1Session C ε) : Bd1Session C ε × Bool :=
  if s.xKeys.length = s.nodes.card then
    let size := bd1Bufsize * s.nodes.card
    match s.handle.use .computeKey (lib.computeKey (padded size (tempbuf id s.xKeys))
        (size - 1) s.nodes.card bd1Bufsize) with
    | (h, .error _) =>
        ({ s with xKeys := [], status := .error, handle := h.free lib.free }, false)
    | (h, .ok key) =>
        ({ s with
            xKeys := []
            handle := h
            keyBuffer := memcpy s.keyBuffer 0 key
            keylen := key.length
            status := .completed }, true)
  else (s, true)

def update (q : List Pkt) (s : Bd1Session C ε) : Act (Bd1Session C ε) :=
  if s.status ≠ .running then ⟨s, q, [], false⟩
  else
    let (s, rest) := readLoop q s
    let (s, wrote, ok) := ownValue lib id s
    if ok then
      let (s, ok) := finish lib id s
      ⟨s, rest, wrote, ok⟩
    else ⟨s, rest, wrote, false⟩

def call (s : Bd1Session C ε) : KeyCall D → Bd1Session C ε
  | .init drbg nodes => (init lib id drbg nodes s).1
  | .update packets => (update lib id packets s).state
  | .shutdown => shutdown lib s

def run (s : Bd1Session C ε) (calls : List (KeyCall D)) : Bd1Session C ε :=
  Runs.run (call lib id) s calls

/-! ## The turns of a call -/

/-- As far as the status and the context go. -/
def turn (s : Bd1Session C ε) : KeyStatus × Handle Bd1Op C ε := (s.status, s.handle)

variable {lib id}

theorem turn_running {s : Bd1Session C ε} (hrun : s.status = .running) :
    s.turn = (.running, s.handle) := by
  rw [turn, hrun]

@[simp] theorem turn_place (p : Pkt) (s : Bd1Session C ε) : (place p s).turn = s.turn := by
  unfold place
  split
  · rfl
  · split
    · simp only []
      split <;> split <;> rfl
    · split <;> rfl

@[simp] theorem turn_readLoop (q : List Pkt) (s : Bd1Session C ε) :
    (readLoop q s).1.turn = s.turn := by
  induction q generalizing s with
  | nil => rfl
  | cons p q ih =>
      rw [readLoop]
      split
      · exact (ih (place p s)).trans (turn_place p s)
      · rfl

section Explicit

variable (lib id)

theorem ownValue_turns {s : Bd1Session C ε} (hrun : s.status = .running) :
    Turns (.running, s.handle) (ownValue lib id s).1.turn ∧
      ((ownValue lib id s).2.2 = true → (ownValue lib id s).1.status = .running) := by
  unfold ownValue
  split
  · split
    · next h e hvalue => exact ⟨.failed hvalue lib.free, fun hok => by cases hok⟩
    · next h mykey hvalue =>
        refine ⟨.single ?_, fun _ => hrun⟩
        rw [turn_running (by exact hrun)]
        exact .of_use hvalue
  · rw [turn_running hrun]
    exact ⟨.refl, fun _ => hrun⟩

theorem finish_turns {s : Bd1Session C ε} (hrun : s.status = .running) :
    Turns (.running, s.handle) (finish lib id s).1.turn := by
  unfold finish
  split
  · simp only []
    split
    · next h e hkey => exact .failed hkey lib.free
    · next h key hkey => exact .tail (.single (.of_use hkey)) (.completed h)
  · rw [turn_running hrun]

end Explicit

theorem update_turns (q : List Pkt) (s : Bd1Session C ε) :
    Turns s.turn (update lib id q s).state.turn := by
  unfold update
  split
  · exact .refl
  · next hrun =>
      have hread := turn_readLoop q s
      have hrun' := (congrArg Prod.fst hread).trans (not_not.mp hrun)
      obtain ⟨hvalue, hstatus⟩ := ownValue_turns lib id hrun'
      rw [← hread, turn_running hrun']
      simp only []
      split
      · next hok =>
          have hfinish := finish_turns lib id (hstatus hok)
          rw [← turn_running (hstatus hok)] at hfinish
          exact hvalue.trans hfinish
      · exact hvalue

theorem init_turns (drbg : Option D) (nodes : Finset UInt16) (s : Bd1Session C ε) :
    Turns s.turn (init lib id drbg nodes s).1.turn := by
  unfold init
  split
  · exact .refl
  · next hoff =>
      split
      · exact .refl
      · rw [turn, not_not.mp hoff]
        simp only []
        split
        · exact .single (.denied _)
        · split
          · next h e hinit => exact .single (.of_init_error hinit)
          · next h u hinit =>
              split
              · next h' e hpoint =>
                  exact .head (.of_init hinit) (Turns.failed hpoint lib.free)
              · next h' mykey hpoint =>
                  exact .tail (.single (.of_init hinit)) (.of_use hpoint)

theorem call_turns (s : Bd1Session C ε) (c : KeyCall D) :
    Turns s.turn (call lib id s c).turn := by
  cases c with
  | init drbg nodes => exact init_turns drbg nodes s
  | update packets => exact update_turns packets s
  | shutdown => exact .single (.shutdown ..)

/-- The calls of an exchange that was destroyed after some calls. -/
theorem run_wellUsed (ctx : C) (calls : List (KeyCall D)) :
    WellUsed (shutdown lib (run lib id (new ctx) calls)).handle.calls := by
  have hstep : ∀ s' c, Turns (new ctx).turn s'.turn →
      Turns (new ctx).turn (call lib id s' c).turn :=
    fun s' c h => h.trans (call_turns s' c)
  have hrun : Turns (new ctx).turn (run lib id (new ctx) calls).turn :=
    Runs.run_inv hstep .refl calls
  exact Turns.wellUsed (hrun.tail (.shutdown ..))

end Bd1Session

/-! ## With the calls of `bd1.c` -/

/-- A context after a call of `bd1.c`, shown as it was where the call fails. -/
def bd1Left {β : Type} (ctx : Bd1Context) :
    Except SbanError (Bd1Context × β) → Bd1Context × Except SbanError β
  | .error e => (ctx, .error e)
  | .ok (ctx, b) => (ctx, .ok b)

def bd1Calls (g : EcpGroup) : Bd1Calls (Nat → Nat) Bd1Context SbanError where
  init _ := (bd1Init g, .ok ())
  genPoint buflen draw ctx := bd1Left ctx (bd1GenPoint ctx buflen draw)
  genValue buf buflen obuflen ctx := bd1Left ctx (bd1GenValue ctx buf buflen obuflen)
  computeKey buf buflen n obuflen ctx := (ctx, bd1ComputeKey ctx buf buflen n obuflen)
  free ctx :=
    ⟨{ ctx.grp with P := 0, A := none, B := 0, G := ⟨0, 0, 0⟩, N := 0 }, 0, ⟨0, 0, 0⟩,
      ⟨0, 0, 0⟩⟩

namespace Bd1Session

variable {g : EcpGroup} {id : UInt16} {d : Option (Nat → Nat)}

/-- The exchange without the list of its calls. -/
def exchange (d : Option (Nat → Nat)) (s : Bd1Session Bd1Context SbanError) :
    Bd1KeyExchange :=
  ⟨s.status, s.nodes, d, s.keyBuffer, s.keylen, s.xKeys, s.handle.ctx, s.prev, s.next,
    s.zi, s.recvZcnt⟩

/-- The same, except for a context that is not live. -/
structure Alike (d : Option (Nat → Nat)) (s : Bd1Session Bd1Context SbanError)
    (m : Bd1KeyExchange) : Prop where
  fields : { m with ctx := s.handle.ctx } = s.exchange d
  ctx : s.status.holds = true → m.ctx = s.handle.ctx

theorem Alike.of_exchange (s : Bd1Session Bd1Context SbanError) :
    Alike d s (s.exchange d) := ⟨rfl, fun _ => rfl⟩

theorem Alike.exchange {s : Bd1Session Bd1Context SbanError} {m : Bd1KeyExchange}
    (h : Alike d s m) (hlive : s.status.holds = true) : s.exchange d = m := by
  rw [← h.fields, ← h.ctx hlive]

variable (s : Bd1Session Bd1Context SbanError)

theorem exchange_place (p : Pkt) : (place p s).exchange d = (s.exchange d).place p := by
  rw [place, Bd1KeyExchange.place]
  refine rel_ite (R := (exchange d · = ·)) (fun _ => rfl) fun _ => ?_
  refine rel_ite (R := (exchange d · = ·)) (fun _ => ?_) fun _ => apply_ite (exchange d) ..
  by_cases hprev : p.src = s.prev
  · simp only [if_pos hprev, show (s.exchange d).prev = s.prev from rfl]
    exact apply_ite (exchange d) ..
  · simp only [if_neg hprev, show (s.exchange d).prev = s.prev from rfl]
    exact apply_ite (exchange d) ..

theorem exchange_readLoop (q : List Pkt) :
    ((readLoop q s).1.exchange d, (readLoop q s).2) =
      Bd1KeyExchange.readLoop q (s.exchange d) := by
  induction q generalizing s with
  | nil => rfl
  | cons p q ih =>
      rw [readLoop, Bd1KeyExchange.readLoop, ← exchange_place, ← ih]
      by_cases hroom : s.xKeys.length < s.nodes.card
      · rw [if_pos hroom, if_pos (by exact hroom)]
      · rw [if_neg hroom, if_neg (by exact hroom)]

variable {s} {m : Bd1KeyExchange}

/-- The part of `update` after the own difference. -/
theorem answers_finish (s : Bd1Session Bd1Context SbanError) (rest : List Pkt)
    (wrote : List Outgoing) :
    ActAnswers (Alike d)
      ⟨(finish (bd1Calls g) id s).1, rest, wrote, (finish (bd1Calls g) id s).2⟩
      ⟨((s.exchange d).finish id).1, rest, wrote, ((s.exchange d).finish id).2⟩ := by
  unfold finish Bd1KeyExchange.finish
  by_cases hall : s.xKeys.length = s.nodes.card
  · rw [if_pos hall, if_pos (by exact hall)]
    simp only [Handle.use, bd1Calls, show (s.exchange d).ctx = s.handle.ctx from rfl,
      show (s.exchange d).xKeys = s.xKeys from rfl, show (s.exchange d).nodes = s.nodes from rfl]
    cases bd1ComputeKey s.handle.ctx
      (padded (bd1Bufsize * s.nodes.card) (Bd1KeyExchange.tempbuf id s.xKeys))
      (bd1Bufsize * s.nodes.card - 1) s.nodes.card bd1Bufsize with
    | error e => exact ⟨rfl, rfl, rfl, fun h => by cases h⟩
    | ok key => exact ⟨rfl, rfl, .of_exchange _⟩
  · rw [if_neg hall, if_neg (by exact hall)]
    exact ⟨rfl, rfl, .of_exchange s⟩

theorem tallies_ownValue (s : Bd1Session Bd1Context SbanError) :
    Tallies (exchange d) (Alike d) (ownValue (bd1Calls g) id s)
      ((s.exchange d).ownValue id) := by
  unfold ownValue Bd1KeyExchange.ownValue
  refine rel_ite (fun _ => ?_) fun _ => ⟨rfl, rfl⟩
  simp only [Handle.use, bd1Calls, show (s.exchange d).ctx = s.handle.ctx from rfl,
    show (s.exchange d).zi = s.zi from rfl]
  cases bd1GenValue s.handle.ctx s.zi (2 * bd1Bufsize) bd1Bufsize with
  | error e => exact ⟨rfl, rfl, fun h => by cases h⟩
  | ok res => exact ⟨rfl, rfl⟩

/-- Alike exchanges take the same packets, write the same and stay alike. -/
theorem Alike.update (h : Alike d s m) (q : List Pkt) :
    ActAnswers (Alike d) (s.update (bd1Calls g) id q) (m.update id q) := by
  have hstatus : m.status = s.status := congrArg Bd1KeyExchange.status h.fields
  rw [Bd1Session.update, Bd1KeyExchange.update, hstatus]
  refine rel_ite (fun _ => ⟨rfl, rfl, h⟩) fun hrun => ?_
  have hlive : s.status.holds = true := by
    rw [not_not.mp hrun]
    rfl
  rw [← h.exchange hlive, ← exchange_readLoop]
  have hvalue : Tallies (Bd1Session.exchange d) (Alike d)
    (ownValue (bd1Calls g) id (readLoop q s).1) _ := tallies_ownValue _
  simp only []
  generalize ownValue (bd1Calls g) id (readLoop q s).1 = r at hvalue ⊢
  generalize ((readLoop q s).1.exchange d).ownValue id = r' at hvalue ⊢
  obtain ⟨s', wrote, ok⟩ := r
  obtain ⟨m', wrote', ok'⟩ := r'
  obtain ⟨hout, hleft⟩ := hvalue
  cases hout
  cases ok with
  | false => exact ⟨rfl, rfl, hleft⟩
  | true =>
      obtain rfl : s'.exchange d = m' := hleft
      exact answers_finish s' (readLoop q s).2 wrote

/-- An exchange that is alike, with a context of its own. -/
theorem Alike.eq (h : Alike d s m) : m = { s.exchange d with ctx := m.ctx } := by
  rw [← h.fields]

theorem Alike.init (h : Alike d s m) (nodes : Finset UInt16) :
    Answers (Alike d) (s.init (bd1Calls g) id d nodes) (m.init g id nodes) := by
  have hown := h.eq
  generalize m.ctx = ctx at hown
  subst hown
  rw [Bd1Session.init, Bd1KeyExchange.init]
  refine rel_ite (fun _ => ⟨rfl, h⟩) fun _ => ?_
  refine rel_ite (fun _ => ⟨rfl, h⟩) fun _ => ?_
  cases d with
  | none => exact ⟨rfl, rfl, fun h => by cases h⟩
  | some draw =>
      simp only [Handle.init, Handle.use, bd1Calls, Bd1KeyExchange.getPrevNextNodes,
        show (s.exchange (some draw)).drbg = some draw from rfl]
      cases bd1GenPoint (bd1Init g) bd1Bufsize draw with
      | error e => exact ⟨rfl, rfl, fun h => by cases h⟩
      | ok res => exact ⟨rfl, .of_exchange _⟩

theorem Alike.shutdown (h : Alike d s m) : Alike d (s.shutdown (bd1Calls g)) m.shutdown := by
  rw [h.eq]
  exact ⟨rfl, fun h => by cases h⟩

/-- Along every run the two stay alike. -/
theorem Alike.run (h : Alike d s m) {calls : List (KeyCall (Nat → Nat))}
    (hd : ∀ drbg nodes, KeyCall.init drbg nodes ∈ calls → drbg = d) :
    Alike d (s.run (bd1Calls g) id calls) (Runs.run (bd1KeyExchange g id).call m calls) :=
  run_related (fun _ _ nodes h => (h.init nodes).2) (fun _ _ q h => (h.update q).2.2)
    (fun _ _ h => h.shutdown) h hd

end Bd1Session

/-- Whatever the calls return, and whatever is asked of the exchanges before they are
destroyed: each context that was initialised is freed once, before it is initialised
again, and at no other time is one freed or used. -/
theorem contexts_kept {D C C' ε ε' : Type} (mka : MkaCalls D C ε) (bd1 : Bd1Calls D C' ε')
    (id : UInt16) (ctx : C) (ctx' : C') (calls : List (KeyCall D)) :
    WellUsed (((MkaSession.new ctx).run mka calls).shutdown mka).handle.calls ∧
    WellUsed (((Bd1Session.new ctx').run bd1 id calls).shutdown bd1).handle.calls :=
  ⟨MkaSession.run_wellUsed ctx calls, Bd1Session.run_wellUsed ctx' calls⟩

end LibSmoke
