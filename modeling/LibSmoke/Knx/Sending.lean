import LibSmoke.Lib.Runs
import LibSmoke.Knx.LinuxTpuart

/-!
# Telegrams on their way out

`PKTWrapper::update` hands every telegram in `_out` to the backend and takes it
off, whatever `broadcast` answers. A telegram the backend did not take over is
then gone: it can be neither in `_out` nor accepted ever after, so a run has lost
nothing exactly if each of its updates found room for all of `_out`
(`kept_iff`).

For TCP that is a connection that takes every send whole; for the TPUART, whose
queue holds 17, one packet of more than 255 bytes is too much
(`long_packet_lost`).
-/

namespace LibSmoke

open Runs

/-- A backend, with whether a `broadcast` takes the telegram over, and whether
an update never returns. -/
structure Outlet (β ε : Type) where
  backend : Backend β ε
  takes : β → Telegram → Bool
  hangs : ε → β → Bool

/-- A packet layer over its backend. What was written and what the backend took
over is kept as history; once an update does not return nothing happens any
more. -/
structure Sender (β : Type) where
  backend : β
  wrapper : PktWrapper
  written : List Telegram
  accepted : List Telegram
  hung : Bool

inductive SenderOp (ε : Type)
  | write (p : Outgoing)
  | update (e : ε)

namespace Sender

variable {β ε : Type} (O : Outlet β ε) (id : UInt16)

/-- The telegrams of a queue that are taken over. -/
def taken : List Telegram → β → List Telegram
  | [], _ => []
  | t :: ts, b =>
      (if O.takes b t then [t] else []) ++ taken ts (O.backend.broadcast b t).1

def step (s : Sender β) : SenderOp ε → Sender β
  | .write p =>
      if s.hung then s
      else
        { s with
          wrapper := (s.wrapper.write id p).1
          written := s.written ++ PktWrapper.telegramsOf id p }
  | .update e =>
      if s.hung then s
      else if O.hangs e s.backend then { s with hung := true }
      else
        let b := (O.backend.update e s.backend).1
        let accepted := s.accepted ++ taken O s.wrapper.outQ b
        match PktWrapper.update O.backend id e s.backend s.wrapper with
        | some (b, w) => ⟨b, w, s.written, accepted, false⟩
        | none =>
            ⟨O.backend.flush s.wrapper.outQ b, { s.wrapper with outQ := [] },
              s.written, accepted, true⟩

/-- What was accepted is what was written so far, and the rest still waits. -/
def Kept (s : Sender β) : Prop := s.written = s.accepted ++ s.wrapper.outQ

/-- An update that gets to `_out` hands over all of it. -/
def TakesAll (s : Sender β) : SenderOp ε → Prop
  | .write _ => True
  | .update e =>
      s.hung = false → O.hangs e s.backend = false →
        taken O s.wrapper.outQ (O.backend.update e s.backend).1 = s.wrapper.outQ

theorem taken_sublist (ts : List Telegram) (b : β) :
    (taken O ts b).Sublist ts := by
  induction ts generalizing b with
  | nil => exact List.Sublist.refl []
  | cons t ts ih =>
      rw [taken]
      split
      · exact (ih _).cons_cons t
      · exact (ih _).cons t

theorem outQ_recvOne (w : PktWrapper) (t : Telegram) :
    (PktWrapper.recvOne id w t).outQ = w.outQ := by
  rw [PktWrapper.recvOne]
  split
  · rw [PktWrapper.recompose]
    split
    · rfl
    · split
      · rfl
      · simp only []
        split <;> rfl
  · rfl

theorem outQ_recvLoop {B : Backend β ε} {fuel : Nat} {b b' : β} {w w' : PktWrapper}
    (h : PktWrapper.recvLoop B id fuel b w = some (b', w')) : w'.outQ = w.outQ := by
  induction fuel generalizing b w with
  | zero => cases h
  | succ fuel ih =>
      rw [PktWrapper.recvLoop] at h
      split at h
      · split at h
        · exact (ih h).trans (outQ_recvOne id w _)
        · exact ih h
      · cases h
        rfl

/-- Either nothing moves, or a packet is written, or `_out` is emptied and what
the backend takes of it is accepted. -/
theorem step_cases (s : Sender β) (op : SenderOp ε) :
    ((∃ b, step O id s op = { s with hung := b }) ∧ TakesAll O s op) ∨
    (∃ p, op = .write p ∧ (step O id s op).accepted = s.accepted ∧
      (step O id s op).written = s.written ++ PktWrapper.telegramsOf id p ∧
      (step O id s op).wrapper.outQ =
        s.wrapper.outQ ++ PktWrapper.telegramsOf id p) ∨
    ∃ e, op = .update e ∧ s.hung = false ∧ O.hangs e s.backend = false ∧
      (step O id s op).written = s.written ∧
      (step O id s op).wrapper.outQ = [] ∧
      (step O id s op).accepted = s.accepted ++
        taken O s.wrapper.outQ (O.backend.update e s.backend).1 := by
  cases op with
  | write p =>
      cases hhung : s.hung with
      | true =>
          refine .inl ⟨⟨true, ?_⟩, trivial⟩
          rw [step, if_pos hhung, ← hhung]
      | false =>
          refine .inr (.inl ⟨p, rfl, ?_⟩)
          rw [step, if_neg (by simp [hhung])]
          exact ⟨rfl, rfl, rfl⟩
  | update e =>
      rw [step, TakesAll]
      cases hhung : s.hung with
      | true =>
          refine .inl ⟨⟨true, ?_⟩, fun hno => Bool.noConfusion hno⟩
          rw [if_pos rfl, ← hhung]
      | false =>
          cases hhang : O.hangs e s.backend with
          | true =>
              refine .inl ⟨⟨true, ?_⟩, fun _ hno => Bool.noConfusion hno⟩
              rw [if_neg Bool.false_ne_true, if_pos rfl]
          | false =>
              refine .inr (.inr ⟨e, rfl, rfl, hhang, ?_⟩)
              rw [if_neg Bool.false_ne_true, if_neg Bool.false_ne_true]
              simp only []
              split
              · next b w hupd =>
                  exact ⟨rfl, outQ_recvLoop id hupd, rfl⟩
              · exact ⟨rfl, rfl, rfl⟩

theorem step_kept {s : Sender β} {op : SenderOp ε} (h : s.Kept)
    (hop : TakesAll O s op) : (step O id s op).Kept := by
  rcases step_cases O id s op with
    ⟨⟨b, heq⟩, -⟩ | ⟨p, -, hacc, hwritten, hout⟩ |
      ⟨e, rfl, hhung, hhang, hwritten, hout, hacc⟩
  · rw [heq]
    exact h
  · rw [Kept, hacc, hwritten, hout, h, List.append_assoc]
  · rw [Kept, hacc, hwritten, hout, hop hhung hhang, List.append_nil]
    exact h

/-- As many telegrams are gone for good. -/
def missing (s : Sender β) : Nat :=
  s.written.length - (s.accepted.length + s.wrapper.outQ.length)

/-- What is accepted or waits was written, once each. -/
def Bounded (s : Sender β) : Prop :=
  s.accepted.length + s.wrapper.outQ.length ≤ s.written.length

/-- No step brings a lost telegram back, and an update that does not hand over
all loses one. -/
theorem step_missing {s : Sender β} (op : SenderOp ε) (h : s.Bounded) :
    (step O id s op).Bounded ∧ s.missing ≤ (step O id s op).missing ∧
      (¬ TakesAll O s op → 0 < (step O id s op).missing) := by
  rw [Bounded] at h ⊢
  rw [missing, missing]
  rcases step_cases O id s op with
    ⟨⟨b, heq⟩, hall⟩ | ⟨p, rfl, hacc, hwritten, hout⟩ |
      ⟨e, rfl, hhung, hhang, hwritten, hout, hacc⟩
  · rw [heq]
    exact ⟨h, Nat.le_refl _, fun hno => absurd hall hno⟩
  · rw [hacc, hwritten, hout, List.length_append, List.length_append]
    refine ⟨by omega, by omega, fun hno => absurd trivial hno⟩
  · have hsub := taken_sublist O s.wrapper.outQ (O.backend.update e s.backend).1
    have hle := hsub.length_le
    rw [hacc, hwritten, hout, List.length_append, List.length_nil]
    refine ⟨by omega, by omega, ?_⟩
    intro hno
    have hlt : (taken O s.wrapper.outQ
        (O.backend.update e s.backend).1).length < s.wrapper.outQ.length := by
      refine Nat.lt_of_le_of_ne hle fun heq => hno fun _ _ => ?_
      exact hsub.eq_of_length heq
    omega

theorem run_missing {s : Sender β} (h : s.Bounded) (ops : List (SenderOp ε)) :
    s.missing ≤ (run (step O id) s ops).missing := by
  induction ops generalizing s with
  | nil => exact Nat.le_refl _
  | cons op ops ih =>
      obtain ⟨hnext, hle, -⟩ := step_missing O id op h
      exact Nat.le_trans hle (ih hnext)

theorem Kept.missing {s : Sender β} (h : s.Kept) : s.missing = 0 := by
  rw [Sender.missing, h, List.length_append, Nat.sub_self]

theorem Kept.bounded {s : Sender β} (h : s.Kept) : s.Bounded := by
  rw [Bounded, h, List.length_append]

/-- A run has lost nothing exactly if every update handed over all of `_out`. -/
theorem kept_iff {s : Sender β} (h : s.Kept) (ops : List (SenderOp ε)) :
    (run (step O id) s ops).Kept ↔ Meets (step O id) (TakesAll O) s ops := by
  induction ops generalizing s with
  | nil => exact ⟨fun _ => trivial, fun _ => h⟩
  | cons op ops ih =>
      constructor
      · intro hkept
        have hone : TakesAll O s op := by
          by_contra hno
          obtain ⟨hnext, -, hpos⟩ := step_missing O id op h.bounded
          have hle := run_missing O id hnext ops
          have hzero : (run (step O id) (step O id s op) ops).missing = 0 :=
            Kept.missing hkept
          have hlost := hpos hno
          omega
        exact ⟨hone, (ih (step_kept O id h hone)).mp hkept⟩
      · rintro ⟨hone, hrest⟩
        exact (ih (step_kept O id h hone)).mpr hrest

theorem always_kept_iff {s : Sender β} (h : s.Kept) (ops : List (SenderOp ε)) :
    (∀ n, (run (step O id) s (ops.take n)).Kept) ↔
      Meets (step O id) (TakesAll O) s ops := by
  constructor
  · intro hall
    have hlast := hall ops.length
    rw [List.take_length] at hlast
    exact (kept_iff O id h ops).mp hlast
  · intro hmeets n
    exact (kept_iff O id h _).mpr (hmeets.take n)

/-- Before anything is written. -/
def start (b : β) (w : PktWrapper) : Sender β :=
  ⟨b, { w with outQ := [] }, [], [], false⟩

theorem start_kept (b : β) (w : PktWrapper) : (start b w).Kept := rfl

theorem taken_cons (t : Telegram) (ts : List Telegram) (b : β) :
    taken O (t :: ts) b = t :: ts ↔
      O.takes b t = true ∧ taken O ts (O.backend.broadcast b t).1 = ts := by
  rw [taken]
  by_cases htake : O.takes b t = true
  · rw [if_pos htake, List.singleton_append]
    simp [htake]
  · have hle := (taken_sublist O ts (O.backend.broadcast b t).1).length_le
    rw [if_neg htake, List.nil_append]
    constructor
    · intro heq
      rw [heq, List.length_cons] at hle
      omega
    · exact fun h => absurd h.1 htake

end Sender

/-! ## TCP -/

/-- The backend with what the sends of an update come to: how much of a telegram
the `k`-th takes, nothing being a send that fails. -/
structure TcpLine where
  tcp : LinuxTcp
  sends : Nat → Option Nat
  sent : Nat

namespace TcpLine

/-- The result of `send` is returned as a `bool`: -1 is true. -/
def broadcast (b : TcpLine) (t : Telegram) : TcpLine × Bool :=
  if b.tcp.ready = false then (b, false)
  else
    match b.sends b.sent with
    | none => ({ b with sent := b.sent + 1 }, true)
    | some n =>
        ({ b with
            tcp := { b.tcp with wire := b.tcp.wire ++ t.raw.take n }
            sent := b.sent + 1 }, n != 0)

/-- All of the telegram is sent. -/
def takes (b : TcpLine) (t : Telegram) : Bool :=
  b.tcp.ready && (b.sends b.sent).any fun n => t.raw.length ≤ n

/-- There is nothing to send, or the connection takes every telegram whole. -/
def Room (s : Sender TcpLine) : SenderOp (TcpEvent × (Nat → Option Nat)) → Prop
  | .write _ => True
  | .update (_, sends) =>
      s.hung = false → s.wrapper.outQ ≠ [] →
        s.backend.tcp.ready = true ∧ ∀ k t, s.wrapper.outQ[k]? = some t →
          (sends k).any (fun n => t.raw.length ≤ n) = true

end TcpLine

/-- The TCP backend under a packet layer. -/
def tcpOutlet : Outlet TcpLine (TcpEvent × (Nat → Option Nat)) where
  backend := {
    update := fun e b => (⟨(b.tcp.update e.1).1, e.2, 0⟩, (b.tcp.update e.1).2)
    broadcast := TcpLine.broadcast
    read := fun b => ({ b with tcp := b.tcp.read.1 }, b.tcp.read.2)
    count := fun b => b.tcp.count }
  takes := TcpLine.takes
  hangs := fun _ _ => false

theorem TcpLine.broadcast_sent {b : TcpLine} (h : b.tcp.ready = true)
    (t : Telegram) :
    (b.broadcast t).1.tcp.ready = true ∧ (b.broadcast t).1.sends = b.sends ∧
      (b.broadcast t).1.sent = b.sent + 1 := by
  rw [TcpLine.broadcast, if_neg (by simp [h])]
  split
  · exact ⟨h, rfl, rfl⟩
  · exact ⟨h, rfl, rfl⟩

theorem TcpLine.taken_iff (ts : List Telegram) (b : TcpLine) :
    Sender.taken tcpOutlet ts b = ts ↔
      (ts ≠ [] → b.tcp.ready = true ∧ ∀ k t, ts[k]? = some t →
        (b.sends (b.sent + k)).any (fun n => t.raw.length ≤ n) = true) := by
  induction ts generalizing b with
  | nil => simp [Sender.taken]
  | cons t ts ih =>
      have hone : tcpOutlet.takes b t = true ↔ b.tcp.ready = true ∧
          (b.sends b.sent).any (fun n => t.raw.length ≤ n) = true := by
        rw [← Bool.and_eq_true]
        rfl
      rw [Sender.taken_cons, ih, hone]
      constructor
      · rintro ⟨⟨hready, hfirst⟩, hrest⟩ -
        obtain ⟨-, hsends, hsent⟩ := TcpLine.broadcast_sent hready t
        refine ⟨hready, fun k u hu => ?_⟩
        cases k with
        | zero =>
            cases Option.some.inj hu
            exact hfirst
        | succ k =>
            have hu : ts[k]? = some u := hu
            have hne : ts ≠ [] := by
              rintro rfl
              cases hu
            have hnext := (hrest hne).2 k u hu
            rw [show (tcpOutlet.backend.broadcast b t).1 = (b.broadcast t).1 from rfl,
              hsends, hsent] at hnext
            rwa [Nat.add_assoc, Nat.add_comm 1 k] at hnext
      · intro h
        obtain ⟨hready, hall⟩ := h (List.cons_ne_nil t ts)
        obtain ⟨hready', hsends, hsent⟩ := TcpLine.broadcast_sent hready t
        refine ⟨⟨hready, hall 0 t rfl⟩, fun _ => ⟨hready', fun k u hu => ?_⟩⟩
        rw [show (tcpOutlet.backend.broadcast b t).1 = (b.broadcast t).1 from rfl,
          hsends, hsent, Nat.add_assoc, Nat.add_comm 1 k]
        exact hall (k + 1) u hu

theorem TcpLine.room_iff (s : Sender TcpLine)
    (op : SenderOp (TcpEvent × (Nat → Option Nat))) :
    s.TakesAll tcpOutlet op ↔ Room s op := by
  cases op with
  | write p => exact Iff.rfl
  | update e =>
      obtain ⟨e, sends⟩ := e
      rw [Sender.TakesAll, TcpLine.taken_iff, Room]
      have hready : (s.backend.tcp.update e).1.ready = s.backend.tcp.ready := by
        unfold LinuxTcp.update
        split
        · rfl
        · cases e with
          | recv buf hbuf => exact LinuxTcp.ready_processPacket buf _
          | _ => rfl
      simp only [tcpOutlet, hready, Nat.zero_add, forall_const]

/-! ## The TPUART -/

def uartOutlet (id : UInt16) : Outlet LinuxTpuart UartEvent where
  backend := linuxTpuart id
  takes := fun b _ => b.output.length ≤ outputMaxSize
  hangs := LinuxTpuart.hangs id

namespace LinuxTpuart

/-- There is nothing to send, or room in the queue for all of it. -/
def Room (id : UInt16) (s : Sender LinuxTpuart) : SenderOp UartEvent → Prop
  | .write _ => True
  | .update e =>
      s.hung = false → hangs id e s.backend = false → s.wrapper.outQ ≠ [] →
        s.backend.waiting + s.wrapper.outQ.length ≤ outputMaxSize + 1

theorem taken_iff (id : UInt16) (ts : List Telegram) (b : LinuxTpuart) :
    Sender.taken (uartOutlet id) ts b = ts ↔
      (ts ≠ [] → b.output.length + ts.length ≤ outputMaxSize + 1) := by
  induction ts generalizing b with
  | nil => simp [Sender.taken]
  | cons t ts ih =>
      have hone : (uartOutlet id).takes b t = true ↔
          b.output.length ≤ outputMaxSize := decide_eq_true_iff
      rw [Sender.taken_cons, ih, hone, List.length_cons]
      by_cases hroom : b.output.length ≤ outputMaxSize
      · have hnext : ((uartOutlet id).backend.broadcast b t).1.output.length =
            b.output.length + 1 := by
          show (b.broadcast t).1.output.length = _
          rw [broadcast, if_neg (by omega), List.length_append,
            List.length_singleton]
        rw [hnext]
        cases ts with
        | nil =>
            simp [hroom]
        | cons u us =>
            simp [hroom]
            omega
      · simp [hroom]
        omega

theorem room_iff (id : UInt16) (s : Sender LinuxTpuart) (op : SenderOp UartEvent) :
    s.TakesAll (uartOutlet id) op ↔ Room id s op := by
  cases op with
  | write p => exact Iff.rfl
  | update e =>
      rw [Sender.TakesAll, taken_iff, Room]
      refine forall_congr' fun _ => forall_congr' fun hhang => ?_
      show (_ → (update id e s.backend).1.output.length + _ ≤ _) ↔ _
      rw [length_update hhang]

end LinuxTpuart

/-- What the two backends have accepted is, in every state of a run, what was
written so far, the rest being still in `_out`, exactly if no update finds less
room than there is to send: on TCP every send of an update is whole, on the
TPUART what is in `_out` fits into the queue. -/
theorem telegrams_kept (id : UInt16) (w : PktWrapper) :
    (∀ b ops, (∀ n, (run (Sender.step tcpOutlet id) (.start b w)
        (ops.take n)).Kept) ↔
      Meets (Sender.step tcpOutlet id) TcpLine.Room (.start b w) ops) ∧
    ∀ b ops, (∀ n, (run (Sender.step (uartOutlet id) id) (.start b w)
        (ops.take n)).Kept) ↔
      Meets (Sender.step (uartOutlet id) id) (LinuxTpuart.Room id) (.start b w)
        ops := by
  constructor
  · intro b ops
    rw [Sender.always_kept_iff tcpOutlet id (Sender.start_kept b w)]
    exact Meets.congr TcpLine.room_iff
  · intro b ops
    rw [Sender.always_kept_iff (uartOutlet id) id (Sender.start_kept b w)]
    exact Meets.congr (LinuxTpuart.room_iff id)

/-- A packet that makes 18 telegrams. -/
def longPacket : Outgoing :=
  ⟨broadcastAddr, 0x20, List.replicate 253 0, by
    rw [List.length_replicate]
    omega⟩

theorem length_telegramsOf_longPacket (id : UInt16) :
    (PktWrapper.telegramsOf id longPacket).length = 18 := by
  have hbody : longPacket.body.length = 253 := List.length_replicate
  rw [PktWrapper.telegramsOf, PktWrapper.packetize, List.length_map,
    List.length_range, PktWrapper.rawOf_length, hbody]
  rfl

/-- The queue of an idle TPUART has no room for more than 17 telegrams. -/
theorem packet_lost {id : UInt16} {w : PktWrapper} {p : Outgoing}
    (h : outputMaxSize + 1 < (PktWrapper.telegramsOf id p).length) :
    ¬ (run (Sender.step (uartOutlet id) id)
      (.start (LinuxTpuart.new.init true).1 w) [.write p, .update .timeout]).Kept := by
  intro hkept
  have hmeets :=
    (Sender.kept_iff (uartOutlet id) id (Sender.start_kept _ _) _).mp hkept
  have hroom := (LinuxTpuart.room_iff id _ _).mp hmeets.2.1
  have hfull : 0 + (PktWrapper.telegramsOf id p).length ≤ outputMaxSize + 1 := by
    refine hroom rfl rfl ?_
    intro hnil
    have hzero : (PktWrapper.telegramsOf id p).length = 0 :=
      congrArg List.length hnil
    omega
  omega

/-- Of 18 telegrams the last is lost. -/
theorem long_packet_lost :
    ¬ (run (Sender.step (uartOutlet 1) 1)
      (.start (LinuxTpuart.new.init true).1 (.new 4 (by decide)))
      [.write longPacket, .update .timeout]).Kept := by
  refine packet_lost ?_
  rw [length_telegramsOf_longPacket]
  decide

end LibSmoke
