import LibSmoke.Knx.LinuxTcp

/-!
# The serial backend of Miosix

A thread of `MiosixUSART` reads the line and appends what it gets to a vector; an
update puts all of the vector into a ring of 256 bytes, cuts telegrams off it, and
clears the vector. Both hold the lock while they do, so a run is a list of pushes and
updates. The write to the ring is all or nothing, and nobody looks at which: a backlog
that does not fit is gone.
-/

namespace LibSmoke

open Runs

structure MiosixUsart where
  ready : Bool
  running : Bool
  stream : List UInt8
  pkts : List Telegram
  pktbuffer : RingBuffer

namespace MiosixUsart

/-- `UART_RINGBUFSIZE`. -/
def uartRingbufsize : Nat := 256

/-- The buffer of the thread. -/
def uartReadsize : Nat := 128

def new : MiosixUsart := ⟨false, false, [], [], .new uartRingbufsize (by decide)⟩

/-- `init`; `locked` is whether there is no such device or another backend has it. -/
def init (locked : Bool) (b : MiosixUsart) : MiosixUsart × Bool :=
  if locked then (b, false)
  else if b.ready then (b, false)
  else ({ b with ready := true, running := true }, true)

/-- `_thread_push_data`. -/
def threadPushData (data : List UInt8) (b : MiosixUsart) : MiosixUsart :=
  { b with stream := b.stream ++ data }

/-- `_process_packet`; its loop is that of the TCP backend. -/
def processPacket (buf : List UInt8) (b : MiosixUsart) : MiosixUsart :=
  if buf.length = 0 then b
  else
    let r := (b.pktbuffer.write buf).1
    let (r, pkts) := LinuxTcp.processLoop r.size r
    { b with pktbuffer := r, pkts := b.pkts ++ pkts }

def update (b : MiosixUsart) : MiosixUsart × Bool :=
  if b.ready = false ∨ b.running = false then (b, false)
  else if b.stream.length = 0 then (b, true)
  else ({ b.processPacket b.stream with stream := [] }, true)

/-! ## Pushes and updates -/

/-- What the thread and the owner of the backend do. -/
inductive Act
  | push (data : List UInt8) (h : data.length ≤ uartReadsize)
  | update

/-- The backend, and all that was pushed. -/
structure Line where
  b : MiosixUsart
  pushed : List UInt8

def Line.act (s : Line) : Act → Line
  | .push data _ => ⟨s.b.threadPushData data, s.pushed ++ data⟩
  | .update => ⟨s.b.update.1, s.pushed⟩

/-- Nothing is lost: what was pushed is the bytes of the telegrams, those in the ring and
those in the vector, and the telegrams are those that one pass over it all begins with. -/
def Line.Whole (s : Line) : Prop :=
  s.b.pkts.flatMap Telegram.raw ++ (s.b.pktbuffer.contents ++ s.b.stream) = s.pushed ∧
  s.b.pkts ++ Telegram.ofBytes (s.b.pktbuffer.contents ++ s.b.stream) =
    Telegram.ofBytes s.pushed

/-- An update that moves the backlog finds room for it. -/
def Line.Fits (s : Line) : Act → Prop
  | .push _ _ => True
  | .update => s.b.ready = true → s.b.running = true →
      s.b.pktbuffer.size + s.b.stream.length ≤ uartRingbufsize

instance Line.Fits.decidable (s : Line) : ∀ x, Decidable (s.Fits x)
  | .push _ _ => inferInstanceAs (Decidable True)
  | .update => inferInstanceAs (Decidable (_ → _ → _))

/-- The backend has moved the bytes `got` and cut them. -/
structure Line.Decoded (got : List UInt8) (s : Line) : Prop where
  pkts : s.b.pkts.map Telegram.raw = (Framing.decode Telegram.frames got).1
  held : s.b.pktbuffer.contents = (Framing.decode Telegram.frames got).2
  bufsize : s.b.pktbuffer.bufsize = uartRingbufsize
  rest : got ++ s.b.stream = s.pushed

theorem Line.Decoded.whole {got : List UInt8} {s : Line} (h : s.Decoded got) : s.Whole := by
  have hpkts : s.b.pkts = Telegram.ofBytes got := by
    refine List.map_injective_iff.mpr Telegram.raw_injective ?_
    rw [h.pkts, Telegram.map_raw_ofBytes]
  constructor
  · rw [h.held, ← List.append_assoc, hpkts, Telegram.flatMap_raw_ofBytes, h.rest]
  · refine List.map_injective_iff.mpr Telegram.raw_injective ?_
    rw [List.map_append, Telegram.map_raw_ofBytes, Telegram.map_raw_ofBytes, h.pkts, h.held,
      ← h.rest, Framing.decode_append (F := Telegram.frames) got s.b.stream]

/-- What an update does when there is a backlog. -/
theorem update_busy {b : MiosixUsart} (hready : b.ready = true) (hrunning : b.running = true)
    (hstream : b.stream.length ≠ 0) :
    b.update.1 = { b.processPacket b.stream with stream := [] } := by
  have hon : ¬ (b.ready = false ∨ b.running = false) := by
    rw [hready, hrunning]
    rintro (h | h) <;> cases h
  rw [update, if_neg hon, if_neg hstream]

/-- An update that does not get to the backlog. -/
theorem update_idle {b : MiosixUsart}
    (h : ¬ (b.ready = true ∧ b.running = true ∧ b.stream.length ≠ 0)) : b.update.1 = b := by
  rw [update]
  split
  · rfl
  · next hon =>
      rw [not_or, Bool.not_eq_false, Bool.not_eq_false] at hon
      split
      · rfl
      · next hstream => exact absurd ⟨hon.1, hon.2, hstream⟩ h

theorem Line.Decoded.act {got : List UInt8} {s : Line} (h : s.Decoded got) {x : Act}
    (hx : s.Fits x) : ∃ got', (s.act x).Decoded got' := by
  cases x with
  | push data hdata =>
      refine ⟨got, h.pkts, h.held, h.bufsize, ?_⟩
      show got ++ (s.b.stream ++ data) = s.pushed ++ data
      rw [← List.append_assoc, h.rest]
  | update =>
      by_cases hbusy : s.b.ready = true ∧ s.b.running = true ∧ s.b.stream.length ≠ 0
      · obtain ⟨hready, hrunning, hstream⟩ := hbusy
        obtain ⟨hpkts, hrest, hsame⟩ := LinuxTcp.processLoop_write h.held
          (by rw [h.bufsize]; exact hx hready hrunning)
        refine ⟨got ++ s.b.stream, ?_⟩
        rw [Line.act, update_busy hready hrunning hstream, processPacket, if_neg hstream]
        refine ⟨?_, hrest, hsame.trans h.bufsize, ?_⟩
        · show (s.b.pkts ++ _).map Telegram.raw = _
          rw [List.map_append, h.pkts, hpkts]
        · show (got ++ s.b.stream) ++ [] = s.pushed
          rw [List.append_nil, h.rest]
      · refine ⟨got, ?_⟩
        rw [Line.act, update_idle hbusy]
        exact h

theorem Line.Decoded.flatMap_raw {got : List UInt8} {s : Line} (h : s.Decoded got) :
    s.b.pkts.flatMap Telegram.raw ++ s.b.pktbuffer.contents = got := by
  rw [List.flatMap_def, h.pkts, h.held]
  exact Framing.flatten_decode got

/-- A backlog that does not fit is lost. -/
theorem Line.Decoded.lost {got : List UInt8} {s : Line} (h : s.Decoded got) {x : Act}
    (hx : ¬ s.Fits x) : ¬ (s.act x).Whole := by
  cases x with
  | push data hdata => exact absurd trivial hx
  | update =>
      rw [Fits, not_forall] at hx
      obtain ⟨hready, hx⟩ := hx
      rw [not_forall, ← h.bufsize] at hx
      obtain ⟨hrunning, hfull⟩ := hx
      have hstream : s.b.stream.length ≠ 0 := by
        intro hzero
        rw [hzero, Nat.add_zero] at hfull
        exact hfull s.b.pktbuffer.plen_le
      obtain ⟨-, -, hsame⟩ := RingBuffer.write_eq s.b.pktbuffer s.b.stream
      rw [if_neg hfull] at hsame
      obtain ⟨hpkts, hrest, -⟩ :=
        LinuxTcp.processLoop_eq (Nat.le_refl (s.b.pktbuffer.write s.b.stream).1.size)
      have hnone : ¬ Framing.Complete Telegram.frames s.b.pktbuffer.contents := by
        rw [h.held]
        exact Framing.not_complete_rest got
      rw [hsame, Framing.decode_of_not_complete hnone] at hpkts hrest
      rw [Line.act, update_busy hready hrunning hstream, processPacket, if_neg hstream]
      rintro ⟨hbytes, -⟩
      have hgot : got ++ [] = got ++ s.b.stream := by
        rw [h.rest, ← hbytes, ← h.flatMap_raw]
        simp only [List.map_eq_nil_iff.mp hpkts, hrest, List.append_nil]
      exact hstream (congrArg List.length (List.append_cancel_left hgot).symm)

/-- Whatever the flags are, in every run of pushes and updates no byte is lost exactly if
every update that moves a backlog finds room for it. -/
theorem whole_iff (ready running : Bool) (acts : List Act) :
    (∀ n, (run Line.act ⟨{ new with ready := ready, running := running }, []⟩
      (acts.take n)).Whole) ↔
      Meets Line.act Line.Fits ⟨{ new with ready := ready, running := running }, []⟩
        acts := by
  refine Meets.always_iff (I := fun s => ∃ got, s.Decoded got) ?_ ?_ ?_ ?_ acts
  · rintro s ⟨got, hs⟩
    exact hs.whole
  · rintro s x ⟨got, hs⟩ hx
    exact hs.act hx
  · rintro s x ⟨got, hs⟩ hx
    exact hs.lost hx
  · exact ⟨[], rfl, RingBuffer.contents_new _, rfl, rfl⟩

/-- The bytes of one read of the thread. -/
def oneRead : Act := .push (List.replicate uartReadsize 0) List.length_replicate.le

/-- A backend that has been initialised, and three full reads before the next update. -/
theorem backlog_lost : ¬ ∀ acts : List Act,
    (run Line.act ⟨(new.init false).1, []⟩ acts).Whole := by
  intro h
  have hlost := congrArg List.length (h [oneRead, oneRead, oneRead, .update]).1
  revert hlost
  decide +kernel

end MiosixUsart

end LibSmoke
