import LibSmoke.Knx.LinuxTcp

/-!
# The TPUART backend

`LinuxTPUART` talks to a bus coupler over a serial line. Telegrams to be sent
wait in a queue of at most 17, out of which an update sends one if the coupler
has confirmed the one before. What the coupler says is a stream of confirmations,
error codes and telegrams. On a byte that begins none of these the loop that
takes the stream apart takes nothing off, and so goes on forever.
-/

namespace LibSmoke

/-- `UART_RINGBUFSIZE`. -/
def uartRingbufsize : Nat := 256

/-- The buffer of one `read`. -/
def uartReadsize : Nat := 128

/-- `output_max_size`: a queue that is longer takes nothing more. -/
def outputMaxSize : Nat := 16

/-- What `select` and `read` come to. -/
inductive UartEvent where
  | selectFailed
  | timeout
  | readFailed
  | read (buf : List UInt8) (h : buf.length ≤ uartReadsize)

/-- `wire` is what was written to the line. -/
structure LinuxTpuart where
  ready : Bool
  output : List Telegram
  pkts : List Telegram
  pktbuffer : RingBuffer
  isPacketOutgoing : Bool
  wire : List UInt8

namespace LinuxTpuart

def new : LinuxTpuart := ⟨false, [], [], .new uartRingbufsize (by decide), false, []⟩

/-- `up` is whether the line could be set up and the coupler answered. -/
def init (up : Bool) (b : LinuxTpuart) : LinuxTpuart × Bool :=
  if b.ready then (b, false)
  else if up then ({ b with ready := true }, true)
  else (b, false)

/-- Whether `_ready` is set plays no part. -/
def broadcast (b : LinuxTpuart) (t : Telegram) : LinuxTpuart × Bool :=
  if b.output.length > outputMaxSize then (b, false)
  else ({ b with output := b.output ++ [t] }, true)

def read (b : LinuxTpuart) : LinuxTpuart × Option Telegram :=
  if b.ready = false then (b, none)
  else
    match b.pkts with
    | [] => (b, none)
    | t :: ts => ({ b with pkts := ts }, some t)

def count (b : LinuxTpuart) : Nat := b.pkts.length

def mustUpdate (b : LinuxTpuart) : Bool := 0 < b.output.length

/-- The bytes of `_send_telegram`: each with its number before it. -/
def sendTelegram (t : Telegram) : List UInt8 :=
  (List.range (t.size - 1)).flatMap (fun i => [0x80 ||| UInt8.ofNat i, t.byte i]) ++
    [0x40 ||| UInt8.ofNat (t.size - 1), t.byte (t.size - 1)]

def processOutgoing (b : LinuxTpuart) : LinuxTpuart :=
  if b.isPacketOutgoing then b
  else
    match b.output with
    | [] => b
    | t :: ts =>
        { b with
          output := ts
          isPacketOutgoing := true
          wire := b.wire ++ sendTelegram t }

theorem dsize_le {b : LinuxTpuart} (h : ¬ LinuxTcp.dsize b.pktbuffer > b.pktbuffer.size) :
    LinuxTcp.dsize b.pktbuffer ≤ b.pktbuffer.size := Nat.le_of_not_gt h

theorem hdr_le {b : LinuxTpuart} (h : ¬ LinuxTcp.dsize b.pktbuffer > b.pktbuffer.size) :
    tgHdr + 1 ≤ b.pktbuffer.size := by
  have hdsize := dsize_le h
  rw [LinuxTcp.dsize, announced] at hdsize
  omega

/-- The loop of `_process_packet`; `none` is a loop that does not end. A round
that goes on takes a byte off, so the size of the ring is fuel enough. -/
def processLoop (id : UInt16) : Nat → LinuxTpuart → Option LinuxTpuart
  | 0, b => some b
  | fuel + 1, b =>
      if b.pktbuffer.size > 0 then
        let opcode := ((b.pktbuffer.peek 1).getD []).getD 0 0
        let rest := (b.pktbuffer.remove 1).1
        if opcode &&& 0x7f = 0x0b then
          processLoop id fuel { b with isPacketOutgoing := false, pktbuffer := rest }
        else if opcode &&& 0x07 = 0x07 then
          processLoop id fuel { b with pktbuffer := rest }
        else if opcode &&& 0xd3 = 0x90 then
          if b.pktbuffer.size < tgHdr then some b
          else if h : LinuxTcp.dsize b.pktbuffer > b.pktbuffer.size then some b
          else
            let pkt := LinuxTcp.front b.pktbuffer (hdr_le h) (dsize_le h)
            let rest := (b.pktbuffer.read (LinuxTcp.dsize b.pktbuffer)).1
            let pkts := if pkt.src ≠ id ∧ pkt.check then b.pkts ++ [pkt] else b.pkts
            processLoop id fuel { b with pktbuffer := rest, pkts := pkts }
        else none
      else some b

/-- `_process_packet`. -/
def processPacket (id : UInt16) (buf : List UInt8) (b : LinuxTpuart) :
    Option LinuxTpuart :=
  if buf.length = 0 then some b
  else
    let r := (b.pktbuffer.write buf).1
    processLoop id r.size { b with pktbuffer := r }

/-- `update`, if it returns. -/
def tryUpdate (id : UInt16) (e : UartEvent) (b : LinuxTpuart) :
    Option (LinuxTpuart × Bool) :=
  if b.ready = false then some (b, false)
  else
    let b := b.processOutgoing
    match e with
    | .selectFailed => some (b, false)
    | .timeout => some (b, true)
    | .readFailed => some (b, false)
    | .read buf _ => (b.processPacket id buf).map fun b => (b, true)

def hangs (id : UInt16) (e : UartEvent) (b : LinuxTpuart) : Bool :=
  (tryUpdate id e b).isNone

/-- An update that returns; one that does not counts as one that has sent. -/
def update (id : UInt16) (e : UartEvent) (b : LinuxTpuart) : LinuxTpuart × Bool :=
  (tryUpdate id e b).getD (b.processOutgoing, false)

/-! ## The queue of telegrams to be sent -/

theorem output_processLoop {id : UInt16} {fuel : Nat} {b b' : LinuxTpuart}
    (h : processLoop id fuel b = some b') : b'.output = b.output := by
  induction fuel generalizing b with
  | zero =>
      cases h
      rfl
  | succ fuel ih =>
      simp only [processLoop] at h
      split at h
      · split at h
        · exact (ih h :)
        · split at h
          · exact (ih h :)
          · split at h
            · split at h
              · cases h
                rfl
              · split at h
                · cases h
                  rfl
                · exact (ih h :)
            · cases h
      · cases h
        rfl

/-- How many telegrams wait once an update has sent one. -/
def waiting (b : LinuxTpuart) : Nat :=
  if b.ready && !b.isPacketOutgoing then b.output.length - 1 else b.output.length

theorem length_processOutgoing {b : LinuxTpuart} (h : b.ready = true) :
    b.processOutgoing.output.length = b.waiting := by
  rw [processOutgoing, waiting, h, Bool.true_and]
  cases b.isPacketOutgoing with
  | true => rfl
  | false =>
      rw [if_neg Bool.false_ne_true, Bool.not_false, if_pos rfl]
      split
      · next hnil =>
          rw [hnil]
          rfl
      · next t ts hcons =>
          rw [hcons]
          rfl

theorem length_update {id : UInt16} {e : UartEvent} {b : LinuxTpuart}
    (h : hangs id e b = false) : (update id e b).1.output.length = b.waiting := by
  rw [hangs, Option.isNone_eq_false_iff, Option.isSome_iff_exists] at h
  obtain ⟨res, hres⟩ := h
  rw [update, hres, Option.getD_some]
  rw [tryUpdate] at hres
  split at hres
  · next hready =>
      cases hres
      rw [waiting, hready]
      rfl
  · next hready =>
      have hout := length_processOutgoing (by simpa using hready)
      simp only [] at hres
      split at hres
      · cases hres
        exact hout
      · cases hres
        exact hout
      · cases hres
        exact hout
      · next buf _ =>
          obtain ⟨b', hb', rfl⟩ := Option.map_eq_some_iff.mp hres
          rw [processPacket] at hb'
          split at hb'
          · cases hb'
            exact hout
          · exact (congrArg List.length (output_processLoop hb')).trans hout

end LinuxTpuart

/-- The TPUART backend as the packet layer sees it, on the device with the
given id. -/
def linuxTpuart (id : UInt16) : Backend LinuxTpuart UartEvent where
  update := LinuxTpuart.update id
  broadcast := LinuxTpuart.broadcast
  read := LinuxTpuart.read
  count := LinuxTpuart.count

end LibSmoke
