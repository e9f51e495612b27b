import LibSmoke.Lib.Keyed
import LibSmoke.Knx.Backend
import LibSmoke.Knx.MultiRings

/-!
# The packet layer

`PKTWrapper` cuts packets into telegrams and puts them together again. A packet
is a command byte, a big-endian length and a body; `_packetize` sends these
bytes fifteen at a time, and `_recompose` appends the body of every telegram it
keeps to the ring of the telegram's source and takes off whole packets.

A ring is written whole or not at all, and `_recompose` does not look at which:
a telegram that meets a full ring is lost without a trace.

The second half of the file says what receiving is in terms of the library: the
packets of a source are frames (`pktFrames`), a source is a lane that appends
and decodes (`lanes`), and the receiver is the machine of all lanes run over the
telegrams it kept (`recvAll_eq`).
-/

namespace LibSmoke

/-- `pkt_t`. -/
structure Pkt where
  cmd : UInt8
  src : UInt16
  dest : UInt16
  data : List UInt8
  deriving DecidableEq

/-- The arguments of `PKTWrapper::write`: `buf` points to `len` bytes, and a
length is 16 bits wide. -/
structure Outgoing where
  dest : UInt16
  cmd : UInt8
  body : List UInt8
  body_lt : body.length < 2 ^ 16

namespace Outgoing

def len (p : Outgoing) : UInt16 := UInt16.ofNat p.body.length

/-- The packet another node should see, `p` having been written by `src`. -/
def pkt (src : UInt16) (p : Outgoing) : Pkt := ⟨p.cmd, src, p.dest, p.body⟩

end Outgoing

structure PktWrapper where
  buffers : Rings UInt16
  outQ : List Telegram
  inQ : List Pkt

namespace PktWrapper

def new (maxClients : Nat) (h : maxClients < 2 ^ 64) : PktWrapper :=
  ⟨Rings.new maxClients h, [], []⟩

/-! ## Sending -/

/-- The configuration of every telegram of a packet. -/
def tgConfig (dest : UInt16) : Config where
  dest := dest
  priority := .normal
  dtype := if dest = broadcastAddr then .group else .individual
  routingCnt := 0

/-- The `i`-th piece of a buffer, the last one as short as it comes. -/
def piece (buf : List UInt8) (i : Nat) : List UInt8 :=
  let sz := if buf.length - tgPayload * i < tgPayload then
    buf.length - tgPayload * i else tgPayload
  (buf.drop (i * tgPayload)).take sz

theorem piece_length_le (buf : List UInt8) (i : Nat) :
    (piece buf i).length ≤ tgPayload := by
  refine Nat.le_trans (List.length_take_le _ _) ?_
  split <;> omega

/-- `_packetize`, on the device with the given id. -/
def packetize (id dest : UInt16) (buf : List UInt8) : List Telegram :=
  let count := buf.length / tgPayload +
    (if buf.length % tgPayload > 0 then 1 else 0)
  (List.range count).map fun i =>
    Telegram.written id (tgConfig dest) (piece buf i) (piece_length_le buf i)

/-- The bytes of a packet: command, length, body. -/
def rawOf (p : Outgoing) : List UInt8 :=
  p.cmd :: bytes16 (toBigEndian16 p.len) ++ p.body

/-- The telegrams of one packet. -/
def telegramsOf (id : UInt16) (p : Outgoing) : List Telegram :=
  packetize id p.dest (rawOf p)

/-- `write`: the telegrams go to the back of `_out`, and the result is `true`
for every packet. -/
def write (id : UInt16) (w : PktWrapper) (p : Outgoing) : PktWrapper × Bool :=
  ({ w with outQ := w.outQ ++ telegramsOf id p }, true)

/-! ## Receiving -/

/-- The length field of a packet header. -/
def lengthAt (hdr : List UInt8) : UInt16 :=
  fromBigEndian16 (word16 (hdr.getD 1 0) (hdr.getD 2 0))

/-- The loop of `_recompose`. A round that takes a packet off takes at least
its header, so the size of the ring is fuel enough. -/
def recomposeLoop (src dest : UInt16) : Nat → RingBuffer →
    RingBuffer × List Pkt
  | 0, r => (r, [])
  | fuel + 1, r =>
      if r.size ≥ 3 then
        let hdr := (r.peek 3).getD []
        let dsize := (lengthAt hdr).toNat
        if r.size < dsize + 3 then (r, [])
        else
          let r := (r.remove 3).1
          let (r, data) := r.read dsize
          let newPkt := ⟨hdr.getD 0 0, src, dest,
            data.getD (List.replicate dsize 0)⟩
          let (r, pkts) := recomposeLoop src dest fuel r
          (r, newPkt :: pkts)
      else (r, [])

theorem bufsize_recomposeLoop (src dest : UInt16) (fuel : Nat)
    (r : RingBuffer) :
    (recomposeLoop src dest fuel r).1.bufsize = r.bufsize := by
  induction fuel generalizing r with
  | zero => rfl
  | succ fuel ih =>
      simp only [recomposeLoop]
      split
      · split
        · rfl
        · rw [ih, RingBuffer.read_eq]
          split
          · simp only []
            rw [(RingBuffer.remove_eq _ _).2.1, (RingBuffer.remove_eq _ _).2.1]
          · simp only []
            rw [(RingBuffer.remove_eq _ _).2.1]
      · rfl

theorem bufsize_recomposed (src dest : UInt16) (ring : RingBuffer)
    (body : List UInt8) (fuel : Nat) :
    (recomposeLoop src dest fuel (ring.write body).1).1.bufsize =
      ring.bufsize :=
  (bufsize_recomposeLoop ..).trans (RingBuffer.write_eq ring body).2.1

/-- `_recompose`, on the device with the given id. -/
def recompose (id : UInt16) (w : PktWrapper) (t : Telegram) : PktWrapper :=
  if t.src = id then w
  else if t.check = false then w
  else
    let got := w.buffers.get t.src
    match got.ptr with
    | none => { w with buffers := got.rings }
    | some p =>
        let r := (p.ring.write t.body).1
        let res := recomposeLoop t.src t.dest r.size r
        { w with
          buffers := got.rings.put p res.1 (bufsize_recomposed ..)
          inQ := w.inQ ++ res.2 }

/-- What `update` does with a telegram it read. -/
def recvOne (id : UInt16) (w : PktWrapper) (t : Telegram) : PktWrapper :=
  if t.dest = broadcastAddr ∨ t.dest = id then recompose id w t else w

def recvAll (id : UInt16) (w : PktWrapper) (ts : List Telegram) : PktWrapper :=
  ts.foldl (recvOne id) w

/-- `read`. -/
def read (w : PktWrapper) : PktWrapper × Option Pkt :=
  match w.inQ with
  | [] => (w, none)
  | p :: ps => ({ w with inQ := ps }, some p)

def count (w : PktWrapper) : Nat := w.inQ.length

section Update

variable {β ε : Type} (B : Backend β ε)

/-- The receive loop of `update`; `none` is a loop still running after `fuel`
rounds. A read that fails leaves the telegram that was constructed to read
into, whose source is the own id, and `_recompose` skips it. -/
def recvLoop (id : UInt16) : Nat → β → PktWrapper → Option (β × PktWrapper)
  | 0, _, _ => none
  | fuel + 1, b, w =>
      if B.count b > 0 then
        match B.read b with
        | (b, some t) => recvLoop id fuel b (recvOne id w t)
        | (b, none) => recvLoop id fuel b w
      else some (b, w)

/-- `update`: the backend first, then everything in `_out`, then everything the
backend has on hand. -/
def update (id : UInt16) (e : ε) (b : β) (w : PktWrapper) :
    Option (β × PktWrapper) :=
  let b := (B.update e b).1
  let b := B.flush w.outQ b
  recvLoop B id (B.count b + 1) b { w with outQ := [] }

/-- Successive calls of `update`, with nothing read or written in between. -/
def updates (id : UInt16) : List ε → β → PktWrapper → Option (β × PktWrapper)
  | [], b, w => some (b, w)
  | e :: es, b, w =>
      match update B id e b w with
      | none => none
      | some (b, w) => updates id es b w

variable {B} {I : β → Prop}

theorem recvLoop_eq (h : B.Steady I) (id : UInt16) {n : Nat} {b : β}
    (hb : I b) (hn : B.count b = n) (w : PktWrapper) :
    recvLoop B id (n + 1) b w =
      some ((B.drain n b).1, recvAll id w (B.drain n b).2) := by
  induction n generalizing b w with
  | zero =>
      rw [recvLoop, if_neg (by omega)]
      rfl
  | succ n ih =>
      obtain ⟨hI, hsome, hcount⟩ := h.read hb (by omega)
      obtain ⟨t, ht⟩ := Option.isSome_iff_exists.mp hsome
      rw [recvLoop, if_pos (by omega),
        show B.read b = ((B.read b).1, some t) from Prod.ext rfl ht]
      simp only []
      rw [ih hI (by omega), Backend.drain, ht]
      rfl

/-- On a steady backend `update` returns, and its receive loop is `recvAll` over
what the backend has on hand after the event and the sends. -/
theorem update_eq (h : B.Steady I) (id : UInt16) (e : ε) {b : β} (hb : I b)
    (w : PktWrapper) {b' : β} (hb' : b' = B.flush w.outQ (B.update e b).1) :
    update B id e b w =
      some ((B.drain (B.count b') b').1,
        recvAll id { w with outQ := [] } (B.drain (B.count b') b').2) := by
  subst hb'
  exact recvLoop_eq h id (h.flush _ (h.update e hb)) rfl _

end Update

/-- An update that sent what was queued and read `ts`. -/
def updated (id : UInt16) (ts : List Telegram) (w : PktWrapper) : PktWrapper :=
  recvAll id { w with outQ := [] } ts

/-! ## Packets as frames -/

/-- The frame format of the packet layer. -/
def pktFrames : Framing.Format UInt8 where
  hdr := 3
  size := fun bs => 3 + (lengthAt bs).toNat
  hdr_pos := Nat.succ_pos _
  hdr_le_size := fun bs => Nat.le_add_right _ _
  size_append := fun {bs} cs h => by
    have hget : ∀ i, i < 3 → (bs ++ cs).getD i 0 = bs.getD i 0 := by
      intro i hi
      rw [List.getD_eq_getElem?_getD, List.getD_eq_getElem?_getD,
        List.getElem?_append_left (by omega)]
    rw [lengthAt, lengthAt, hget 1 (by omega), hget 2 (by omega)]

/-- The packet in a frame. -/
def toPkt (src dest : UInt16) (frame : List UInt8) : Pkt :=
  ⟨frame.getD 0 0, src, dest, frame.drop 3⟩

@[simp] theorem rawOf_length (p : Outgoing) :
    (rawOf p).length = p.body.length + 3 := by
  simp only [rawOf, bytes16, List.cons_append, List.nil_append,
    List.length_cons]

theorem lengthAt_rawOf (p : Outgoing) :
    (lengthAt (rawOf p)).toNat = p.body.length := by
  have hlen : lengthAt (rawOf p) = p.len := by
    simp only [lengthAt, rawOf, bytes16, List.cons_append, List.nil_append,
      List.getD_cons_succ, List.getD_cons_zero, word16_bytes,
      fromBigEndian16_toBigEndian16]
  rw [hlen, Outgoing.len]
  exact UInt16.toNat_ofNat_of_lt' p.body_lt

theorem isFrame_rawOf (p : Outgoing) : Framing.IsFrame pktFrames (rawOf p) := by
  refine ⟨?_, ?_⟩
  · rw [rawOf_length]
    exact Nat.le_add_left _ _
  · show 3 + (lengthAt (rawOf p)).toNat = (rawOf p).length
    rw [lengthAt_rawOf, rawOf_length, Nat.add_comm]

@[simp] theorem toPkt_rawOf (src dest : UInt16) (p : Outgoing) :
    toPkt src dest (rawOf p) = ⟨p.cmd, src, dest, p.body⟩ := by
  simp [toPkt, rawOf, bytes16]

/-- The loop of `_recompose` is the decoder of that format. -/
theorem recomposeLoop_eq (src dest : UInt16) {fuel : Nat} {r : RingBuffer}
    (hfuel : r.size ≤ fuel) :
    (recomposeLoop src dest fuel r).1.contents =
        (Framing.decode pktFrames r.contents).2 ∧
      (recomposeLoop src dest fuel r).2 =
        (Framing.decode pktFrames r.contents).1.map (toPkt src dest) := by
  have hlen := r.contents_length
  induction fuel generalizing r with
  | zero =>
      have hnil : r.contents = [] :=
        RingBuffer.contents_eq_nil_iff.mpr (by omega)
      rw [recomposeLoop, hnil, Framing.decode_nil]
      exact ⟨rfl, rfl⟩
  | succ fuel ih =>
      rw [recomposeLoop]
      by_cases hsize : 3 ≤ r.size
      · have hpeek : (r.peek 3).getD [] = r.contents.take 3 := by
          rw [RingBuffer.peek_eq, if_pos hsize, Option.getD_some]
        have hann : pktFrames.size r.contents =
            3 + (lengthAt (r.contents.take 3)).toNat := by
          have htake : (r.contents.take 3).length = 3 := by
            rw [List.length_take]; omega
          rw [← List.take_append_drop 3 r.contents,
            pktFrames.size_append _ (Nat.le_of_eq htake.symm),
            List.take_append_drop]
          rfl
        rw [if_pos hsize]
        simp only [hpeek]
        by_cases hshort : r.size < (lengthAt (r.contents.take 3)).toNat + 3
        · have hc : ¬ Framing.Complete pktFrames r.contents := fun hc => by
            have := hc.2
            omega
          rw [if_pos hshort, Framing.decode_of_not_complete hc]
          exact ⟨rfl, rfl⟩
        · have hc : Framing.Complete pktFrames r.contents :=
            ⟨by rw [hlen]; exact hsize, by omega⟩
          rw [if_neg hshort, Framing.decode_of_complete hc, hann]
          -- the header is gone: the body is at the front of the ring
          have hrm : (r.remove 3).1.contents = r.contents.drop 3 :=
            RingBuffer.contents_remove hsize
          have hrmsize : (r.remove 3).1.size = r.size - 3 := by
            rw [← RingBuffer.contents_length, hrm, List.length_drop, hlen]
          have hread : (lengthAt (r.contents.take 3)).toNat ≤
              (r.remove 3).1.size := by omega
          rw [RingBuffer.read_eq, if_pos hread]
          simp only [Option.getD_some]
          have hrest : (((r.remove 3).1.remove
              (lengthAt (r.contents.take 3)).toNat).1).contents =
              r.contents.drop (3 + (lengthAt (r.contents.take 3)).toNat) := by
            rw [RingBuffer.contents_remove hread, hrm, List.drop_drop]
          have hrsize := RingBuffer.contents_length ((r.remove 3).1.remove
            (lengthAt (r.contents.take 3)).toNat).1
          obtain ⟨hrec, hpkts⟩ := ih (by
            rw [← hrsize, hrest, List.length_drop]; omega) hrsize
          rw [hrest] at hrec hpkts
          refine ⟨hrec, ?_⟩
          rw [hpkts, List.map_cons]
          congr 1
          have hget : (r.contents.take 3).getD 0 0 = (r.contents.take
              (3 + (lengthAt (r.contents.take 3)).toNat)).getD 0 0 := by
            rw [List.getD_eq_getElem?_getD, List.getD_eq_getElem?_getD,
              List.getElem?_take_of_lt (by omega),
              List.getElem?_take_of_lt (by omega)]
          rw [toPkt, hget, hrm, List.drop_take, Nat.add_sub_cancel_left]
      · have hc : ¬ Framing.Complete pktFrames r.contents := fun hc =>
          hsize (by rw [← hlen]; exact hc.1)
        rw [if_neg hsize, Framing.decode_of_not_complete hc]
        exact ⟨rfl, rfl⟩

end PktWrapper

end LibSmoke
