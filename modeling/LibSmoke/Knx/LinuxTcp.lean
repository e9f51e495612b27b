import LibSmoke.Lib.Loops
import LibSmoke.Lib.Runs
import LibSmoke.Knx.PktWrapper

/-!
# The TCP backend

`LinuxTCP` turns the byte stream of a socket into telegrams. An update takes at
most 128 bytes off the socket and puts them into a ring of 256; whole telegrams
are cut off the front of the ring as long as there are any. What stays behind is
shorter than a telegram, so there is always room for the next 128 bytes, and the
telegrams are those of the stream, however it was cut (`Decoded.processPacket`).
-/

namespace LibSmoke

/-- `TCP_RINGBUFSIZE`. -/
def tcpRingbufsize : Nat := 256

/-- The buffer of one `recv`. -/
def tcpRecvsize : Nat := 128

/-- What `select` and `recv` come to. No bytes means that the connection was
closed. -/
inductive TcpEvent where
  | selectFailed
  | timeout
  | recvFailed
  | recv (buf : List UInt8) (h : buf.length ≤ tcpRecvsize)

/-- `wire` is what was sent on the socket, which takes everything. -/
structure LinuxTcp where
  ready : Bool
  pkts : List Telegram
  pktbuffer : RingBuffer
  wire : List UInt8

namespace LinuxTcp

def new : LinuxTcp := ⟨false, [], .new tcpRingbufsize (by decide), []⟩

/-- `connected` is whether there is a socket and it could be connected. -/
def init (connected : Bool) (b : LinuxTcp) : LinuxTcp × Bool :=
  if b.ready then (b, false)
  else if connected then ({ b with ready := true }, true)
  else (b, false)

def broadcast (b : LinuxTcp) (t : Telegram) : LinuxTcp × Bool :=
  if b.ready then ({ b with wire := b.wire ++ t.raw }, true) else (b, false)

def read (b : LinuxTcp) : LinuxTcp × Option Telegram :=
  if b.ready = false then (b, none)
  else
    match b.pkts with
    | [] => (b, none)
    | t :: ts => ({ b with pkts := ts }, some t)

def pop (b : LinuxTcp) : LinuxTcp := { b with pkts := b.pkts.tail }

def count (b : LinuxTcp) : Nat := b.pkts.length

def shutdown (b : LinuxTcp) : LinuxTcp := { b with ready := false }

def mustUpdate (_ : LinuxTcp) : Bool := false

/-! ## The stream -/

/-- The size of the telegram at the front of the ring. -/
def dsize (r : RingBuffer) : Nat := announced ((r.peek tgHdr).getD [])

theorem dsize_eq {r : RingBuffer} (h : tgHdr + 1 ≤ r.size) :
    dsize r = announced r.contents := by
  rw [dsize, RingBuffer.peek_eq, if_pos (by omega)]
  have hget : (r.contents.take tgHdr).getD 5 0 = r.contents.getD 5 0 := by
    rw [List.getD_eq_getElem?_getD, List.getD_eq_getElem?_getD,
      List.getElem?_take_of_lt (by decide)]
  rw [Option.getD_some, announced, hget, announced]

/-- The telegram at the front of the ring, which holds all of it. -/
def front (r : RingBuffer) (h : tgHdr + 1 ≤ r.size) (hsize : dsize r ≤ r.size) :
    Telegram where
  raw := (r.read (dsize r)).2.getD []
  raw_length := by
    have hle : announced r.contents ≤ r.contents.length := by
      rw [RingBuffer.contents_length, ← dsize_eq h]
      exact hsize
    have hframe : Framing.IsFrame Telegram.frames
        (r.contents.take (announced r.contents)) :=
      Framing.Complete.isFrame_take
        ⟨by rw [RingBuffer.contents_length]; exact h, hle⟩
    rw [RingBuffer.read_eq, if_pos hsize, dsize_eq h]
    exact hframe.2.symm

/-- The loop of `_process_packet`. A round that goes on takes a telegram off, so
the size of the ring is fuel enough. -/
def processLoop : Nat → RingBuffer → RingBuffer × List Telegram
  | 0, r => (r, [])
  | fuel + 1, r =>
      if h : r.size ≥ tgHdr + 1 then
        if hsize : dsize r > r.size then (r, [])
        else
          let pkt := front r h (Nat.le_of_not_gt hsize)
          let (r, pkts) := processLoop fuel (r.read (dsize r)).1
          (r, pkt :: pkts)
      else (r, [])

/-- `_process_packet`. -/
def processPacket (buf : List UInt8) (b : LinuxTcp) : LinuxTcp :=
  if buf.length = 0 then b
  else
    let r := (b.pktbuffer.write buf).1
    let (r, pkts) := processLoop r.size r
    { b with pktbuffer := r, pkts := b.pkts ++ pkts }

def update (e : TcpEvent) (b : LinuxTcp) : LinuxTcp × Bool :=
  if b.ready = false then (b, false)
  else
    match e with
    | .selectFailed => (b, false)
    | .timeout => (b, true)
    | .recvFailed => (b, false)
    | .recv buf _ => (b.processPacket buf, true)

/-! ## What the loop cuts off -/

theorem raw_front {r : RingBuffer} (h : tgHdr + 1 ≤ r.size)
    (hsize : dsize r ≤ r.size) :
    (front r h hsize).raw = r.contents.take (announced r.contents) := by
  show (r.read (dsize r)).2.getD [] = _
  rw [RingBuffer.read_eq, if_pos hsize, dsize_eq h]
  rfl

theorem processLoop_eq {fuel : Nat} {r : RingBuffer} (hfuel : r.size ≤ fuel) :
    (processLoop fuel r).2.map Telegram.raw =
      (Framing.decode Telegram.frames r.contents).1 ∧
    (processLoop fuel r).1.contents =
      (Framing.decode Telegram.frames r.contents).2 ∧
    (processLoop fuel r).1.bufsize = r.bufsize := by
  induction fuel generalizing r with
  | zero =>
      have hnil : r.contents = [] :=
        RingBuffer.contents_eq_nil_iff.mpr (Nat.le_zero.mp hfuel)
      rw [processLoop, hnil, Framing.decode_nil]
      exact ⟨rfl, rfl, rfl⟩
  | succ fuel ih =>
      rw [processLoop]
      by_cases h : r.size ≥ tgHdr + 1
      · have hdsize := dsize_eq h
        rw [dif_pos h]
        by_cases hsize : dsize r > r.size
        · have hshort : ¬ Framing.Complete Telegram.frames r.contents := by
            intro hc
            have hle : announced r.contents ≤ r.contents.length := hc.2
            rw [RingBuffer.contents_length] at hle
            omega
          rw [dif_pos hsize, Framing.decode_of_not_complete hshort]
          exact ⟨rfl, rfl, rfl⟩
        · have hle : dsize r ≤ r.size := Nat.le_of_not_gt hsize
          have hc : Framing.Complete Telegram.frames r.contents := by
            refine ⟨?_, ?_⟩
            · rw [RingBuffer.contents_length]
              exact h
            · show announced r.contents ≤ r.contents.length
              rw [RingBuffer.contents_length, ← hdsize]
              exact hle
          have hpos : 0 < dsize r := by
            rw [hdsize, announced]
            omega
          have hread : (r.read (dsize r)).1 = (r.remove (dsize r)).1 := by
            rw [RingBuffer.read_eq, if_pos hle]
          obtain ⟨-, hbuf, hcont⟩ := RingBuffer.remove_eq r (dsize r)
          rw [if_pos hle, hdsize] at hcont
          have hless : (r.read (dsize r)).1.size ≤ fuel := by
            rw [hread, hdsize, ← RingBuffer.contents_length, hcont,
              List.length_drop, RingBuffer.contents_length]
            omega
          obtain ⟨hpkts, hrest, hsame⟩ := ih hless
          rw [hread, hdsize, hcont] at hpkts hrest
          rw [dif_neg hsize, Framing.decode_of_complete hc]
          refine ⟨?_, ?_, ?_⟩
          · rw [List.map_cons, raw_front h hle, hread, hdsize, hpkts]
            rfl
          · rw [hread, hdsize, hrest]
            rfl
          · rw [hsame, hread, hbuf]
      · have hshort : ¬ Framing.Complete Telegram.frames r.contents := by
          intro hc
          have hle := hc.1
          rw [RingBuffer.contents_length] at hle
          exact h hle
        rw [dif_neg h, Framing.decode_of_not_complete hshort]
        exact ⟨rfl, rfl, rfl⟩

/-- Bytes that fit are cut together with what is left of those before. -/
theorem processLoop_write {r : RingBuffer} {got buf : List UInt8}
    (hheld : r.contents = (Framing.decode Telegram.frames got).2)
    (hroom : r.size + buf.length ≤ r.bufsize) :
    (Framing.decode Telegram.frames got).1 ++
        (processLoop (r.write buf).1.size (r.write buf).1).2.map Telegram.raw =
      (Framing.decode Telegram.frames (got ++ buf)).1 ∧
    (processLoop (r.write buf).1.size (r.write buf).1).1.contents =
      (Framing.decode Telegram.frames (got ++ buf)).2 ∧
    (processLoop (r.write buf).1.size (r.write buf).1).1.bufsize = r.bufsize := by
  obtain ⟨-, hsize, hcont⟩ := RingBuffer.write_eq r buf
  rw [if_pos hroom, hheld] at hcont
  obtain ⟨hpkts, hrest, hsame⟩ := processLoop_eq (Nat.le_refl (r.write buf).1.size)
  rw [hcont] at hpkts hrest
  rw [Framing.decode_append got buf, hpkts, hrest, hsame, hsize]
  exact ⟨rfl, rfl, rfl⟩

@[simp] theorem ready_processPacket (buf : List UInt8) (b : LinuxTcp) :
    (b.processPacket buf).ready = b.ready := by
  rw [processPacket]
  split <;> rfl

@[simp] theorem wire_processPacket (buf : List UInt8) (b : LinuxTcp) :
    (b.processPacket buf).wire = b.wire := by
  rw [processPacket]
  split <;> rfl

/-- What holds no whole telegram is shorter than the longest one. -/
theorem length_of_not_complete {bs : List UInt8}
    (h : ¬ Framing.Complete Telegram.frames bs) : bs.length < tgMax := by
  by_contra hlen
  rw [tgMax] at hlen
  refine h ⟨?_, ?_⟩
  · show tgHdr + 1 ≤ bs.length
    rw [tgHdr]
    omega
  · have hnib : ((bs.getD 5 0) &&& 0x0f).toNat ≤ 15 := by
      rw [UInt8.toNat_and]
      exact Nat.and_le_right
    show announced bs ≤ bs.length
    rw [announced, tgHdr]
    omega

/-- The backend after it has received the bytes `got`: the telegrams of these,
and in the ring what is left over. -/
structure Decoded (got : List UInt8) (b : LinuxTcp) : Prop where
  pkts : b.pkts.map Telegram.raw = (Framing.decode Telegram.frames got).1
  held : b.pktbuffer.contents = (Framing.decode Telegram.frames got).2
  bufsize : b.pktbuffer.bufsize = tcpRingbufsize

theorem Decoded.new : Decoded [] .new := ⟨rfl, RingBuffer.contents_new _, rfl⟩

/-- The ring has room for the bytes of one `recv`. -/
theorem Decoded.room {got : List UInt8} {b : LinuxTcp} (h : Decoded got b)
    {buf : List UInt8} (hbuf : buf.length ≤ tcpRecvsize) :
    b.pktbuffer.size + buf.length ≤ b.pktbuffer.bufsize := by
  have hheld := length_of_not_complete
    (Framing.not_complete_rest (F := Telegram.frames) got)
  rw [← h.held, RingBuffer.contents_length, tgMax] at hheld
  rw [h.bufsize, tcpRingbufsize]
  rw [tcpRecvsize] at hbuf
  omega

/-- So none are lost. -/
theorem Decoded.processPacket {got : List UInt8} {b : LinuxTcp}
    (h : Decoded got b) {buf : List UInt8} (hbuf : buf.length ≤ tcpRecvsize) :
    Decoded (got ++ buf) (b.processPacket buf) := by
  rw [LinuxTcp.processPacket]
  by_cases hnil : buf.length = 0
  · rw [if_pos hnil, List.length_eq_zero_iff.mp hnil, List.append_nil]
    exact h
  · obtain ⟨hpkts, hrest, hsame⟩ := processLoop_write h.held (h.room hbuf)
    rw [if_neg hnil]
    refine ⟨?_, hrest, hsame.trans h.bufsize⟩
    rw [List.map_append, h.pkts, hpkts]

/-- Successive calls of `_process_packet`. -/
def processAll (chunks : List (List UInt8)) (b : LinuxTcp) : LinuxTcp :=
  chunks.foldl (fun b buf => b.processPacket buf) b

theorem Decoded.processAll {got : List UInt8} {b : LinuxTcp} (h : Decoded got b)
    {chunks : List (List UInt8)} (hchunks : ∀ c ∈ chunks, c.length ≤ tcpRecvsize) :
    Decoded (got ++ chunks.flatten) (b.processAll chunks) := by
  induction chunks generalizing got b with
  | nil =>
      rw [List.flatten_nil, List.append_nil]
      exact h
  | cons c cs ih =>
      rw [List.flatten_cons, ← List.append_assoc]
      exact ih (h.processPacket (hchunks c (by simp)))
        fun d hd => hchunks d (List.mem_cons_of_mem c hd)

/-- The telegrams of a stream are the same however it is cut, and those that were
written come out as they went in. -/
theorem telegrams_of_chunks :
    (∀ (ts : List Telegram) (chunks : List (List UInt8)),
      (∀ t ∈ ts, ∃ id c data, Telegram.write id c data = some t) →
      (∀ c ∈ chunks, 0 < c.length ∧ c.length ≤ tcpRecvsize) →
      chunks.flatten = ts.flatMap Telegram.raw →
      (∀ before c rest, chunks = before ++ c :: rest →
        ((processAll before .new).pktbuffer.write c).2 = true) ∧
      (processAll chunks .new).pkts = ts ∧
      ∀ t ∈ (processAll chunks .new).pkts, t.check = true) ∧
    ∀ cs ds : List (List UInt8),
      (∀ c ∈ cs, 0 < c.length ∧ c.length ≤ tcpRecvsize) →
      (∀ d ∈ ds, 0 < d.length ∧ d.length ≤ tcpRecvsize) →
      cs.flatten = ds.flatten →
      (processAll cs .new).pkts = (processAll ds .new).pkts ∧
      (processAll cs .new).pktbuffer.contents =
        (processAll ds .new).pktbuffer.contents := by
  constructor
  · intro ts chunks hts hsizes hflat
    have hdec := Decoded.new.processAll fun c hc => (hsizes c hc).2
    have hpkts : (processAll chunks .new).pkts = ts := by
      refine List.map_injective_iff.mpr Telegram.raw_injective ?_
      rw [hdec.pkts, List.nil_append, hflat, ← Telegram.map_raw_ofBytes,
        Telegram.ofBytes_flatMap]
    refine ⟨?_, hpkts, ?_⟩
    · rintro before c rest rfl
      have hbefore : Decoded ([] ++ before.flatten) (processAll before .new) :=
        Decoded.new.processAll fun d hd => (hsizes d (List.mem_append_left _ hd)).2
      have hc := (hsizes c (List.mem_append_right _ List.mem_cons_self)).2
      rw [(RingBuffer.write_eq _ c).1]
      exact decide_eq_true (hbefore.room hc)
    · intro t ht
      rw [hpkts] at ht
      obtain ⟨id, c, data, hw⟩ := hts t ht
      obtain ⟨h, rfl⟩ := Telegram.written_of_write hw
      exact Telegram.check_written h
  · intro cs ds hcs hds hflat
    have hdec := Decoded.new.processAll fun c hc => (hcs c hc).2
    have hdec' := Decoded.new.processAll fun d hd => (hds d hd).2
    rw [hflat] at hdec
    refine ⟨List.map_injective_iff.mpr Telegram.raw_injective ?_, ?_⟩
    · rw [hdec.pkts, hdec'.pkts]
    · rw [hdec.held, hdec'.held]

/-- A telegram without a body. -/
def shortTelegram : Telegram := .written 2 (PktWrapper.tgConfig 1) [] (by decide)

/-- Two telegrams with bodies, of twelve and ten bytes. -/
def bodyTelegrams : List Telegram :=
  [.written 2 (PktWrapper.tgConfig 1) [0, 0, 2, 7, 9] (by decide),
    .written 1 (PktWrapper.tgConfig 2) [0xff, 0x8b, 5] (by decide)]

/-- Their bytes, cut inside the body of the first and inside the header of the second. -/
def bodyChunks : List (List UInt8) :=
  let bytes := bodyTelegrams.flatMap Telegram.raw
  [bytes.take 8, (bytes.drop 8).take 7, bytes.drop 15]

theorem telegrams_of_chunks_bodies :
    (processAll bodyChunks .new).pkts = bodyTelegrams ∧
      (processAll [[0xb0, 1, 2, 3, 4, 0x61], [7, 8]] .new).pktbuffer.contents =
        (processAll [[0xb0, 1, 2], [3, 4, 0x61, 7], [8]] .new).pktbuffer.contents := by
  refine ⟨(telegrams_of_chunks.1 bodyTelegrams bodyChunks ?_ (by decide) (by decide)).2.1,
    (telegrams_of_chunks.2 [[0xb0, 1, 2, 3, 4, 0x61], [7, 8]]
      [[0xb0, 1, 2], [3, 4, 0x61, 7], [8]] (by decide) (by decide) rfl).2⟩
  intro t ht
  simp only [bodyTelegrams, List.mem_cons, List.not_mem_nil, or_false] at ht
  rcases ht with rfl | rfl
  · exact ⟨2, PktWrapper.tgConfig 1, [0, 0, 2, 7, 9], rfl⟩
  · exact ⟨1, PktWrapper.tgConfig 2, [0xff, 0x8b, 5], rfl⟩

end LinuxTcp

/-- The TCP backend as the packet layer sees it. -/
def linuxTcp : Backend LinuxTcp TcpEvent where
  update := LinuxTcp.update
  broadcast := LinuxTcp.broadcast
  read := LinuxTcp.read
  count := LinuxTcp.count

/-- Once connected, the backend is one the packet layer's loop ends on. -/
theorem linuxTcp_steady : linuxTcp.Steady fun b => b.ready = true where
  update := by
    intro b e h
    show (b.update e).1.ready = true
    unfold LinuxTcp.update
    rw [if_neg (by simp [h])]
    cases e with
    | recv buf hbuf => exact (LinuxTcp.ready_processPacket buf b).trans h
    | _ => exact h
  broadcast := by
    intro b t h
    show (b.broadcast t).1.ready = true
    rw [LinuxTcp.broadcast, if_pos h]
    exact h
  read := by
    intro b h hcount
    show (b.read).1.ready = true ∧ (b.read).2.isSome ∧
      (b.read).1.pkts.length + 1 = b.pkts.length
    have hcount : 0 < b.pkts.length := hcount
    rw [LinuxTcp.read, if_neg (by simp [h])]
    cases hp : b.pkts with
    | nil => rw [hp] at hcount; cases hcount
    | cons t ts => exact ⟨h, rfl, rfl⟩

/-! ## The backend under a packet layer -/

theorem linuxTcp_flush (ts : List Telegram) {b : LinuxTcp}
    (h : b.ready = true) : linuxTcp.flush ts b =
      { b with wire := b.wire ++ ts.flatMap Telegram.raw } := by
  induction ts generalizing b with
  | nil => rw [List.flatMap_nil, List.append_nil]; rfl
  | cons t ts ih =>
      have hone : (linuxTcp.broadcast b t).1 =
          { b with wire := b.wire ++ t.raw } := by
        show (b.broadcast t).1 = _
        rw [LinuxTcp.broadcast, if_pos h]
      have hrest := ih (b := { b with wire := b.wire ++ t.raw }) h
      rw [Backend.flush, hone, hrest, List.flatMap_cons, List.append_assoc]

theorem linuxTcp_drain {b : LinuxTcp} (h : b.ready = true) :
    linuxTcp.drain (linuxTcp.count b) b = ({ b with pkts := [] }, b.pkts) := by
  show linuxTcp.drain b.pkts.length b = _
  induction hp : b.pkts generalizing b with
  | nil =>
      rw [List.length_nil, Backend.drain, ← hp]
  | cons t ts ih =>
      have hone : linuxTcp.read b = ({ b with pkts := ts }, some t) := by
        show b.read = _
        unfold LinuxTcp.read
        rw [if_neg (by simp [h])]
        simp only [hp]
      have hrest := ih (b := { b with pkts := ts }) h rfl
      rw [List.length_cons, Backend.drain, hone]
      simp only []
      rw [hrest]
      rfl

namespace LinuxTcp

/-- A connected backend with nothing on hand that holds part of a telegram. -/
structure Held (held : List UInt8) (b : LinuxTcp) : Prop where
  ready : b.ready = true
  pkts : b.pkts = []
  contents : b.pktbuffer.contents = held
  bufsize : b.pktbuffer.bufsize = tcpRingbufsize
  short : ¬ Framing.Complete Telegram.frames held

theorem Held.decoded {held : List UInt8} {b : LinuxTcp} (h : Held held b) :
    Decoded held b := by
  have hdec := Framing.decode_of_not_complete h.short
  exact ⟨by rw [hdec, h.pkts]; rfl, by rw [hdec, h.contents], h.bufsize⟩

/-- What a packet layer reads in an update. -/
def arrivals (e : TcpEvent) (b : LinuxTcp) : List Telegram := (b.update e).1.pkts

/-- An update that receives `buf`: the telegrams queued for sending go out, and
those that `buf` completes are read. -/
theorem Held.update {held buf : List UInt8} {b : LinuxTcp} (h : Held held b)
    (hbuf : buf.length ≤ tcpRecvsize) (id : UInt16) (w : PktWrapper) :
    ∃ b', PktWrapper.update linuxTcp id (.recv buf hbuf) b w =
        some (b', w.updated id (Telegram.ofBytes (held ++ buf))) ∧
      b.arrivals (.recv buf hbuf) = Telegram.ofBytes (held ++ buf) ∧
      Held (Framing.decode Telegram.frames (held ++ buf)).2 b' ∧
      b'.wire = b.wire ++ w.outQ.flatMap Telegram.raw := by
  have hres : (linuxTcp.update (.recv buf hbuf) b).1 = b.processPacket buf := by
    show (LinuxTcp.update _ b).1 = _
    unfold LinuxTcp.update
    rw [if_neg (by simp [h.ready])]
  have hready : (b.processPacket buf).ready = true :=
    (ready_processPacket buf b).trans h.ready
  have hdec := h.decoded.processPacket hbuf
  have hpkts : (b.processPacket buf).pkts = Telegram.ofBytes (held ++ buf) := by
    refine List.map_injective_iff.mpr Telegram.raw_injective ?_
    rw [Telegram.map_raw_ofBytes]
    exact hdec.pkts
  obtain ⟨b₁, hb₁⟩ : ∃ b₁, b₁ = { b.processPacket buf with
      wire := (b.processPacket buf).wire ++ w.outQ.flatMap Telegram.raw } :=
    ⟨_, rfl⟩
  have hready₁ : b₁.ready = true := by
    rw [hb₁]
    exact hready
  have hflush : b₁ = linuxTcp.flush w.outQ
      (linuxTcp.update (.recv buf hbuf) b).1 := by
    rw [hres, linuxTcp_flush _ hready, hb₁]
  have hupd := PktWrapper.update_eq linuxTcp_steady id (.recv buf hbuf) h.ready w
    hflush
  rw [linuxTcp_drain hready₁] at hupd
  have hpkts₁ : b₁.pkts = Telegram.ofBytes (held ++ buf) := by
    rw [hb₁]
    exact hpkts
  refine ⟨{ b₁ with pkts := [] }, hupd.trans (by rw [hpkts₁]; rfl), ?_, ?_, ?_⟩
  · exact (congrArg LinuxTcp.pkts hres).trans hpkts
  · rw [hb₁]
    exact {
      ready := hready
      pkts := rfl
      contents := hdec.held
      bufsize := hdec.bufsize
      short := Framing.not_complete_rest _ }
  · rw [hb₁]
    show (b.processPacket buf).wire ++ _ = _
    rw [wire_processPacket]

/-! ## Whether the packet layer's loop ends

`count` does not ask whether the backend is ready and `read` does: once shut
down, the backend goes on counting what it no longer hands out. -/

/-- The calls made on a backend. -/
inductive Call where
  | init (connected : Bool)
  | update (e : TcpEvent)
  | broadcast (t : Telegram)
  | read
  | pop
  | shutdown

def call (b : LinuxTcp) : Call → LinuxTcp
  | .init connected => (b.init connected).1
  | .update e => (b.update e).1
  | .broadcast t => (b.broadcast t).1
  | .read => b.read.1
  | .pop => b.pop
  | .shutdown => b.shutdown

/-- One round of the receive loop of `PKTWrapper::update`, as far as the backend
goes. -/
def recvRound (b : LinuxTcp) : Option LinuxTcp :=
  if b.count > 0 then some b.read.1 else none

theorem recvLoop_ne_none (id : UInt16) (n : Nat) (b : LinuxTcp) (w : PktWrapper) :
    PktWrapper.recvLoop linuxTcp id n b w ≠ none ↔ Loops.after recvRound n b = none := by
  induction n generalizing b w with
  | zero => exact iff_of_false (fun h => h rfl) (fun h => by cases h)
  | succ n ih =>
      rw [PktWrapper.recvLoop, Loops.after, recvRound]
      show (if b.count > 0 then _ else some (b, w)) ≠ none ↔ _
      split
      · show _ ↔ Loops.after recvRound n (linuxTcp.read b).1 = none
        rcases linuxTcp.read b with ⟨b', _ | t⟩
        · exact ih b' w
        · exact ih b' (PktWrapper.recvOne id w t)
      · exact iff_of_true (by simp) rfl

/-- The backend as the receive loop of `PKTWrapper::update` finds it. -/
def found (e : TcpEvent) (w : PktWrapper) (b : LinuxTcp) : LinuxTcp :=
  linuxTcp.flush w.outQ (linuxTcp.update e b).1

theorem ready_found {b : LinuxTcp} (h : b.ready = true) (e : TcpEvent) (w : PktWrapper) :
    (found e w b).ready = true :=
  linuxTcp_steady.flush w.outQ (linuxTcp_steady.update e h)

/-- A backend that is not ready does nothing at all. -/
theorem found_of_not_ready {b : LinuxTcp} (h : b.ready = false) (e : TcpEvent)
    (w : PktWrapper) : found e w b = b := by
  have hupdate : (linuxTcp.update e b).1 = b := by
    show (LinuxTcp.update e b).1 = b
    unfold LinuxTcp.update
    rw [if_pos h]
  rw [found, hupdate]
  induction w.outQ with
  | nil => rfl
  | cons t ts ih =>
      have hone : (linuxTcp.broadcast b t).1 = b := by
        show (b.broadcast t).1 = b
        rw [LinuxTcp.broadcast, if_neg (by simp [h])]
      rw [Backend.flush, hone]
      exact ih

/-- A round of the loop on a backend that is ready takes a telegram off. -/
theorem shrinks_of_ready {b : LinuxTcp} (h : b.ready = true) :
    Loops.Shrinks recvRound count b := by
  refine Loops.shrinks_of_inv (I := fun b => b.ready = true) ?_ h
  intro s t hs ht
  rw [recvRound] at ht
  split at ht
  · next hcount =>
      injection ht with ht
      obtain ⟨hready, -, hless⟩ := linuxTcp_steady.read hs hcount
      have hless : (s.read.1).count + 1 = s.count := hless
      rw [← ht]
      exact ⟨hready, by omega⟩
  · cases ht

/-- On a backend that is not ready it changes nothing. -/
theorem recvRound_of_not_ready {b : LinuxTcp} (h : b.ready = false) (hpkts : b.pkts ≠ []) :
    recvRound b = some b := by
  have hcount : b.count > 0 := List.length_pos_iff.mpr hpkts
  rw [recvRound, if_pos hcount, read, if_pos h]

/-- After any calls on the backend `PKTWrapper::update` returns, every round of its
loop having taken a telegram off, if and only if the backend is ready or has no
telegram on hand. -/
theorem recvLoop_ends_iff (calls : List Call) (id : UInt16) (e : TcpEvent)
    (w : PktWrapper) :
    ((∃ n, PktWrapper.recvLoop linuxTcp id n (found e w (Runs.run call .new calls))
          { w with outQ := [] } ≠ none) ∧
        Loops.Shrinks recvRound count (found e w (Runs.run call .new calls))) ↔
      (Runs.run call .new calls).ready = true ∨ (Runs.run call .new calls).pkts = [] := by
  generalize Runs.run call .new calls = b
  have hends : (∃ n, PktWrapper.recvLoop linuxTcp id n (found e w b)
      { w with outQ := [] } ≠ none) ↔ Loops.Ends recvRound (found e w b) :=
    exists_congr fun n => recvLoop_ne_none id n _ _
  rw [hends]
  constructor
  · rintro ⟨hret, -⟩
    by_contra hnot
    rw [not_or, Bool.not_eq_true] at hnot
    rw [found_of_not_ready hnot.1] at hret
    exact Loops.not_ends_of_fixed (recvRound_of_not_ready hnot.1 hnot.2) hret
  · intro h
    have hshrinks : Loops.Shrinks recvRound count (found e w b) := by
      cases hready : b.ready with
      | true => exact shrinks_of_ready (ready_found hready e w)
      | false =>
          have hpkts : b.pkts = [] := h.resolve_left (by simp [hready])
          have hnone : recvRound b = none := by
            rw [recvRound, if_neg]
            rw [count, hpkts]
            exact Nat.lt_irrefl 0
          rw [found_of_not_ready hready]
          refine Loops.shrinks_of_inv (I := fun s => recvRound s = none) ?_ hnone
          intro s t hs ht
          rw [hs] at ht
          cases ht
    exact ⟨hshrinks.ends, hshrinks⟩

/-- A telegram is received, and then the backend is shut down. -/
def shutWithOne : List Call :=
  [.init true, .update (.recv shortTelegram.raw (by decide)), .shutdown]

theorem recvLoop_endless :
    ¬ ∃ n, PktWrapper.recvLoop linuxTcp 1 n
      (found .timeout (PktWrapper.new 1 (by decide)) (Runs.run call .new shutWithOne))
      (PktWrapper.new 1 (by decide)) ≠ none := by
  have hready : (Runs.run call .new shutWithOne).ready = false := rfl
  have hpkts : (Runs.run call .new shutWithOne).pkts ≠ [] := by decide
  rw [found_of_not_ready hready]
  rintro ⟨n, hn⟩
  exact Loops.not_ends_of_fixed (recvRound_of_not_ready hready hpkts)
    ⟨n, (recvLoop_ne_none 1 n _ _).mp hn⟩

end LinuxTcp

end LibSmoke
