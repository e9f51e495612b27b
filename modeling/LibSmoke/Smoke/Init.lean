import LibSmoke.Knx.LinuxTcp
import LibSmoke.Knx.Handshake
import LibSmoke.Knx.Intake
import LibSmoke.Smoke.Client

/-!
# `ClientSmoke::init`

`init` connects the backend of the client and runs the handshake on an `SKNX` of
its own. That one has a packet layer of its own, beside the one the client keeps
for its data, and both read off the one backend. What the first has read is gone
with it when `init` returns.

A client is a peer here: the calls it makes, each with the bytes the backend
receives in it, and what holds of it between them (`Peer.Ok`).
-/

namespace LibSmoke

/-- `SKNX` with its packet layer. -/
structure Session where
  sknx : Sknx MkaKeyExchange
  pktwrapper : PktWrapper

theorem toNat_lt_size (N : UInt8) : N.toNat < 2 ^ 64 :=
  Nat.lt_of_lt_of_le N.toNat_lt (by decide)

namespace Session

def new (g : EcpGroup) (drbg : Option (Nat → Nat)) (N : UInt8) : Session :=
  ⟨.new (.new g drbg), .new N.toNat (toNat_lt_size N)⟩

/-- `SKNX::update`; the list is what was written in it. -/
def update (g : EcpGroup) (N : UInt8) (id : UInt16) (e : TcpEvent)
    (b : LinuxTcp) (s : Session) :
    Option (LinuxTcp × Session × List Outgoing) :=
  match PktWrapper.update linuxTcp id e b s.pktwrapper with
  | none => none
  | some (b, w) =>
      let a := Sknx.turn (mkaKeyExchange g) N b.mustUpdate w.inQ s.sknx
      let w := a.wrote.foldl (fun w p => (PktWrapper.write id w p).1)
        { w with inQ := a.rest }
      some (b, ⟨a.state, w⟩, a.wrote)

section Update

variable (g : EcpGroup) (N : UInt8) (id : UInt16) (ts : List Telegram)
  (s : Session)

/-- The turn after the packet layer has read `ts`. -/
def act : Act (Sknx MkaKeyExchange) :=
  Sknx.turn (mkaKeyExchange g) N false (s.pktwrapper.updated id ts).inQ s.sknx

def next : Session where
  sknx := (s.act g N id ts).state
  pktwrapper := { s.pktwrapper.updated id ts with
    inQ := (s.act g N id ts).rest
    outQ := (s.act g N id ts).wrote.flatMap (PktWrapper.telegramsOf id) }

end Update

theorem update_eq (g : EcpGroup) (N : UInt8) (id : UInt16) (s : Session)
    {held buf : List UInt8} {b : LinuxTcp} (h : b.Held held)
    (hbuf : buf.length ≤ tcpRecvsize) :
    let ts := Telegram.ofBytes (held ++ buf)
    ∃ b', s.update g N id (.recv buf hbuf) b =
        some (b', s.next g N id ts, (s.act g N id ts).wrote) ∧
      b.arrivals (.recv buf hbuf) = ts ∧
      b'.Held (Framing.decode Telegram.frames (held ++ buf)).2 ∧
      b'.wire = b.wire ++ s.pktwrapper.outQ.flatMap Telegram.raw := by
  obtain ⟨b', hupd, harr, hheld, hwire⟩ := h.update hbuf id s.pktwrapper
  have hout : (s.pktwrapper.updated id (Telegram.ofBytes (held ++ buf))).outQ =
      [] := (PktWrapper.recvAll_eq id _ _).2.2
  refine ⟨b', ?_, harr, hheld, hwire⟩
  rw [update, hupd]
  simp only [PktWrapper.foldl_write, hout]
  rfl

end Session

/-- Where a client is in `init`: before it, in its loop, or behind it with the
result `true` or `false`. -/
inductive Phase
  | idle
  | running (s : Session)
  | online
  | failed

def Phase.isRunning : Phase → Bool
  | .running _ => true
  | _ => false

instance : ∀ p : Phase, Decidable (p = .online)
  | .online => .isTrue rfl
  | .idle | .running _ | .failed => .isFalse fun h => by cases h

/-- A client with its backend. Kept as history are the packets the handshake
wrote and the telegrams it read, and those that `send` was called for, that
were read for the data, and that `receive` returned. -/
structure Peer where
  backend : LinuxTcp
  client : ClientSmoke
  phase : Phase
  wrote : List Outgoing
  took : List Telegram
  sent : List Outgoing
  got : List Telegram
  returned : List Pkt

namespace Peer

/-- The cipher context is not initialized. -/
def new (g : EcpGroup) (N : UInt8) (ctx : Aes.Ctx) : Peer where
  backend := .new
  client := ⟨.new N.toNat (toNat_lt_size N), (MkaKeyExchange.new g none).key, ctx⟩
  phase := .idle
  wrote := []
  took := []
  sent := []
  got := []
  returned := []

/-- `init` up to its loop. -/
def init (g : EcpGroup) (drbg : Option (Nat → Nat)) (N : UInt8) (id : UInt16)
    (connected : Bool) (p : Peer) : Peer :=
  match p.backend.init connected with
  | (_, false) => p
  | (b, true) =>
      let s := Session.new g drbg N
      match s.sknx.init id with
      | (_, false) => { p with backend := b, phase := .failed }
      | (sknx, true) =>
          { p with backend := b, phase := .running { s with sknx := sknx } }

/-- A round of the loop of `init`, and its end when there is no other one. -/
def turn (g : EcpGroup) (N : UInt8) (id : UInt16) (e : TcpEvent) (p : Peer) :
    Option Peer :=
  match p.phase with
  | .running s =>
      match s.update g N id e p.backend with
      | none => none
      | some (b, s, wrote) =>
          let q := { p with
            backend := b
            wrote := p.wrote ++ wrote
            took := p.took ++ p.backend.arrivals e }
          match s.sknx.status with
          | .offline => some { q with phase := .failed }
          | .online =>
              some { q with
                phase := .online
                client := { p.client with key := s.sknx.key.key } }
          | _ => some { q with phase := .running s }
  | _ => none

/-- `send` or `receive`, after `init` has returned `true`. -/
def call (id : UInt16) (e : TcpEvent) (c : ClientSmoke.Call) (p : Peer) :
    Option Peer :=
  match p.phase with
  | .online =>
      let q := { p with got := p.got ++ p.backend.arrivals e }
      match c with
      | .send dest cmd buf h =>
          match ClientSmoke.send linuxTcp id e p.backend p.client dest cmd buf h with
          | none => none
          | some s =>
              some { q with
                backend := s.backend
                client := s.client
                sent := p.sent ++ [p.client.packet dest cmd buf h] }
      | .receive =>
          match ClientSmoke.receive linuxTcp id e p.backend p.client with
          | none => none
          | some (b, client, data) =>
              some { q with
                backend := b
                client := client
                returned := p.returned ++ data.toList }
  | _ => none

/-- The part of a telegram that the ring of the backend holds. -/
def held (p : Peer) : List UInt8 := p.backend.pktbuffer.contents

/-- What a call that receives `buf` comes to for those outside. -/
structure Moves (p : Peer) (buf : List UInt8) (q : Peer) : Prop where
  read : q.took ++ q.got = p.took ++ p.got ++ Telegram.ofBytes (p.held ++ buf)
  held : q.held = (Framing.decode Telegram.frames (p.held ++ buf)).2
  wire : ∃ ts : List Telegram,
    q.backend.wire = p.backend.wire ++ ts.flatMap Telegram.raw

/-- Everything a client has passed to its packet layers. -/
def packets (p : Peer) : List Outgoing := p.wrote ++ p.sent

open PktWrapper Handshake

/-- A client that was given telegrams of the sources in `S`. -/
structure Ok (N : UInt8) (id : UInt16) (S : List UInt16) (p : Peer) : Prop where
  fresh : p.phase = .idle → p.backend = .new ∧ p.wrote = [] ∧ p.took = []
  held : p.phase ≠ .idle → LinuxTcp.Held p.held p.backend
  shape : Shape N.toNat p.wrote
  wire : ∃ cast left, p.backend.wire = cast.flatMap Telegram.raw ∧
    cast ++ left = p.packets.flatMap (telegramsOf id) ∧
    (p.phase = .online → left = []) ∧
    ∀ s, p.phase = .running s → left = s.pktwrapper.outQ
  running : ∀ s, p.phase = .running s → ∃ seen,
    Shake N.toNat s.sknx p.wrote seen ∧ Intake id S p.took seen s.pktwrapper
  before : p.phase ≠ .online → p.sent = [] ∧ p.got = []
  online : p.phase = .online → ∃ seen, Passed N.toNat seen (N.toNat - 2) ∧
    ∀ src, seen.filter (fun q => q.src = src) <+:
      (Keyed.laneRun lanes [] (lane id src p.took)).2
  data : Intake id S p.got p.returned p.client.pktwrapper
  outQ : p.client.pktwrapper.outQ = []

variable {g : EcpGroup} {N : UInt8} {id : UInt16} {S : List UInt16} {p q : Peer}

theorem Ok.new (g : EcpGroup) (id : UInt16) (ctx : Aes.Ctx)
    (hS : S.length ≤ N.toNat) : Ok N id S (new g N ctx) where
  fresh := fun _ => ⟨rfl, rfl, rfl⟩
  held := fun h => absurd rfl h
  shape := ⟨0, [], rfl, .nil, Nat.zero_le _⟩
  wire := ⟨[], [], rfl, rfl, fun _ => rfl, fun s hs => by cases hs⟩
  running := fun s hs => by cases hs
  before := fun _ => ⟨rfl, rfl⟩
  online := fun h => by cases h
  data := Intake.new (toNat_lt_size N) hS
  outQ := rfl

/-- What the ring holds is no whole telegram. -/
theorem Ok.short (h : Ok N id S p) :
    ¬ Framing.Complete Telegram.frames p.held := by
  by_cases hidle : p.phase = .idle
  · rw [Peer.held, (h.fresh hidle).1]
    show ¬ Framing.Complete Telegram.frames LinuxTcp.new.pktbuffer.contents
    rw [LinuxTcp.Decoded.new.held]
    exact Framing.not_complete_rest _
  · exact (h.held hidle).short

/-- Nothing was received and nothing was read. -/
theorem Ok.still (h : Ok N id S p) (hread : q.took ++ q.got = p.took ++ p.got)
    (hheld : q.held = p.held) (hwire : q.backend.wire = p.backend.wire) :
    Moves p [] q where
  read := by
    have hraw := Telegram.map_raw_ofBytes p.held
    rw [Framing.decode_of_not_complete h.short] at hraw
    rw [List.append_nil, List.map_eq_nil_iff.mp hraw, List.append_nil, hread]
  held := by
    rw [List.append_nil, Framing.decode_of_not_complete h.short, hheld]
  wire := ⟨[], by rw [hwire]; exact (List.append_nil _).symm⟩

/-! ## `init` up to its loop -/

/-- `init` does nothing, or it begins its loop. -/
theorem init_cases (h : Ok N id S p) (g : EcpGroup) (drbg : Option (Nat → Nat))
    (connected : Bool) :
    p.init g drbg N id connected = p ∨
    p.phase = .idle ∧ p.init g drbg N id connected = { p with
      backend := { p.backend with ready := true }
      phase := .running { Session.new g drbg N with
        sknx := ((Session.new g drbg N).sknx.init id).1 } } := by
  unfold Peer.init LinuxTcp.init
  by_cases hready : p.backend.ready = true
  · rw [if_pos hready]
    exact .inl rfl
  · rw [if_neg hready]
    cases connected with
    | false => exact .inl rfl
    | true =>
        refine .inr ⟨?_, rfl⟩
        by_contra hidle
        exact hready (h.held hidle).ready

theorem init_same (h : Ok N id S p) (g : EcpGroup) (drbg : Option (Nat → Nat))
    (connected : Bool) :
    let q := p.init g drbg N id connected
    q.wrote = p.wrote ∧ q.took = p.took ∧ q.sent = p.sent ∧
      (q.phase = .online → p.phase = .online) := by
  intro q
  rcases init_cases h g drbg connected with heq | ⟨-, heq⟩
  · rw [show q = p from heq]
    exact ⟨rfl, rfl, rfl, fun honline => honline⟩
  · rw [show q = _ from heq]
    exact ⟨rfl, rfl, rfl, fun honline => by cases honline⟩

theorem Ok.init (h : Ok N id S p) (hS : S.length ≤ N.toNat) (g : EcpGroup)
    (drbg : Option (Nat → Nat)) (connected : Bool) :
    Ok N id S (p.init g drbg N id connected) ∧
    Moves p [] (p.init g drbg N id connected) := by
  rcases init_cases h g drbg connected with heq | ⟨hidle, heq⟩
  · rw [heq]
    exact ⟨h, h.still rfl rfl rfl⟩
  · obtain ⟨hnew, hwrote, htook⟩ := h.fresh hidle
    obtain ⟨hsent, hgot⟩ := h.before (by rw [hidle]; simp)
    rw [heq]
    refine ⟨?_, h.still rfl rfl rfl⟩
    exact {
      fresh := fun h' => by cases h'
      held := fun _ => by
        rw [Peer.held, hnew]
        exact {
          ready := rfl
          pkts := rfl
          contents := rfl
          bufsize := rfl
          short := by
            rw [LinuxTcp.Decoded.new.held]
            exact Framing.not_complete_rest _ }
      shape := h.shape
      wire := by
        refine ⟨[], [], ?_, ?_, fun _ => rfl, ?_⟩
        · rw [hnew]; rfl
        · rw [packets, hwrote, hsent]; rfl
        · rintro s hs
          cases hs
          rfl
      running := by
        rintro s hs
        cases hs
        refine ⟨[], ?_, ?_⟩
        · rw [hwrote]
          exact Shake.start g drbg id N.toNat
        · rw [htook]
          exact Intake.new (toNat_lt_size N) hS
      before := fun _ => ⟨hsent, hgot⟩
      online := fun h' => by cases h'
      data := h.data
      outQ := h.outQ }

/-! ## A round of the loop -/

/-- A round in which the session `s` reads `ts`. -/
structure Turned (g : EcpGroup) (N : UInt8) (id : UInt16) (ts : List Telegram)
    (s : Session) (p q : Peer) : Prop where
  phase : q.phase = .running (s.next g N id ts) ∨ q.phase = .failed ∨
    q.phase = .online ∧ (s.act g N id ts).state.status = .online
  wrote : q.wrote = p.wrote ++ (s.act g N id ts).wrote
  took : q.took = p.took ++ ts
  sent : q.sent = p.sent
  got : q.got = p.got
  returned : q.returned = p.returned
  data : q.client.pktwrapper = p.client.pktwrapper

theorem turn_cases (h : Ok N id S p) {g : EcpGroup} {buf : List UInt8}
    {hbuf : buf.length ≤ tcpRecvsize}
    (hq : p.turn g N id (.recv buf hbuf) = some q) :
    ∃ s, p.phase = .running s ∧
      Turned g N id (Telegram.ofBytes (p.held ++ buf)) s p q ∧
      q.backend.Held (Framing.decode Telegram.frames (p.held ++ buf)).2 ∧
      q.backend.wire = p.backend.wire ++
        s.pktwrapper.outQ.flatMap Telegram.raw := by
  rw [turn] at hq
  split at hq
  · next s hs =>
      obtain ⟨b, hupd, harr, hheld, hwire⟩ :=
        s.update_eq g N id (h.held (by rw [hs]; simp)) hbuf
      rw [hupd, harr] at hq
      simp only [] at hq
      refine ⟨s, hs, ?_⟩
      split at hq
      · cases hq
        exact ⟨⟨.inr (.inl rfl), rfl, rfl, rfl, rfl, rfl, rfl⟩, hheld, hwire⟩
      · next honline =>
          cases hq
          exact ⟨⟨.inr (.inr ⟨rfl, honline⟩), rfl, rfl, rfl, rfl, rfl, rfl⟩,
            hheld, hwire⟩
      · cases hq
        exact ⟨⟨.inl rfl, rfl, rfl, rfl, rfl, rfl, rfl⟩, hheld, hwire⟩
  · cases hq

/-- The session after it has read `ts`. -/
theorem Ok.next (h : Ok N id S p) {s : Session} (hs : p.phase = .running s)
    (g : EcpGroup) {ts : List Telegram}
    (hts : ∀ t ∈ ts, accepts id t = true → t.src ∈ S) :
    ∃ seen, Shake N.toNat (s.next g N id ts).sknx
        (p.wrote ++ (s.act g N id ts).wrote) seen ∧
      Intake id S (p.took ++ ts) seen (s.next g N id ts).pktwrapper := by
  obtain ⟨seen, hshake, hin⟩ := h.running s hs
  have hrest : (s.act g N id ts).rest <:+ (s.pktwrapper.updated id ts).inQ :=
    Sknx.turn_suffix (mkaKeyExchange_lawful g) _ _ _
  exact ⟨_, hshake.turn false (s.pktwrapper.updated id ts).inQ,
    ((hin.updated hts).read (Act.taken_append hrest)).outQ _⟩

theorem Ok.turn (h : Ok N id S p) {g : EcpGroup} {buf : List UInt8}
    {hbuf : buf.length ≤ tcpRecvsize}
    (hts : ∀ t ∈ Telegram.ofBytes (p.held ++ buf), accepts id t = true →
      t.src ∈ S)
    (hq : p.turn g N id (.recv buf hbuf) = some q) :
    Ok N id S q ∧ Moves p buf q := by
  obtain ⟨s, hs, hturned, hheld, hwire⟩ := turn_cases h hq
  generalize hread : Telegram.ofBytes (p.held ++ buf) = ts at hts hturned
  obtain ⟨seen, hshake, hin⟩ := h.next hs g hts
  obtain ⟨hsent, hgot⟩ := h.before (by rw [hs]; simp)
  obtain ⟨cast, left, hcast, hall, -, hleft⟩ := h.wire
  have hqheld : q.held = (Framing.decode Telegram.frames (p.held ++ buf)).2 :=
    hheld.contents
  refine ⟨?_, ?_, hqheld, _, hwire⟩
  · exact {
      fresh := by
        intro h'
        rcases hturned.phase with hp | hp | ⟨hp, -⟩ <;> cases h'.symm.trans hp
      held := fun _ => hqheld ▸ hheld
      shape := hturned.wrote ▸ hshake.shape
      wire := by
        refine ⟨cast ++ left, (s.act g N id ts).wrote.flatMap (telegramsOf id),
          ?_, ?_, ?_, ?_⟩
        · rw [hwire, hcast, List.flatMap_append, hleft s hs]
        · rw [hall, packets, packets, hturned.wrote, hturned.sent, hsent,
            List.append_nil, List.append_nil, List.flatMap_append]
        · intro h'
          rcases hturned.phase with hp | hp | ⟨-, honline⟩
          · cases h'.symm.trans hp
          · cases h'.symm.trans hp
          · have hnone : (s.act g N id ts).wrote = [] :=
              Sknx.wrote_of_online honline
            rw [hnone]
            rfl
        · intro s' hs'
          rcases hturned.phase with hp | hp | ⟨hp, -⟩
          · cases hs'.symm.trans hp
            rfl
          · cases hs'.symm.trans hp
          · cases hs'.symm.trans hp
      running := by
        intro s' hs'
        rcases hturned.phase with hp | hp | ⟨hp, -⟩
        · cases hs'.symm.trans hp
          rw [hturned.wrote, hturned.took]
          exact ⟨seen, hshake, hin⟩
        · cases hs'.symm.trans hp
        · cases hs'.symm.trans hp
      before := fun _ => by
        rw [hturned.sent, hturned.got]
        exact ⟨hsent, hgot⟩
      online := by
        intro h'
        rcases hturned.phase with hp | hp | ⟨-, honline⟩
        · cases h'.symm.trans hp
        · cases h'.symm.trans hp
        · refine ⟨seen, ?_, ?_⟩
          · refine hshake.passed ?_ (hshake.done (.inr honline))
            show (s.act g N id ts).state.status ≠ .counting
            rw [honline]
            simp
          · intro src
            rw [hturned.took, ← hin.packets src, List.filter_append]
            exact List.prefix_append _ _
      data := by
        rw [hturned.got, hturned.returned, hturned.data]
        exact h.data
      outQ := hturned.data ▸ h.outQ }
  · rw [hread, hturned.took, hturned.got, hgot, List.append_nil,
      List.append_nil]

/-! ## `send` and `receive` -/

/-- The packets a call passes to the packet layer. -/
def written (client : ClientSmoke) : ClientSmoke.Call → List Outgoing
  | .send dest cmd buf h => [client.packet dest cmd buf h]
  | .receive => []

/-- A call in which the packet layer reads `ts`; `taken` is what it hands out. -/
structure Called (id : UInt16) (ts : List Telegram) (c : ClientSmoke.Call)
    (taken rest : List Pkt) (p q : Peer) : Prop where
  phase : q.phase = p.phase
  wrote : q.wrote = p.wrote
  took : q.took = p.took
  sent : q.sent = p.sent ++ written p.client c
  got : q.got = p.got ++ ts
  returned : q.returned = p.returned ++ taken
  queue : taken ++ rest = (p.client.pktwrapper.updated id ts).inQ
  data : q.client.pktwrapper =
    { p.client.pktwrapper.updated id ts with inQ := rest }

theorem call_cases (h : Ok N id S p) {buf : List UInt8}
    {hbuf : buf.length ≤ tcpRecvsize} {c : ClientSmoke.Call}
    (hq : p.call id (.recv buf hbuf) c = some q) :
    p.phase = .online ∧ (∃ taken rest,
      Called id (Telegram.ofBytes (p.held ++ buf)) c taken rest p q) ∧
    q.backend.Held (Framing.decode Telegram.frames (p.held ++ buf)).2 ∧
    q.backend.wire = p.backend.wire ++
      ((written p.client c).flatMap (telegramsOf id)).flatMap Telegram.raw := by
  rw [call] at hq
  split at hq
  · next honline =>
      have hheld := h.held (by rw [honline]; simp)
      refine ⟨honline, ?_⟩
      cases c with
      | send dest cmd m hm =>
          obtain ⟨b, hupd, harr, hheld', hwire⟩ := hheld.update hbuf id
            (p.client.pktwrapper.write id (p.client.packet dest cmd m hm)).1
          simp only [ClientSmoke.send, hupd] at hq
          cases hq
          refine ⟨⟨[], _, rfl, rfl, rfl, rfl, ?_, (List.append_nil _).symm, rfl,
            rfl⟩, hheld', ?_⟩
          · rw [← harr]
          · rw [written, List.flatMap_singleton, hwire, PktWrapper.write, h.outQ,
              List.nil_append]
      | receive =>
          obtain ⟨b, hupd, harr, hheld', hwire⟩ :=
            hheld.update hbuf id p.client.pktwrapper
          rw [h.outQ] at hwire
          simp only [ClientSmoke.receive, hupd, PktWrapper.read] at hq
          generalize hw : p.client.pktwrapper.updated id _ = w at hq
          cases hin : w.inQ with
          | nil =>
              simp only [hin] at hq
              cases hq
              refine ⟨⟨[], [], rfl, rfl, rfl, (List.append_nil _).symm, ?_, rfl,
                ?_, ?_⟩, hheld', hwire⟩
              · rw [← harr]
              · rw [hw, hin]; rfl
              · rw [hw, ← hin]
          | cons data rest =>
              simp only [hin] at hq
              cases hq
              refine ⟨⟨[data], rest, rfl, rfl, rfl, (List.append_nil _).symm, ?_,
                rfl, ?_, ?_⟩, hheld', hwire⟩
              · rw [← harr]
              · rw [hw, hin]; rfl
              · rw [hw]
  · cases hq

theorem Ok.call (h : Ok N id S p) {buf : List UInt8}
    {hbuf : buf.length ≤ tcpRecvsize} {c : ClientSmoke.Call}
    (hts : ∀ t ∈ Telegram.ofBytes (p.held ++ buf), accepts id t = true →
      t.src ∈ S)
    (hq : p.call id (.recv buf hbuf) c = some q) :
    Ok N id S q ∧ Moves p buf q := by
  obtain ⟨hon, ⟨taken, rest, hcalled⟩, hheld, hwire⟩ := call_cases h hq
  generalize hread : Telegram.ofBytes (p.held ++ buf) = ts at hts hcalled
  obtain ⟨cast, left, hcast, hall, hnone, -⟩ := h.wire
  have hphase : q.phase = .online := hcalled.phase.trans hon
  have hqheld : q.held = (Framing.decode Telegram.frames (p.held ++ buf)).2 :=
    hheld.contents
  rw [hnone hon, List.append_nil] at hall
  refine ⟨?_, ?_, hqheld, _, hwire⟩
  · exact {
      fresh := fun h' => by cases hphase.symm.trans h'
      held := fun _ => hqheld ▸ hheld
      shape := hcalled.wrote ▸ h.shape
      wire := by
        refine ⟨q.packets.flatMap (telegramsOf id), [], ?_, List.append_nil _,
          fun _ => rfl, fun s hs => by cases hphase.symm.trans hs⟩
        rw [packets, hcalled.wrote, hcalled.sent, ← List.append_assoc,
          List.flatMap_append, List.flatMap_append]
        rw [hwire, hcast, hall]
        rfl
      running := fun s hs => by cases hphase.symm.trans hs
      before := fun h' => absurd hphase h'
      online := by
        rw [hcalled.took]
        exact fun _ => h.online hon
      data := by
        rw [hcalled.got, hcalled.returned, hcalled.data]
        exact (h.data.updated hts).read hcalled.queue
      outQ := by
        rw [hcalled.data]
        exact (recvAll_eq id _ _).2.2 }
  · rw [hread, hcalled.took, hcalled.got, List.append_assoc]

end Peer

end LibSmoke
