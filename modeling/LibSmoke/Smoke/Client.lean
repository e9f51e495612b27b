import LibSmoke.Smoke.Aes
import LibSmoke.Knx.Overlong
import Mathlib.Data.List.Lattice

/-!
# The client

`ClientSmoke` after its handshake: a packet layer, the agreed key, and a cipher
context that every message sets up again from the key and one fixed vector.

`send` encrypts the caller's buffer in place and passes it on. `receive` asks
the packet for its data twice, once for a pointer and once for a length, and
`getData` answers with a copy each time: what gets decrypted is not the vector
in the packet, which is handed out as it came (`receive_eq`).

The vector being fixed, all messages are encrypted with the same counter blocks,
so two of them are apart only if one of them is empty (`countersApart_iff`).
-/

namespace LibSmoke

/-- The initialization vector of every message. -/
def iv : Aes.Block where
  bytes := [0xc0, 0xa1, 0x62, 0xb3, 0x84, 0x25, 0xe6, 0xc7, 0x58, 0x99, 0xaa,
    0x0b, 0x1c, 0x6d, 0xbe, 0xff]
  length_eq := rfl

/-- `ClientSmoke`; the backend it owns is passed along beside it. -/
structure ClientSmoke where
  pktwrapper : PktWrapper
  key : List UInt8
  ctx : Aes.Ctx

namespace ClientSmoke

/-- What a call of `send` leaves: the caller's buffer is one it wrote to, and
`fed` records the counter blocks it used. -/
structure Sent (β : Type) where
  backend : β
  client : ClientSmoke
  buf : List UInt8
  fed : List Aes.Block

def encrypt (c : ClientSmoke) (buf : List UInt8) : Aes.Xcrypt :=
  Aes.ctrXcryptBuffer (Aes.initCtxIv c.key iv) buf

/-- The packet `send` passes to the packet layer. -/
def packet (c : ClientSmoke) (dest : UInt16) (cmd : UInt8) (buf : List UInt8)
    (h : buf.length < 2 ^ 16) : Outgoing :=
  ⟨dest, cmd, (c.encrypt buf).out, by
    rw [encrypt, Aes.length_out]
    exact h⟩

section Calls

variable {β ε : Type} (B : Backend β ε)

/-- `send`. -/
def send (id : UInt16) (e : ε) (b : β) (c : ClientSmoke) (dest : UInt16)
    (cmd : UInt8) (buf : List UInt8) (h : buf.length < 2 ^ 16) :
    Option (Sent β) :=
  let x := c.encrypt buf
  let w := (c.pktwrapper.write id (c.packet dest cmd buf h)).1
  match PktWrapper.update B id e b w with
  | none => none
  | some (b, w) => some ⟨b, ⟨w, c.key, x.ctx⟩, x.out, x.fed⟩

/-- `receive`; no packet is the answer `false`. -/
def receive (id : UInt16) (e : ε) (b : β) (c : ClientSmoke) :
    Option (β × ClientSmoke × Option Pkt) :=
  match PktWrapper.update B id e b c.pktwrapper with
  | none => none
  | some (b, w) =>
      match w.read with
      | (w, none) => some (b, { c with pktwrapper := w }, none)
      | (w, some data) =>
          -- `getData` copies: the packet itself is not written to
          let tmpBuff := data.data
          some (b, ⟨w, c.key, (c.encrypt tmpBuff).ctx⟩, some data)

variable {B}

/-- `receive` hands the oldest packet out as the packet layer delivered it. -/
theorem receive_eq {id : UInt16} {e : ε} {b b' : β} {c : ClientSmoke}
    {w : PktWrapper} {q : Pkt} {rest : List Pkt}
    (hupd : PktWrapper.update B id e b c.pktwrapper = some (b', w))
    (hin : w.inQ = q :: rest) :
    ∃ c', receive B id e b c = some (b', c', some q) := by
  rw [receive, hupd]
  simp only [PktWrapper.read, hin]
  exact ⟨_, rfl⟩

/-- The one packet that comes out of a packet's telegrams is that packet. -/
theorem carried_eq {src : UInt16} {p : Outgoing} {q : Pkt}
    (h : (Keyed.laneRun PktWrapper.lanes []
      (PktWrapper.telegramsOf src p)).2 = [q]) : q = p.pkt src := by
  by_cases hfits : p.body.length ≤ PktWrapper.maxBody
  · rw [PktWrapper.laneRun_packet src (by
      rw [PktWrapper.maxBody] at hfits; rw [ringCapacity] at *; omega)] at h
    exact (List.singleton_inj.mp h).symm
  · have hnone := PktWrapper.laneRun_overlong src
      (Nat.lt_of_not_le hfits) []
    rw [List.append_nil, h] at hnone
    cases hnone

/-- What `send` puts on the wire behind what was queued before: the telegrams of
the encrypted packet. -/
theorem send_wire {id : UInt16} {ts on out wire : List Telegram}
    {c : ClientSmoke} {dest : UInt16} {cmd : UInt8} {buf : List UInt8}
    {h : buf.length < 2 ^ 16} {s : Sent (List Telegram × List Telegram)}
    (hs : send mailbox id ts (on, out) c dest cmd buf h = some s)
    (hwire : s.backend.2 = out ++ c.pktwrapper.outQ ++ wire) :
    wire = PktWrapper.telegramsOf id (c.packet dest cmd buf h) := by
  rw [send, PktWrapper.update_mailbox] at hs
  cases hs
  simp only [PktWrapper.write] at hwire
  rw [← List.append_assoc, List.append_cancel_left_eq] at hwire
  exact hwire.symm

/-- `A` sends, and what its `send` put on the wire comes through to a receiver
with the same key, where the packet made of it is the oldest one. `receive`
returns that packet, and its data is the plaintext exactly where the keystream
happens to be zero. -/
theorem receive_plaintext_iff {idA idB : UInt16} {A C : ClientSmoke}
    (hkey : C.key = A.key) {dest : UInt16} {cmd : UInt8} {m : List UInt8}
    {hm : m.length < 2 ^ 16} {ts on out wire : List Telegram}
    {s : Sent (List Telegram × List Telegram)}
    (hsend : send mailbox idA ts (on, out) A dest cmd m hm = some s)
    (hwire : s.backend.2 = out ++ A.pktwrapper.outQ ++ wire) {q : Pkt}
    {rest : List Pkt} {e : ε} {b b' : β} {w : PktWrapper}
    (hcarried : (Keyed.laneRun PktWrapper.lanes [] wire).2 = [q])
    (hupd : PktWrapper.update B idB e b C.pktwrapper = some (b', w))
    (hin : w.inQ = q :: rest) :
    (∃ c' data, receive B idB e b C = some (b', c', some data) ∧
      data.cmd = cmd ∧ data.src = idA ∧ data.data = m) ↔
    Aes.keystream (Aes.initCtxIv C.key iv) m.length =
      List.replicate m.length 0 := by
  obtain ⟨c', hrecv⟩ := receive_eq hupd hin
  rw [send_wire hsend hwire] at hcarried
  have hq := carried_eq hcarried
  rw [hkey, ← Aes.out_eq_self_iff]
  constructor
  · rintro ⟨c, data, hdata, -, -, hm'⟩
    rw [hrecv, Option.some.injEq, Prod.mk.injEq, Prod.mk.injEq,
      Option.some.injEq] at hdata
    obtain ⟨-, -, rfl⟩ := hdata
    rw [hq] at hm'
    exact hm'
  · intro hself
    refine ⟨c', q, hrecv, ?_, ?_, ?_⟩
    · rw [hq]; rfl
    · rw [hq]; rfl
    · rw [hq]
      exact hself

end Calls

/-! ## One byte from node 1 to node 3 -/

/-- A client with a key of zeros and a table of one slot. -/
def zeroKeyClient : ClientSmoke :=
  ⟨PktWrapper.new 1 (by decide), List.replicate 32 0,
    Aes.initCtxIv (List.replicate 32 0) iv⟩

def ping : Outgoing := zeroKeyClient.packet broadcastAddr 0 [0x60] (by decide)

theorem ping_length : ping.body.length + 3 ≤ ringCapacity := by
  have hlen : ping.body.length = 1 := Aes.length_out _ _
  rw [hlen, ringCapacity]
  omega

/-- The telegrams of that packet, and no others, reach the receiver. -/
theorem update_ping :
    PktWrapper.update mailbox 3 (PktWrapper.telegramsOf 1 ping) ([], [])
        zeroKeyClient.pktwrapper =
      some (([], []), PktWrapper.recvAll 3 zeroKeyClient.pktwrapper
        (PktWrapper.telegramsOf 1 ping)) ∧
    (PktWrapper.recvAll 3 zeroKeyClient.pktwrapper
      (PktWrapper.telegramsOf 1 ping)).inQ = [ping.pkt 1] :=
  ⟨PktWrapper.update_mailbox 3 _ [] [] _,
    PktWrapper.inQ_telegramsOf
      (PktWrapper.room_new (S := [1]) (by decide) (Nat.le_refl 1))
      (List.mem_singleton.mpr rfl) (by decide) (Rings.bytes_new (by decide) 1)
      rfl ping_length⟩

theorem send_ping : ∃ s, send mailbox 1 [] ([], []) zeroKeyClient broadcastAddr
      0 [0x60] (by decide) = some s ∧
    s.backend.2 = [] ++ zeroKeyClient.pktwrapper.outQ ++
      PktWrapper.telegramsOf 1 ping := by
  rw [send, PktWrapper.update_mailbox]
  exact ⟨_, rfl, rfl⟩

theorem receive_plaintext_iff_ping :
    (∃ c' data, receive mailbox 3 (PktWrapper.telegramsOf 1 ping) ([], [])
        zeroKeyClient = some (([], []), c', some data) ∧
      data.cmd = 0 ∧ data.src = 1 ∧ data.data = [0x60]) ↔
    Aes.keystream (Aes.initCtxIv zeroKeyClient.key iv) 1 = [0] := by
  obtain ⟨s, hsend, hwire⟩ := send_ping
  exact receive_plaintext_iff (C := zeroKeyClient) rfl hsend hwire
    (congrArg Prod.snd (PktWrapper.laneRun_packet 1 ping_length))
    update_ping.1 update_ping.2

theorem keystream_zeroKey :
    (Aes.keystream (Aes.initCtxIv zeroKeyClient.key iv) 1) = [0x17] := by
  decide +kernel

/-- The receiver gets the byte as it was on the wire. -/
theorem ping_not_decrypted :
    ¬ ∃ b' c' data, receive mailbox 3 (PktWrapper.telegramsOf 1 ping) ([], [])
        zeroKeyClient = some (b', c', some data) ∧
      data.cmd = 0 ∧ data.src = 1 ∧ data.data = [0x60] := by
  rintro ⟨b', c', data, hdata, -, -, hplain⟩
  obtain ⟨c, hrecv⟩ := receive_eq update_ping.1 update_ping.2
  have hq := congrArg (Option.map fun r => r.2.2) (hrecv.symm.trans hdata)
  simp only [Option.map_some, Option.some.injEq] at hq
  subst hq
  have hself := (Aes.out_eq_self_iff _ _).mp hplain
  rw [List.length_singleton, keystream_zeroKey] at hself
  exact absurd hself (by decide)

/-! ## Counter blocks -/

/-- A call of one client. -/
inductive Call where
  | send (dest : UInt16) (cmd : UInt8) (buf : List UInt8)
      (h : buf.length < 2 ^ 16)
  | receive

/-- The message a call encrypts, if it sends one. -/
def Call.message : Call → Option (List UInt8)
  | .send _ _ buf _ => some buf
  | .receive => none

section Runs

variable {κ β ε : Type} [DecidableEq κ] (B : Backend β ε) (id : κ → UInt16)

/-- Calls of several clients, each with its connection, in any order: for every
message sent, the counter blocks it used. -/
def runCalls : List (κ × ε × Call) → (κ → β) → (κ → ClientSmoke) →
    Option (List (List Aes.Block))
  | [], _, _ => some []
  | (k, e, .send dest cmd buf h) :: calls, bs, cs =>
      match send B (id k) e (bs k) (cs k) dest cmd buf h with
      | none => none
      | some s =>
          (runCalls calls (Function.update bs k s.backend)
            (Function.update cs k s.client)).map (s.fed :: ·)
  | (k, e, .receive) :: calls, bs, cs =>
      match receive B (id k) e (bs k) (cs k) with
      | none => none
      | some (b, c, _) =>
          runCalls calls (Function.update bs k b) (Function.update cs k c)

/-- The messages of a run. -/
def messages (calls : List (κ × ε × Call)) : List (List UInt8) :=
  calls.filterMap fun c => c.2.2.message

variable {B id}

theorem fed_send {i : UInt16} {e : ε} {b : β} {c : ClientSmoke} {dest : UInt16}
    {cmd : UInt8} {buf : List UInt8} {h : buf.length < 2 ^ 16} {s : Sent β}
    (hs : send B i e b c dest cmd buf h = some s) :
    s.fed = Aes.counters iv ((buf.length + 15) / 16) := by
  rw [send] at hs
  split at hs
  · cases hs
  · cases hs
    exact Aes.fed_eq _ _

/-- Every message of a run starts over at the fixed vector. -/
theorem runCalls_fed {calls : List (κ × ε × Call)} {bs : κ → β}
    {cs : κ → ClientSmoke} {log : List (List Aes.Block)}
    (h : runCalls B id calls bs cs = some log) :
    log = (messages calls).map fun m =>
      Aes.counters iv ((m.length + 15) / 16) := by
  induction calls generalizing bs cs log with
  | nil => cases h; rfl
  | cons c calls ih =>
      obtain ⟨k, e, _ | _⟩ := c
      · rw [runCalls] at h
        split at h
        · cases h
        · next s hs =>
            obtain ⟨log', hlog', rfl⟩ := Option.map_eq_some_iff.mp h
            rw [ih hlog', fed_send hs]
            rfl
      · rw [runCalls] at h
        split at h
        · cases h
        · rw [ih h]
          rfl

/-- Counter blocks of two messages meet unless one of the two is empty. -/
theorem disjoint_counters_iff (m m' : List UInt8) :
    (Aes.counters iv ((m.length + 15) / 16)).Disjoint
        (Aes.counters iv ((m'.length + 15) / 16)) ↔ m = [] ∨ m' = [] := by
  have hfirst : ∀ {m : List UInt8}, m ≠ [] →
      iv ∈ Aes.counters iv ((m.length + 15) / 16) := by
    intro m hm
    have hpos := List.length_pos_iff.mpr hm
    obtain ⟨n, hn⟩ : ∃ n, (m.length + 15) / 16 = n + 1 :=
      ⟨(m.length + 15) / 16 - 1, by omega⟩
    rw [hn, Aes.counters]
    exact List.mem_cons_self
  constructor
  · intro hdis
    by_contra hcon
    rw [not_or] at hcon
    exact hdis (hfirst hcon.1) (hfirst hcon.2)
  · rintro (rfl | rfl)
    · exact List.disjoint_nil_left _
    · exact List.disjoint_nil_right _

/-- No two elements of a list have a property exactly when at most one has. -/
theorem pairwise_not_or_iff {α : Type} (p : α → Bool) (l : List α) :
    l.Pairwise (fun a b => p a = false ∨ p b = false) ↔
      (l.filter p).length ≤ 1 := by
  induction l with
  | nil => simp
  | cons a l ih =>
      rw [List.pairwise_cons, ih]
      cases hp : p a with
      | false => simp [hp]
      | true =>
          have hnone : (∀ b ∈ l, p a = false ∨ p b = false) ↔
              l.filter p = [] := by
            rw [List.filter_eq_nil_iff]
            refine forall₂_congr fun b _ => ?_
            simp [hp]
          rw [hp] at hnone
          rw [hnone, List.filter_cons_of_pos hp, List.length_cons,
            ← List.length_eq_zero_iff]
          omega

/-- The counter blocks used for any two messages of a run are disjoint exactly
when at most one of its messages has any bytes at all. -/
theorem countersApart_iff {calls : List (κ × ε × Call)} {bs : κ → β}
    {cs : κ → ClientSmoke} {log : List (List Aes.Block)}
    (h : runCalls B id calls bs cs = some log) :
    log.Pairwise List.Disjoint ↔
      ((messages calls).filter fun m => !m.isEmpty).length ≤ 1 := by
  rw [runCalls_fed h, List.pairwise_map, ← pairwise_not_or_iff]
  refine List.Pairwise.iff fun m m' => ?_
  rw [disjoint_counters_iff]
  simp

end Runs

/-- One client sends the same byte twice. -/
def twice : List (Unit × List Telegram × Call) :=
  [((), [], .send broadcastAddr 0 [0x60] (by decide)),
    ((), [], .send broadcastAddr 0 [0x60] (by decide))]

theorem runCalls_twice :
    runCalls mailbox (fun _ => 1) twice (fun _ => ([], [])) (fun _ => zeroKeyClient) =
      some [[iv], [iv]] := by
  rfl

theorem countersApart_iff_twice :
    [[iv], [iv]].Pairwise List.Disjoint ↔
      ((messages twice).filter fun m => !m.isEmpty).length ≤ 1 :=
  countersApart_iff runCalls_twice

theorem twice_not_apart :
    ¬ ∃ log, runCalls mailbox (fun _ => 1) twice (fun _ => ([], []))
        (fun _ => zeroKeyClient) = some log ∧ log.Pairwise List.Disjoint := by
  rintro ⟨log, hrun, hlog⟩
  rw [runCalls_twice, Option.some.injEq] at hrun
  subst hrun
  have hpair := (List.pairwise_cons.mp hlog).1 [iv] List.mem_cons_self
  exact hpair List.mem_cons_self List.mem_cons_self

/-! ## One buffer sent again and again

The buffer is the caller's, and the caller does not write to it. -/

theorem length_buf {β ε : Type} {B : Backend β ε} {id : UInt16} {e : ε} {b : β}
    {c : ClientSmoke} {dest : UInt16} {cmd : UInt8} {buf : List UInt8}
    {h : buf.length < 2 ^ 16} {s : Sent β} (hs : send B id e b c dest cmd buf h = some s) :
    s.buf.length < 2 ^ 16 := by
  rw [send] at hs
  split at hs
  · cases hs
  · cases hs
    rw [encrypt, Aes.length_out]
    exact h

/-- Successive calls of `send` with one buffer: for each, the telegrams that went on
the wire behind what was queued before, and the buffer afterwards. -/
def sendAll (id : UInt16) : List (UInt16 × UInt8 × List Telegram) →
    List Telegram × List Telegram → ClientSmoke → (buf : List UInt8) →
    buf.length < 2 ^ 16 → List (List Telegram × List UInt8)
  | [], _, _, _, _ => []
  | (dest, cmd, ts) :: calls, b, c, buf, h =>
      match hs : send mailbox id ts b c dest cmd buf h with
      | none => []
      | some s =>
          (s.backend.2.drop (b.2.length + c.pktwrapper.outQ.length), s.buf) ::
            sendAll id calls s.backend s.client s.buf (length_buf hs)

theorem send_mailbox (id : UInt16) (ts : List Telegram) (b : List Telegram × List Telegram)
    (c : ClientSmoke) (dest : UInt16) (cmd : UInt8) (buf : List UInt8)
    (h : buf.length < 2 ^ 16) :
    ∃ s, send mailbox id ts b c dest cmd buf h = some s ∧ s.client.key = c.key ∧
      s.buf = (c.encrypt buf).out ∧
      s.backend.2.drop (b.2.length + c.pktwrapper.outQ.length) =
        PktWrapper.telegramsOf id (c.packet dest cmd buf h) := by
  obtain ⟨on, out⟩ := b
  rw [send, PktWrapper.update_mailbox]
  refine ⟨_, rfl, rfl, rfl, ?_⟩
  show (out ++ (c.pktwrapper.outQ ++ PktWrapper.telegramsOf id _)).drop _ = _
  rw [← List.append_assoc, ← List.length_append, List.drop_left]

theorem sendAll_cons {id : UInt16} {ts : List Telegram} {b : List Telegram × List Telegram}
    {c : ClientSmoke} {dest : UInt16} {cmd : UInt8} {buf : List UInt8}
    {h : buf.length < 2 ^ 16} {s : Sent (List Telegram × List Telegram)}
    (hs : send mailbox id ts b c dest cmd buf h = some s)
    (calls : List (UInt16 × UInt8 × List Telegram)) :
    sendAll id ((dest, cmd, ts) :: calls) b c buf h =
      (s.backend.2.drop (b.2.length + c.pktwrapper.outQ.length), s.buf) ::
        sendAll id calls s.backend s.client s.buf (length_buf hs) := by
  rw [sendAll]
  split
  · next hnone => cases hs.symm.trans hnone
  · next s' hs' =>
      obtain rfl := Option.some.inj (hs.symm.trans hs')
      rfl

/-- What a call finds in a buffer that `k` calls before it encrypted. -/
def crypted (key m : List UInt8) (k : Nat) : List UInt8 :=
  if k % 2 = 0 then m else (Aes.ctrXcryptBuffer (Aes.initCtxIv key iv) m).out

theorem crypted_next (key m : List UInt8) (k : Nat) :
    crypted key (Aes.ctrXcryptBuffer (Aes.initCtxIv key iv) m).out k =
      crypted key m (k + 1) := by
  rw [crypted, crypted]
  by_cases hk : k % 2 = 0
  · rw [if_pos hk, if_neg (by omega)]
  · rw [if_neg hk, if_pos (by omega), Aes.out_out]

/-- The calls take turns: one sends the buffer encrypted, the next one sends it as
it was at first. -/
theorem sendAll_get (id : UInt16) (calls : List (UInt16 × UInt8 × List Telegram))
    (b : List Telegram × List Telegram) (c : ClientSmoke) {m : List UInt8}
    (h : m.length < 2 ^ 16) (k : Nat) {call : UInt16 × UInt8 × List Telegram}
    (hk : calls[k]? = some call) :
    ∃ p : Outgoing, p.dest = call.1 ∧ p.cmd = call.2.1 ∧
      p.body = crypted c.key m (k + 1) ∧
      (sendAll id calls b c m h)[k]? =
        some (PktWrapper.telegramsOf id p, crypted c.key m (k + 1)) := by
  induction calls generalizing b c m k with
  | nil => cases hk
  | cons first calls ih =>
      obtain ⟨dest, cmd, ts⟩ := first
      obtain ⟨s, hs, hkey, hbuf, hwire⟩ := send_mailbox id ts b c dest cmd m h
      rw [sendAll_cons hs, hwire]
      cases k with
      | zero =>
          cases hk
          refine ⟨c.packet dest cmd m h, rfl, rfl, rfl, ?_⟩
          rw [List.getElem?_cons_zero, hbuf]
          rfl
      | succ k =>
          obtain ⟨p, hdest, hcmd, hbody, hget⟩ :=
            ih s.backend s.client (length_buf hs) k hk
          have hnext : crypted s.client.key s.buf (k + 1) = crypted c.key m (k + 1 + 1) := by
            rw [hkey, hbuf]
            exact crypted_next c.key m (k + 1)
          rw [hnext] at hbody hget
          exact ⟨p, hdest, hcmd, hbody, hget⟩

theorem length_sendAll (id : UInt16) (calls : List (UInt16 × UInt8 × List Telegram))
    (b : List Telegram × List Telegram) (c : ClientSmoke) {m : List UInt8}
    (h : m.length < 2 ^ 16) : (sendAll id calls b c m h).length = calls.length := by
  induction calls generalizing b c m with
  | nil => rfl
  | cons first calls ih =>
      obtain ⟨dest, cmd, ts⟩ := first
      obtain ⟨s, hs, -⟩ := send_mailbox id ts b c dest cmd m h
      rw [sendAll_cons hs, List.length_cons, List.length_cons, ih]

/-- A call that put the encrypted `m` on the wire, and nothing else, and left `m` in
the buffer. -/
def Kept (id : UInt16) (key m : List UInt8) (call : UInt16 × UInt8 × List Telegram)
    (left : List Telegram × List UInt8) : Prop :=
  left.2 = m ∧
    ∃ p : Outgoing, p.dest = call.1 ∧ p.cmd = call.2.1 ∧
      left.1 = PktWrapper.telegramsOf id p ∧
      p.body = (Aes.ctrXcryptBuffer (Aes.initCtxIv key iv) m).out ∧ (m ≠ [] → p.body ≠ m)

/-- All calls keep the buffer, and send it encrypted, only if there are no calls or
nothing is in the buffer: what leaves the buffer alone does not encrypt. -/
theorem sendAll_kept_iff (id : UInt16) (calls : List (UInt16 × UInt8 × List Telegram))
    (b : List Telegram × List Telegram) (c : ClientSmoke) {m : List UInt8}
    (h : m.length < 2 ^ 16) :
    List.Forall₂ (Kept id c.key m) calls (sendAll id calls b c m h) ↔
      calls = [] ∨ m = [] := by
  constructor
  · intro hall
    cases calls with
    | nil => exact .inl rfl
    | cons call calls =>
        right
        by_contra hm
        obtain ⟨dest, cmd, ts⟩ := call
        obtain ⟨s, hs, -, hbuf, -⟩ := send_mailbox id ts b c dest cmd m h
        rw [sendAll_cons hs] at hall
        obtain ⟨⟨hkept, p, -, -, -, hbody, hplain⟩, -⟩ := List.forall₂_cons.mp hall
        exact hplain hm (hbody.trans (hbuf.symm.trans hkept))
  · rintro (rfl | rfl)
    · exact .nil
    · refine List.forall₂_iff_get.mpr ⟨(length_sendAll id calls b c h).symm, ?_⟩
      intro k hk hk'
      have hnil : crypted c.key [] (k + 1) = [] := by
        rw [crypted]
        split <;> rfl
      obtain ⟨p, hdest, hcmd, hbody, hget⟩ := sendAll_get id calls b c h k
        (List.getElem?_eq_getElem hk)
      rw [hnil] at hbody hget
      rw [List.get_eq_getElem, List.get_eq_getElem,
        Option.some.inj ((List.getElem?_eq_getElem hk').symm.trans hget)]
      exact ⟨rfl, p, hdest, hcmd, rfl, hbody, fun h => absurd rfl h⟩

theorem sendAll_kept_iff_twice :
    List.Forall₂ (Kept 1 zeroKeyClient.key [0x60])
        [(broadcastAddr, 0, []), (2, 0, [])]
        (sendAll 1 [(broadcastAddr, 0, []), (2, 0, [])] ([], []) zeroKeyClient [0x60]
          (by decide)) ↔
      ([(broadcastAddr, 0, []), (2, 0, [])] : List (UInt16 × UInt8 × List Telegram)) = [] ∨
        ([0x60] : List UInt8) = [] :=
  sendAll_kept_iff 1 [(broadcastAddr, 0, []), (2, 0, [])] ([], []) zeroKeyClient (by decide)

/-- The second of two calls sends the byte as it is. -/
theorem second_sends_plaintext :
    ¬ List.Forall₂ (Kept 1 zeroKeyClient.key [0x60])
        [(broadcastAddr, 0, []), (2, 0, [])]
        (sendAll 1 [(broadcastAddr, 0, []), (2, 0, [])] ([], []) zeroKeyClient [0x60]
          (by decide)) ∧
      (sendAll 1 [(broadcastAddr, 0, []), (2, 0, [])] ([], []) zeroKeyClient [0x60]
        (by decide))[1]? =
        some (PktWrapper.telegramsOf 1 ⟨2, 0, [0x60], by decide⟩, [0x60]) := by
  constructor
  · intro hall
    obtain ⟨⟨hkept, -⟩, -⟩ := List.forall₂_cons.mp hall
    have hself := (Aes.out_eq_self_iff _ _).mp hkept
    rw [List.length_singleton, keystream_zeroKey] at hself
    cases hself
  · obtain ⟨p, hdest, hcmd, hbody, hget⟩ := sendAll_get 1
      [(broadcastAddr, 0, []), (2, 0, [])] ([], []) zeroKeyClient (m := [0x60])
      (by decide) 1 rfl
    obtain ⟨dest, cmd, body, hlt⟩ := p
    cases hdest
    cases hcmd
    cases hbody
    exact hget

end ClientSmoke

end LibSmoke
