import LibSmoke.Lib.Runs
import LibSmoke.Knx.LinuxTcp
import LibSmoke.Smoke.Server

/-!
# Telegrams over the relay

Every client has a TCP backend at one end of a connection and the server has the
other. TCP hands over bytes in order and cuts them as it likes: a round of the
server reads up to 512 bytes off a connection, an update of a client up to 128.

The server passes on the pieces it read, and so the telegrams arrive whole only
when no piece comes between the parts of a telegram that was cut
(`cut_telegram_lost`). As long as every piece follows on whole telegrams of all
others, in what a client was sent since it joined, every client that stays decodes
an interleaving of what the others sent (`telegrams_interleaved`).
-/

namespace LibSmoke

open Framing

/-- `down` is on its way from the server to a client. What the server took off
the clients, how much that was when a client joined, who ever joined, what every
client sent and the bytes it was given is kept as history. -/
structure Relay (κ : Type) where
  server : ServerSmoke κ
  tcp : κ → LinuxTcp
  down : κ → List UInt8
  log : List (κ × List UInt8)
  joined : κ → Nat
  known : List κ
  sent : κ → List Telegram
  got : κ → List UInt8

namespace Relay

/-- `round` with the connection that is waiting, how many bytes can be read off
a connection, and how much a send takes; no bytes are a closed connection. -/
inductive Action (κ : Type)
  | broadcast (x : κ) (t : Telegram)
  | round (accept : Option κ) (recv : κ → Option Nat) (send : κ → Nat → Nat)
  | update (x : κ) (k : Nat)

variable {κ : Type} [DecidableEq κ]

/-- Everybody is connected, and the server has accepted nobody yet. -/
def start : Relay κ where
  server := (ServerSmoke.new.init true).1
  tcp := fun _ => (LinuxTcp.new.init true).1
  down := fun _ => []
  log := []
  joined := fun _ => 0
  known := []
  sent := fun _ => []
  got := fun _ => []

/-- What is on its way from a client to the server. -/
def up (b : Relay κ) (x : κ) : List UInt8 :=
  (b.tcp x).wire.drop (streamOf x b.log).length

/-- What a round meets. -/
def roundOf (accept : Option κ) (recv : κ → Option Nat) (send : κ → Nat → Nat)
    (b : Relay κ) : Round κ where
  accept := accept.filter fun x => x ∉ b.known
  recv := fun x => (recv x).map fun k => (b.up x).take (min k bufsz)
  send := send

def round (e : Round κ) (b : Relay κ) : Relay κ :=
  let res := b.server.run e
  { b with
    server := res.1
    down := fun x => b.down x ++ streamOf x res.2
    log := b.log ++ b.server.pushed e
    joined := fun x => if e.accept = some x then b.log.length else b.joined x
    known := b.known ++ e.accept.toList }

/-- An update of a client that receives `buf`. -/
def receive (x : κ) (buf : List UInt8) (h : buf.length ≤ tcpRecvsize)
    (b : Relay κ) : Relay κ :=
  { b with
    tcp := Function.update b.tcp x ((b.tcp x).update (.recv buf h)).1
    down := Function.update b.down x ((b.down x).drop buf.length)
    got := Function.update b.got x (b.got x ++ buf) }

def step (b : Relay κ) : Action κ → Relay κ
  | .broadcast x t =>
      let res := (b.tcp x).broadcast t
      { b with
        tcp := Function.update b.tcp x res.1
        sent := if res.2 then Function.update b.sent x (b.sent x ++ [t])
          else b.sent }
  | .round accept recv send => b.round (roundOf accept recv send b)
  | .update x k =>
      b.receive x ((b.down x).take (min k tcpRecvsize)) (by
        rw [List.length_take]
        omega)

/-- Every piece a round takes follows on whole telegrams of all other clients, in what
each connected client was sent since it joined; and a client joins on whole telegrams
of those that are connected. Half a telegram of a client that is gone does not matter
to those that join after it. -/
def OnBoundary (b : Relay κ) : Action κ → Prop
  | .round accept recv send =>
      let e := roundOf accept recv send b
      (∀ c ∈ b.server.clients,
        Unbroken Telegram.frames (b.log.drop (b.joined c.sock) ++ b.server.pushed e)) ∧
      (e.accept.isSome →
        ∀ c ∈ b.server.clients, Whole Telegram.frames (streamOf c.sock b.log))
  | _ => True

instance [Fintype κ] (b : Relay κ) : ∀ act, Decidable (OnBoundary b act)
  | .round accept recv send => inferInstanceAs (Decidable
      ((∀ c ∈ b.server.clients, Unbroken Telegram.frames
        (b.log.drop (b.joined c.sock) ++
          b.server.pushed (roundOf accept recv send b))) ∧
      ((roundOf accept recv send b).accept.isSome →
        ∀ c ∈ b.server.clients, Whole Telegram.frames (streamOf c.sock b.log))))
  | .broadcast _ _ | .update _ _ => .isTrue trivial

/-- A client that stays has decoded telegrams `frames` of the clients, of each
those it sent behind the ones the server had received whole when the client joined,
up to the ones that are not received yet. -/
def Interleaved (b : Relay κ) (x : κ) : Prop :=
  ∃ frames : List (κ × Telegram),
    (b.tcp x).pkts <+: frames.map Prod.snd ∧
    (b.down x = [] → (b.tcp x).pkts = frames.map Prod.snd) ∧
    ∀ y, ∃ before after,
      b.sent y = before ++ tagged y frames ++ after ∧
      before.map Telegram.raw =
        (decode Telegram.frames (streamOf y (b.log.take (b.joined x)))).1 ∧
      (b.up y = [] → after = [])

/-! ## The invariant -/

/-- Was connected and is not read any more. -/
def Gone (b : Relay κ) (x : κ) : Prop :=
  x ∈ b.known ∧ x ∉ b.server.clients.map Client.sock

structure Inv (b : Relay κ) : Prop where
  tidy : b.server.Tidy
  known : ∀ c ∈ b.server.clients, c.sock ∈ b.known
  ready : ∀ x, (b.tcp x).ready = true
  wire : ∀ x, (b.tcp x).wire = (b.sent x).flatMap Telegram.raw
  took : ∀ x, streamOf x b.log <+: (b.tcp x).wire
  decoded : ∀ x, LinuxTcp.Decoded (b.got x) (b.tcp x)
  fresh : ∀ x, x ∉ b.known → b.got x = [] ∧ b.down x = []
  unheard : ∀ x, x ∉ b.known → streamOf x b.log = []
  stream : ∀ c ∈ b.server.clients,
    b.got c.sock ++ b.down c.sock = merged (b.log.drop (b.joined c.sock))
  unbroken : ∀ c ∈ b.server.clients,
    Unbroken Telegram.frames (b.log.drop (b.joined c.sock))
  joined_le : ∀ c ∈ b.server.clients, b.joined c.sock ≤ b.log.length
  whole : ∀ c ∈ b.server.clients, ∀ y,
    Whole Telegram.frames (streamOf y (b.log.take (b.joined c.sock))) ∨
      streamOf y (b.log.drop (b.joined c.sock)) = [] ∧ b.Gone y

theorem Inv.start : Inv (start : Relay κ) where
  tidy := by
    refine ⟨List.nodup_nil, ?_, rfl⟩
    intro c hc
    cases hc
  known := fun c hc => by cases hc
  ready := fun x => rfl
  wire := fun x => rfl
  took := fun x => List.prefix_rfl
  decoded := fun x => ⟨rfl, RingBuffer.contents_new _, rfl⟩
  fresh := fun x _ => ⟨rfl, rfl⟩
  unheard := fun x _ => rfl
  stream := fun c hc => by cases hc
  unbroken := fun c hc => by cases hc
  joined_le := fun c hc => by cases hc
  whole := fun c hc => by cases hc

theorem Inv.broadcast {b : Relay κ} (h : Inv b) (x : κ) (t : Telegram) :
    Inv (step b (.broadcast x t)) := by
  have hres : (b.tcp x).broadcast t =
      ({ b.tcp x with wire := (b.tcp x).wire ++ t.raw }, true) := by
    rw [LinuxTcp.broadcast, if_pos (h.ready x)]
  rw [step, hres]
  exact { h with
    ready := (Function.forall_update_iff _ fun (_ : κ) (c : LinuxTcp) => c.ready = true).mpr
      ⟨h.ready x, fun y _ => h.ready y⟩
    wire := by
      intro y
      by_cases hy : y = x
      · subst hy
        simp only [if_true, Function.update_self, List.flatMap_append,
          List.flatMap_singleton, h.wire y]
      · simp only [if_true, Function.update_of_ne hy]
        exact h.wire y
    took := (Function.forall_update_iff _
        fun (y : κ) (c : LinuxTcp) => streamOf y b.log <+: c.wire).mpr
      ⟨(h.took x).trans (List.prefix_append _ _), fun y _ => h.took y⟩
    decoded := (Function.forall_update_iff _
        fun y => LinuxTcp.Decoded (b.got y)).mpr
      ⟨⟨(h.decoded x).pkts, (h.decoded x).held, (h.decoded x).bufsize⟩,
        fun y _ => h.decoded y⟩ }

theorem Inv.receive {b : Relay κ} (h : Inv b) {x : κ} {buf : List UInt8}
    (hlen : buf.length ≤ tcpRecvsize) (hpre : buf <+: b.down x) :
    Inv (b.receive x buf hlen) := by
  have hdown : buf ++ (b.down x).drop buf.length = b.down x := by
    obtain ⟨rest, hrest⟩ := hpre
    rw [← hrest, List.drop_left]
  have hres : ((b.tcp x).update (.recv buf hlen)).1 =
      (b.tcp x).processPacket buf := by
    unfold LinuxTcp.update
    rw [if_neg (by simp [h.ready x])]
  rw [Relay.receive, hres]
  exact { h with
    ready := (Function.forall_update_iff _ fun (_ : κ) (c : LinuxTcp) => c.ready = true).mpr
      ⟨(LinuxTcp.ready_processPacket _ _).trans (h.ready x), fun y _ => h.ready y⟩
    wire := (Function.forall_update_iff _
        fun (y : κ) (c : LinuxTcp) => c.wire = (b.sent y).flatMap Telegram.raw).mpr
      ⟨(LinuxTcp.wire_processPacket _ _).trans (h.wire x), fun y _ => h.wire y⟩
    took := (Function.forall_update_iff _
        fun (y : κ) (c : LinuxTcp) => streamOf y b.log <+: c.wire).mpr
      ⟨by rw [LinuxTcp.wire_processPacket]; exact h.took x, fun y _ => h.took y⟩
    decoded := by
      intro y
      by_cases hy : y = x
      · subst hy
        simp only [Function.update_self]
        exact (h.decoded y).processPacket hlen
      · simp only [Function.update_of_ne hy]
        exact h.decoded y
    fresh := by
      intro y hy
      by_cases hyx : y = x
      · subst hyx
        obtain ⟨hgot, hnone⟩ := h.fresh y hy
        rw [hnone] at hdown
        obtain ⟨rfl, -⟩ := List.append_eq_nil_iff.mp hdown
        simp only [Function.update_self, hgot, hnone]
        exact ⟨rfl, rfl⟩
      · simp only [Function.update_of_ne hyx]
        exact h.fresh y hy
    stream := by
      intro c hc
      by_cases hcx : c.sock = x
      · subst hcx
        simp only [Function.update_self]
        rw [List.append_assoc, hdown]
        exact h.stream c hc
      · simp only [Function.update_of_ne hcx]
        exact h.stream c hc }

theorem Inv.stranger {b : Relay κ} (h : Inv b) {x : κ} (hx : x ∉ b.known) :
    x ∉ b.server.clients.map Client.sock := by
  intro hin
  obtain ⟨c, hc, rfl⟩ := List.mem_map.mp hin
  exact hx (h.known c hc)

/-- A client that joins starts with pieces that are in order themselves. -/
theorem Inv.unbroken_pushed {b : Relay κ} (h : Inv b) (e : Round κ)
    (hunbroken : ∀ c ∈ b.server.clients, Unbroken Telegram.frames
      (b.log.drop (b.joined c.sock) ++ b.server.pushed e))
    (hjoin : ∀ c ∈ b.server.clients, Whole Telegram.frames (streamOf c.sock b.log)) :
    Unbroken Telegram.frames (b.server.pushed e) := by
  rcases List.eq_nil_or_concat b.server.clients with hcs | ⟨cs, c, hcs⟩
  · rw [ServerSmoke.pushed, hcs]
    split <;> exact unbroken_nil
  · have hc : c ∈ b.server.clients := by
      rw [hcs]
      simp
    refine (hunbroken c hc).drop fun y => ?_
    by_cases hy : y ∈ b.server.clients.map Client.sock
    · obtain ⟨c', hc', rfl⟩ := List.mem_map.mp hy
      rcases h.whole c hc c'.sock with hwhole | ⟨hempty, -⟩
      · refine .inl (hwhole.of_append ?_)
        rw [← streamOf_append, List.take_append_drop]
        exact hjoin c' hc'
      · rw [hempty]
        exact .inl rfl
    · exact .inr (ServerSmoke.streamOf_pushed_other e hy)

theorem Inv.round {b : Relay κ} (h : Inv b) {accept : Option κ}
    {recv : κ → Option Nat} {send : κ → Nat → Nat}
    (hC : OnBoundary b (.round accept recv send)) :
    Inv (step b (.round accept recv send)) := by
  obtain ⟨hunbroken, hjoin⟩ := hC
  rw [step]
  have hrecv : ∀ x, ((roundOf accept recv send b).recv x).getD [] <+: b.up x := by
    intro x
    show ((recv x).map fun k => (b.up x).take (min k bufsz)).getD [] <+: b.up x
    cases recv x with
    | none => exact List.nil_prefix
    | some k => exact List.take_prefix _ _
  have hnew : ∀ x, (roundOf accept recv send b).accept = some x → x ∉ b.known := by
    intro x hx
    simpa using (Option.filter_eq_some_iff.mp hx).2
  generalize roundOf accept recv send b = e at *
  obtain ⟨htidy, hclients, hothers⟩ := ServerSmoke.run_spec e h.tidy
    fun x hx => h.stranger (hnew x hx)
  have hpieces : ∀ x, streamOf x (b.server.pushed e) <+: b.up x := by
    intro x
    rw [ServerSmoke.pushed]
    split
    · exact (ServerSmoke.streamOf_pieces e h.tidy.nodup x).trans (hrecv x)
    · exact List.nil_prefix
  have hnone : ∀ {x}, x ∉ b.server.clients.map Client.sock →
      streamOf x (b.server.pushed e) = [] :=
    ServerSmoke.streamOf_pushed_other e
  have hsock : ∀ c ∈ (b.server.run e).1.clients, e.accept ≠ some c.sock →
      c ∈ b.server.clients := by
    intro c hc hne
    rcases (hclients c hc).1 with hin | hacc
    · exact hin
    · exact absurd hacc.2 hne
  have hgone : ∀ {y}, y ∈ b.known → y ∉ b.server.clients.map Client.sock →
      (b.round e).Gone y := by
    intro y hy hout
    refine ⟨List.mem_append_left _ hy, fun hin => ?_⟩
    obtain ⟨c, hc, rfl⟩ := List.mem_map.mp hin
    rcases (hclients c hc).1 with hold | ⟨-, hacc⟩
    · exact hout (List.mem_map_of_mem hold)
    · exact hnew _ hacc hy
  rw [Relay.round] at hgone ⊢
  exact {
    tidy := htidy
    known := by
      intro c hc
      rcases (hclients c hc).1 with hin | ⟨-, hacc⟩
      · exact List.mem_append_left _ (h.known c hin)
      · refine List.mem_append_right _ ?_
        rw [hacc]
        exact List.mem_singleton_self _
    ready := h.ready
    wire := h.wire
    took := by
      intro x
      obtain ⟨rest, hrest⟩ := h.took x
      have hup := hpieces x
      rw [up, ← hrest, List.drop_left] at hup
      rw [streamOf_append, ← hrest]
      exact (List.prefix_append_right_inj _).mpr hup
    decoded := h.decoded
    fresh := by
      intro x hx
      rw [List.mem_append, not_or] at hx
      obtain ⟨hgot, hdown⟩ := h.fresh x hx.1
      have hacc : e.accept ≠ some x := by
        intro heq
        rw [heq] at hx
        exact hx.2 (List.mem_singleton_self x)
      refine ⟨hgot, ?_⟩
      show b.down x ++ streamOf x (b.server.run e).2 = []
      rw [hdown, hothers x (h.stranger hx.1) hacc, List.nil_append]
    unheard := by
      intro x hx
      rw [List.mem_append, not_or] at hx
      rw [streamOf_append, h.unheard x hx.1, hnone (h.stranger hx.1)]
      rfl
    stream := by
      intro c hc
      show b.got c.sock ++ (b.down c.sock ++ streamOf c.sock (b.server.run e).2) = _
      rw [(hclients c hc).2, ← List.append_assoc]
      simp only []
      split
      · next hacc =>
          obtain ⟨hgot, hdown⟩ := h.fresh c.sock (hnew _ hacc)
          rw [hgot, hdown, List.drop_left]
          rfl
      · next hacc =>
          have hin := hsock c hc hacc
          rw [h.stream c hin, List.drop_append_of_le_length (h.joined_le c hin),
            merged_append]
    unbroken := by
      intro c hc
      simp only []
      split
      · next hacc =>
          rw [List.drop_left]
          exact h.unbroken_pushed e hunbroken (hjoin (by rw [hacc]; rfl))
      · next hacc =>
          have hin := hsock c hc hacc
          rw [List.drop_append_of_le_length (h.joined_le c hin)]
          exact hunbroken c hin
    joined_le := by
      intro c hc
      simp only [List.length_append]
      split
      · omega
      · next hacc =>
          have := h.joined_le c (hsock c hc hacc)
          omega
    whole := by
      intro c hc y
      simp only []
      split
      · next hacc =>
          rw [List.take_left, List.drop_left]
          by_cases hconn : y ∈ b.server.clients.map Client.sock
          · obtain ⟨c', hc', rfl⟩ := List.mem_map.mp hconn
            exact .inl (hjoin (by rw [hacc]; rfl) c' hc')
          by_cases hy : y ∈ b.known
          · exact .inr ⟨hnone hconn, hgone hy hconn⟩
          · rw [h.unheard y hy]
            exact .inl rfl
      · next hacc =>
          have hin := hsock c hc hacc
          have hle := h.joined_le c hin
          rw [List.take_append_of_le_length hle, List.drop_append_of_le_length hle]
          rcases h.whole c hin y with hwhole | ⟨hempty, hy, hout⟩
          · exact .inl hwhole
          · refine .inr ⟨?_, hgone hy hout⟩
            rw [streamOf_append, hempty, hnone hout]
            rfl }

theorem Inv.step {b : Relay κ} (h : Inv b) (act : Action κ)
    (hC : OnBoundary b act) : Inv (step b act) := by
  cases act with
  | broadcast x t => exact h.broadcast x t
  | round accept recv send => exact h.round hC
  | update x k => exact h.receive _ (List.take_prefix _ _)

/-! ## What arrives -/

/-- Frames are the bytes of telegrams. -/
theorem exists_telegrams {β : Type} {frames : List (β × List UInt8)}
    (h : ∀ f ∈ frames.map Prod.snd, IsFrame Telegram.frames f) :
    ∃ ts : List (β × Telegram), frames = ts.map (Prod.map id Telegram.raw) := by
  induction frames with
  | nil => exact ⟨[], rfl⟩
  | cons f frames ih =>
      obtain ⟨ts, rfl⟩ := ih fun f' hf' => h f' (List.mem_cons_of_mem _ hf')
      exact ⟨(f.1, Telegram.ofFrame f.2 (h f.2 List.mem_cons_self)) :: ts, rfl⟩

/-- A stream that holds a first part, which ends with a telegram if the second one is
not empty, and goes on. -/
theorem split_sent {sent mid : List Telegram} {first second rest : List UInt8}
    (hwire : sent.flatMap Telegram.raw = first ++ second ++ rest)
    (hfirst : Whole Telegram.frames first ∨ second = [])
    (hmid : mid.map Telegram.raw = (decode Telegram.frames second).1) :
    ∃ before after, sent = before ++ mid ++ after ∧
      before.map Telegram.raw = (decode Telegram.frames first).1 ∧
      (rest = [] → after = []) := by
  have hall : (decode Telegram.frames (sent.flatMap Telegram.raw)).1 =
      sent.map Telegram.raw := by
    have hisFrame : ∀ f ∈ sent.map Telegram.raw, IsFrame Telegram.frames f := by
      intro f hf
      obtain ⟨t, -, rfl⟩ := List.mem_map.mp hf
      exact Telegram.isFrame t
    have hflat := decode_flatten hisFrame []
    rw [List.append_nil, decode_nil, List.append_nil, ← List.flatMap_def] at hflat
    rw [hflat]
  rw [hwire, decode_append (first ++ second), decode_append_fst hfirst, ← hmid] at hall
  obtain ⟨front, after, rfl, hfront, hafter⟩ := List.map_eq_append_iff.mp hall.symm
  obtain ⟨before, mid', rfl, hbefore, hmid'⟩ := List.map_eq_append_iff.mp hfront
  obtain rfl := List.map_injective_iff.mpr Telegram.raw_injective hmid'
  refine ⟨before, after, rfl, hbefore, ?_⟩
  rintro rfl
  rw [List.append_nil, decode_of_not_complete (not_complete_rest (first ++ second))]
    at hafter
  exact List.map_eq_nil_iff.mp hafter

theorem Inv.interleaved {b : Relay κ} (h : Inv b) {c : Client κ}
    (hc : c ∈ b.server.clients) : b.Interleaved c.sock := by
  have hlog := List.take_append_drop (b.joined c.sock) b.log
  obtain ⟨fs, hall, hlanes, -⟩ := decode_merged (h.unbroken c hc)
  have hisFrame : ∀ f ∈ fs.map Prod.snd, IsFrame Telegram.frames f := by
    rw [← hall]
    intro f hf
    exact isFrame_of_mem_decode hf
  obtain ⟨frames, rfl⟩ := exists_telegrams hisFrame
  have hsnd : ((frames.map (Prod.map id Telegram.raw)).map Prod.snd) =
      (frames.map Prod.snd).map Telegram.raw := by
    rw [List.map_map, List.map_map]
    rfl
  rw [hsnd, ← h.stream c hc] at hall
  refine ⟨frames, ?_, ?_, ?_⟩
  · rw [decode_append, ← (h.decoded c.sock).pkts] at hall
    obtain ⟨pkts, rest, heq, hpkts, -⟩ := List.map_eq_append_iff.mp hall.symm
    obtain rfl := List.map_injective_iff.mpr Telegram.raw_injective hpkts
    exact ⟨rest, heq.symm⟩
  · intro hdown
    rw [hdown, List.append_nil, ← (h.decoded c.sock).pkts] at hall
    exact List.map_injective_iff.mpr Telegram.raw_injective hall
  · intro y
    obtain ⟨rest, hrest⟩ := h.took y
    have hup : b.up y = rest := by rw [up, ← hrest, List.drop_left]
    have hwire : (b.sent y).flatMap Telegram.raw =
        streamOf y (b.log.take (b.joined c.sock)) ++
          streamOf y (b.log.drop (b.joined c.sock)) ++ rest := by
      rw [← h.wire y, ← hrest, ← streamOf_append, hlog]
    rw [hup]
    refine split_sent hwire ((h.whole c hc y).imp_right And.left) ?_
    rw [← hlanes y, tagged_map]

/-- If every piece the server takes follows on whole telegrams of all other
clients, as far as a connected client was sent them, and every client joins on whole
telegrams, then in every state of the run every connected client decodes an
interleaving of what the clients send. -/
theorem telegrams_interleaved {acts : List (Action κ)}
    (hacts : Runs.Meets step OnBoundary start acts) {c : Client κ}
    (hc : c ∈ (Runs.run step start acts).server.clients) :
    (Runs.run step start acts).Interleaved c.sock := by
  have hinv : Inv (Runs.run step start acts) :=
    Runs.Meets.inv (fun b act h hC => h.step act hC) Inv.start hacts
  exact hinv.interleaved hc

/-! ## Two clients -/

/-- A telegram with no body. -/
def empty (id : UInt16) : Telegram :=
  Telegram.written id ⟨broadcastAddr, .normal, .group, 0⟩ [] (Nat.zero_le _)

/-- Two clients send a telegram each, and the server first takes `k` bytes of
what `x` sent and all that `y` sent, and then the rest. -/
def twoPieces (x y : κ) (k : Nat) : List (Action κ) :=
  let all : κ → Nat → Nat := fun _ _ => bufsz
  [.round (some x) (fun _ => none) all, .round (some y) (fun _ => none) all,
    .broadcast x (empty 1), .broadcast y (empty 2),
    .round none (fun z => some (if z = x then k else bufsz)) all,
    .round none (fun z => if z = x then some bufsz else none) all,
    .update y tcpRecvsize]

theorem telegrams_interleaved_whole :
    (Runs.run step start (twoPieces (0 : Fin 2) 1 bufsz)).Interleaved 1 := by
  have hacts : Runs.Meets step OnBoundary start
      (twoPieces (0 : Fin 2) 1 bufsz) := by
    decide +kernel
  have hc : (⟨1, false⟩ : Client (Fin 2)) ∈ (Runs.run step start
      (twoPieces (0 : Fin 2) 1 bufsz)).server.clients := by
    decide +kernel
  exact telegrams_interleaved hacts hc

/-- The first client leaves after three bytes of a telegram, and the second one joins. -/
example :
    let all : Fin 2 → Nat → Nat := fun _ _ => bufsz
    let only : Fin 2 → Nat → Fin 2 → Option Nat := fun x k z => if z = x then some k else none
    Runs.Meets step OnBoundary start [.round (some 0) (fun _ => none) all,
      .broadcast 0 (empty 1), .round none (only 0 3) all, .round none (only 0 0) all,
      .round (some 1) (fun _ => none) all, .broadcast 1 (empty 2),
      .round none (only 1 bufsz) all, .update 1 tcpRecvsize] := by
  decide +kernel

/-- A telegram that is cut after three bytes never arrives, though both clients
stay and all bytes of all telegrams were received and passed on. -/
theorem cut_telegram_lost :
    let b := Runs.run step start (twoPieces (0 : Fin 2) 1 3)
    (∀ x, b.up x = [] ∧ b.down 1 = [] ∧
      (⟨x, false⟩ : Client (Fin 2)) ∈ b.server.clients) ∧
    ¬ b.Interleaved 1 := by
  intro b
  have hreceived : ∀ x, b.up x = [] ∧ b.down 1 = [] ∧
      (⟨x, false⟩ : Client (Fin 2)) ∈ b.server.clients := by
    decide +kernel
  refine ⟨hreceived, ?_⟩
  rintro ⟨frames, -, hpkts, hsent⟩
  obtain ⟨before, after, hall, hbefore, hafter⟩ := hsent 0
  have hbefore : before = [] := List.map_eq_nil_iff.mp hbefore
  rw [hbefore, hafter (hreceived 0).1, List.append_nil, List.nil_append] at hall
  have hmem : empty 1 ∈ tagged 0 frames := hall ▸ List.mem_singleton_self _
  obtain ⟨e, he, heq⟩ := List.mem_map.mp hmem
  have hlost : empty 1 ∉ (b.tcp 1).pkts := by decide +kernel
  rw [hpkts (hreceived 0).2.1, ← heq] at hlost
  exact hlost (List.mem_map_of_mem (List.mem_filter.mp he).1)

end Relay

end LibSmoke
