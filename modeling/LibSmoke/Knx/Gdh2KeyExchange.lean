import LibSmoke.Knx.Bd1KeyExchange
import LibSmoke.Sban.Gdh2

/-!
# The exchange along a chain over packets

`GDH2KeyExchange` makes a node the first, the last or a simple one by its place
among the ids, and hands every packet to what the node has been made
(`Gdh2Behavior`). The first node sends to the next one, a simple one takes from
the one before it and sends to the next, and the last one broadcasts.

A behaviour that fails while it starts is dropped, and the exchange stays running
without one.
-/

namespace LibSmoke

/-- `GDH2_BUFSIZE`. -/
def gdh2Bufsize : Nat := 66

/-- `CMD_GDH2_NODE_VAL`. -/
def cmdGdh2NodeVal : UInt8 := 0x25

/-- `CMD_GDH2_LAST_VAL`. -/
def cmdGdh2LastVal : UInt8 := 0x26

/-- A packet with what has been written to a buffer; `PKTWrapper::write` takes a
length of 16 bits. -/
def valPacket (dest : UInt16) (cmd : UInt8) (bytes : List UInt8) : Outgoing :=
  ⟨dest, cmd, bytes.take (bytes.length % 2 ^ 16), by
    have := Nat.mod_lt bytes.length (Nat.two_pow_pos 16)
    rw [List.length_take]
    omega⟩

/-- `FirstNodeBehavior`, `LastNodeBehavior` and `SimpleNodeBehavior`. -/
inductive Gdh2Role
  | first
  | last
  | simple
  deriving DecidableEq

/-- `GDH2::Behavior` with the network of its node. -/
structure Gdh2Behavior where
  keylen : Nat
  key : List UInt8
  tmpbuflen : Nat
  completed : Bool
  inited : Bool
  ctx : Gdh2Context
  net : NetworkT
  role : Gdh2Role

/-- `draw` of the generator are the numbers of one private key. -/
structure Gdh2KeyExchange where
  status : KeyStatus
  nodes : Finset UInt16
  drbg : Option (Nat → Nat)
  behavior : Option Gdh2Behavior

namespace Gdh2Behavior

/-- The constructor; what it does not write is zero here. -/
def new (g : EcpGroup) (nodes : Finset UInt16) (net : NetworkT) (role : Gdh2Role)
    (draw : Nat → Nat) : Gdh2Behavior :=
  let b := ⟨0, List.replicate gdh2Bufsize 0, gdh2Bufsize * (nodes.card + 1), false, false,
    ⟨g, 0, 0, 0⟩, net, role⟩
  match gdh2Init g nodes.card draw with
  | .error _ => b
  | .ok ctx => { b with inited := true, ctx := ctx }

/-- What a call of a behaviour comes to. -/
structure Result where
  state : Gdh2Behavior
  wrote : List Outgoing
  ok : Bool

/-- `init`; only that of the first node does anything. -/
def init (b : Gdh2Behavior) : Result :=
  if b.inited = false then ⟨b, [], false⟩
  else if b.role = .first then
    match gdh2MakeFirstval b.ctx b.tmpbuflen with
    | .error _ => ⟨b, [], false⟩
    | .ok obuf => ⟨b, [valPacket b.net.next cmdGdh2NodeVal obuf], true⟩
  else ⟨b, [], true⟩

/-- What the nodes but the last do with the broadcast. -/
def computeKey (p : Pkt) (b : Gdh2Behavior) : Result :=
  match gdh2ComputeKey b.ctx b.net.pos.toNat p.data p.data.length gdh2Bufsize with
  | .error _ => ⟨b, [], false⟩
  | .ok (ctx, key) =>
      ⟨{ b with
          ctx := ctx
          key := memcpy b.key 0 key
          keylen := key.length
          completed := true }, [], true⟩

/-- `FirstNodeBehavior::on_recv`. -/
def firstRecv (p : Pkt) (b : Gdh2Behavior) : Result :=
  if p.src ≠ b.net.last then ⟨b, [], true⟩
  else if p.cmd = cmdGdh2LastVal then b.computeKey p
  else ⟨b, [], true⟩

/-- `LastNodeBehavior::on_recv`. -/
def lastRecv (p : Pkt) (b : Gdh2Behavior) : Result :=
  if p.src ≠ b.net.prev then ⟨b, [], true⟩
  else if p.cmd = cmdGdh2NodeVal then
    match gdh2MakeVal b.ctx b.net.pos.toNat p.data p.data.length b.tmpbuflen with
    | .error _ => ⟨b, [], false⟩
    | .ok (ctx, obuf) =>
        let wrote := [valPacket broadcastAddr cmdGdh2LastVal obuf]
        match gdh2ExportKey ctx gdh2Bufsize with
        | .error _ => ⟨{ b with ctx := ctx }, wrote, false⟩
        | .ok key =>
            ⟨{ b with
                ctx := ctx
                key := memcpy b.key 0 key
                keylen := key.length
                completed := true }, wrote, true⟩
  else ⟨b, [], true⟩

/-- `SimpleNodeBehavior::on_recv`. -/
def simpleRecv (p : Pkt) (b : Gdh2Behavior) : Result :=
  if p.cmd = cmdGdh2NodeVal then
    if p.src ≠ b.net.prev then ⟨b, [], true⟩
    else
      match gdh2MakeVal b.ctx b.net.pos.toNat p.data p.data.length b.tmpbuflen with
      | .error _ => ⟨b, [], false⟩
      | .ok (ctx, obuf) =>
          ⟨{ b with ctx := ctx }, [valPacket b.net.next cmdGdh2NodeVal obuf], true⟩
  else if p.cmd = cmdGdh2LastVal then
    if p.src ≠ b.net.last then ⟨b, [], true⟩ else b.computeKey p
  else ⟨b, [], true⟩

/-- `on_recv`. -/
def onRecv (p : Pkt) (b : Gdh2Behavior) : Result :=
  if b.inited = false then ⟨b, [], false⟩
  else
    match b.role with
    | .first => b.firstRecv p
    | .last => b.lastRecv p
    | .simple => b.simpleRecv p

section Recv

variable {b : Gdh2Behavior} {p : Pkt} (hinited : b.inited = true)

include hinited

theorem onRecv_simple {ctx : Gdh2Context} {obuf : List UInt8} (hrole : b.role = .simple)
    (hcmd : p.cmd = cmdGdh2NodeVal) (hsrc : p.src = b.net.prev)
    (hmake : gdh2MakeVal b.ctx b.net.pos.toNat p.data p.data.length b.tmpbuflen =
      .ok (ctx, obuf)) :
    b.onRecv p = ⟨{ b with ctx := ctx }, [valPacket b.net.next cmdGdh2NodeVal obuf],
      true⟩ := by
  have hrecv : b.onRecv p = b.simpleRecv p := by
    rw [onRecv, if_neg (Bool.not_eq_false _ ▸ hinited), hrole]
  rw [hrecv, simpleRecv, if_pos hcmd, if_neg (not_not.mpr hsrc), hmake]

theorem onRecv_last {ctx : Gdh2Context} {obuf key : List UInt8} (hrole : b.role = .last)
    (hcmd : p.cmd = cmdGdh2NodeVal) (hsrc : p.src = b.net.prev)
    (hmake : gdh2MakeVal b.ctx b.net.pos.toNat p.data p.data.length b.tmpbuflen =
      .ok (ctx, obuf))
    (hexport : gdh2ExportKey ctx gdh2Bufsize = .ok key) :
    b.onRecv p = ⟨{ b with
      ctx := ctx
      key := memcpy b.key 0 key
      keylen := key.length
      completed := true }, [valPacket broadcastAddr cmdGdh2LastVal obuf], true⟩ := by
  have hrecv : b.onRecv p = b.lastRecv p := by
    rw [onRecv, if_neg (Bool.not_eq_false _ ▸ hinited), hrole]
  rw [hrecv, lastRecv, if_neg (not_not.mpr hsrc), if_pos hcmd, hmake]
  simp only []
  rw [hexport]

theorem onRecv_lastVal {ctx : Gdh2Context} {key : List UInt8} (hrole : b.role ≠ .last)
    (hcmd : p.cmd = cmdGdh2LastVal) (hsrc : p.src = b.net.last)
    (hcompute : gdh2ComputeKey b.ctx b.net.pos.toNat p.data p.data.length gdh2Bufsize =
      .ok (ctx, key)) :
    b.onRecv p = ⟨{ b with
      ctx := ctx
      key := memcpy b.key 0 key
      keylen := key.length
      completed := true }, [], true⟩ := by
  have hother : cmdGdh2LastVal ≠ cmdGdh2NodeVal := by decide
  have hrecv : b.onRecv p = b.computeKey p := by
    rw [onRecv, if_neg (Bool.not_eq_false _ ▸ hinited)]
    cases hb : b.role with
    | first =>
        simp only []
        rw [firstRecv, if_neg (not_not.mpr hsrc), if_pos hcmd]
    | last => exact absurd hb hrole
    | simple =>
        simp only []
        rw [simpleRecv, if_neg (by rw [hcmd]; exact hother), if_pos hcmd,
          if_neg (not_not.mpr hsrc)]
  rw [hrecv, computeKey, hcompute]

end Recv

end Gdh2Behavior

namespace Gdh2KeyExchange

variable (g : EcpGroup) (id : UInt16)

def new (drbg : Option (Nat → Nat)) : Gdh2KeyExchange := ⟨.offline, ∅, drbg, none⟩

def key (m : Gdh2KeyExchange) : List UInt8 :=
  match m.behavior with
  | none => []
  | some b => b.key.take b.keylen

/-- The behaviour a node gets by its place. -/
def roleOf (net : NetworkT) : Gdh2Role :=
  if net.id = net.first then .first
  else if net.id = net.last then .last
  else .simple

def init (nodes : Finset UInt16) (m : Gdh2KeyExchange) :
    Gdh2KeyExchange × List Outgoing × Bool :=
  if m.status ≠ .offline then (m, [], false)
  else if nodes.card > 255 ∨ nodes.card < 2 then (m, [], false)
  else
    match m.drbg with
    | none => ({ m with status := .error, nodes := nodes }, [], false)
    | some draw =>
        let net := NetworkT.of id nodes
        let res := (Gdh2Behavior.new g nodes net (roleOf net) draw).init
        ({ m with
            status := .running
            nodes := nodes
            behavior := if res.ok then some res.state else none }, res.wrote, res.ok)

def shutdown (m : Gdh2KeyExchange) : Gdh2KeyExchange :=
  { m with status := .offline, behavior := none }

/-- The reading loop of `update`. -/
def readLoop : List Pkt → Gdh2KeyExchange → Act Gdh2KeyExchange
  | [], m => ⟨m, [], [], true⟩
  | p :: q, m =>
      match m.behavior with
      | none => readLoop q m
      | some b =>
          let res := b.onRecv p
          let m := { m with behavior := some res.state }
          if res.ok then
            let a := readLoop q m
            { a with wrote := res.wrote ++ a.wrote }
          else ⟨m, q, res.wrote, false⟩

def update (q : List Pkt) (m : Gdh2KeyExchange) : Act Gdh2KeyExchange :=
  if m.status ≠ .running then ⟨m, q, [], false⟩
  else
    let a := readLoop q m
    if a.ok = false then a
    else if (a.state.behavior.map Gdh2Behavior.completed).getD false then
      { a with state := { a.state with status := .completed } }
    else a

/-! ## One call -/

/-- What `init` can do. -/
inductive Init (nodes : Finset UInt16) (m : Gdh2KeyExchange) :
    Gdh2KeyExchange × List Outgoing × Bool → Prop
  | refused (h : m.status = .offline → nodes.card > 255 ∨ nodes.card < 2) :
      Init nodes m (m, [], false)
  | noDrbg (hoff : m.status = .offline) (h : m.drbg = none) :
      Init nodes m ({ m with status := .error, nodes := nodes }, [], false)
  | behavior {draw : Nat → Nat} {res : Gdh2Behavior.Result} (hoff : m.status = .offline)
      (hcard : 2 ≤ nodes.card ∧ nodes.card ≤ 255) (h : m.drbg = some draw)
      (hres : (Gdh2Behavior.new g nodes (NetworkT.of id nodes)
        (roleOf (NetworkT.of id nodes)) draw).init = res) :
      Init nodes m ({ m with
        status := .running
        nodes := nodes
        behavior := if res.ok then some res.state else none }, res.wrote, res.ok)

theorem init_cases (nodes : Finset UInt16) (m : Gdh2KeyExchange) :
    Init g id nodes m (init g id nodes m) := by
  unfold init
  split
  · next hstatus => exact .refused fun h => absurd h hstatus
  · next hstatus =>
      have hoff := not_not.mp hstatus
      split
      · next hcard => exact .refused fun _ => hcard
      · next hcard =>
          split
          · next hdrbg => exact .noDrbg hoff hdrbg
          · next draw hdrbg => exact .behavior hoff (by omega) hdrbg rfl

theorem readLoop_some (p : Pkt) (q : List Pkt) {m : Gdh2KeyExchange} {b : Gdh2Behavior}
    (h : m.behavior = some b) :
    readLoop (p :: q) m =
      if (b.onRecv p).ok then
        { readLoop q { m with behavior := some (b.onRecv p).state } with
          wrote := (b.onRecv p).wrote ++
            (readLoop q { m with behavior := some (b.onRecv p).state }).wrote }
      else ⟨{ m with behavior := some (b.onRecv p).state }, q, (b.onRecv p).wrote,
        false⟩ := by
  rw [readLoop, h]

/-- One packet of a running exchange. -/
theorem update_one {p : Pkt} {m : Gdh2KeyExchange} {b b' : Gdh2Behavior}
    {wrote : List Outgoing} (hrun : m.status = .running) (hb : m.behavior = some b)
    (hrecv : b.onRecv p = ⟨b', wrote, true⟩) :
    update [p] m = ⟨{ m with
      status := if b'.completed then .completed else .running
      behavior := some b' }, [], wrote, true⟩ := by
  have hread : readLoop [p] m =
      ⟨{ m with behavior := some b' }, [], wrote, true⟩ := by
    rw [readLoop_some p [] hb, hrecv, if_pos rfl]
    simp only [readLoop, List.append_nil]
  rw [update, if_neg (not_not.mpr hrun), hread]
  simp only [Option.map_some, Option.getD_some]
  cases hdone : b'.completed with
  | true => rfl
  | false => simp [hrun]

theorem readLoop_none (q : List Pkt) {m : Gdh2KeyExchange} (h : m.behavior = none) :
    readLoop q m = ⟨m, [], [], true⟩ := by
  induction q with
  | nil => rfl
  | cons p q ih => rw [readLoop, h]; exact ih

theorem readLoop_fields (q : List Pkt) (m : Gdh2KeyExchange) :
    (readLoop q m).state.status = m.status ∧
    (readLoop q m).rest <:+ q ∧
    ((readLoop q m).ok = true → (readLoop q m).rest = []) := by
  induction q generalizing m with
  | nil => exact ⟨rfl, List.suffix_refl _, fun _ => rfl⟩
  | cons p q ih =>
      cases hb : m.behavior with
      | none =>
          rw [readLoop_none _ hb]
          exact ⟨rfl, List.nil_suffix, fun _ => rfl⟩
      | some b =>
          rw [readLoop_some p q hb]
          obtain ⟨hstatus, hrest, hok⟩ := ih { m with behavior := some (b.onRecv p).state }
          split
          · exact ⟨hstatus, hrest.trans (List.suffix_cons p q), hok⟩
          · exact ⟨rfl, List.suffix_cons p q, fun hc => by cases hc⟩

/-- What `update` does in a running exchange. -/
theorem update_eq (q : List Pkt) {m : Gdh2KeyExchange} (h : m.status = .running) :
    update q m = { readLoop q m with
      state := if (readLoop q m).ok = true ∧
          ((readLoop q m).state.behavior.map Gdh2Behavior.completed).getD false
        then { (readLoop q m).state with status := .completed }
        else (readLoop q m).state } := by
  rw [update, if_neg (not_not.mpr h)]
  simp only []
  split
  · next hok => rw [if_neg fun hc => by rw [hc.1] at hok; cases hok]
  · next hok =>
      rw [Bool.not_eq_false] at hok
      split
      · next hdone => rw [if_pos ⟨hok, hdone⟩]
      · next hdone => rw [if_neg fun hc => hdone hc.2]

theorem update_idle (q : List Pkt) {m : Gdh2KeyExchange} (h : m.status ≠ .running) :
    update q m = ⟨m, q, [], false⟩ := by
  rw [update, if_pos h]

theorem update_rest (q : List Pkt) (m : Gdh2KeyExchange) : (update q m).rest <:+ q := by
  by_cases h : m.status = .running
  · rw [update_eq q h]
    exact (readLoop_fields q m).2.1
  · rw [update_idle q h]

theorem update_drains {q : List Pkt} {m : Gdh2KeyExchange} (h : (update q m).ok = true) :
    (update q m).rest = [] := by
  by_cases hrun : m.status = .running
  · rw [update_eq q hrun] at h ⊢
    exact (readLoop_fields q m).2.2 h
  · rw [update_idle q hrun] at h
    cases h

theorem update_ne_offline (q : List Pkt) {m : Gdh2KeyExchange} (h : m.status ≠ .offline) :
    (update q m).state.status ≠ .offline := by
  by_cases hrun : m.status = .running
  · rw [update_eq q hrun]
    simp only []
    split
    · simp
    · rw [(readLoop_fields q m).1]
      exact h
  · rw [update_idle q hrun]
    exact h

/-! ## The commands -/

/-- The commands of the exchange. -/
def own (cmd : UInt8) : Bool := cmd == cmdGdh2NodeVal || cmd == cmdGdh2LastVal

theorem own_computeKey (p : Pkt) (b : Gdh2Behavior) :
    ∀ o ∈ (b.computeKey p).wrote, own o.cmd := by
  rw [Gdh2Behavior.computeKey]
  split <;> exact fun o ho => absurd ho List.not_mem_nil

theorem own_onRecv (p : Pkt) (b : Gdh2Behavior) : ∀ o ∈ (b.onRecv p).wrote, own o.cmd := by
  have hnone : ∀ o ∈ ([] : List Outgoing), own o.cmd := fun o ho => absurd ho List.not_mem_nil
  have hone : ∀ (dest : UInt16) (cmd : UInt8) (bytes : List UInt8), own cmd →
      ∀ o ∈ [valPacket dest cmd bytes], own o.cmd := fun dest cmd bytes hcmd o ho => by
    rw [List.mem_singleton.mp ho]
    exact hcmd
  rw [Gdh2Behavior.onRecv]
  split
  · exact hnone
  · split
    · rw [Gdh2Behavior.firstRecv]
      split_ifs
      · exact hnone
      · exact own_computeKey p b
      · exact hnone
    · rw [Gdh2Behavior.lastRecv]
      split_ifs
      · exact hnone
      · split
        · exact hnone
        · simp only []
          split <;> exact hone _ _ _ rfl
      · exact hnone
    · rw [Gdh2Behavior.simpleRecv]
      split_ifs
      · exact hnone
      · split
        · exact hnone
        · exact hone _ _ _ rfl
      · exact hnone
      · exact own_computeKey p b
      · exact hnone

theorem own_readLoop (q : List Pkt) (m : Gdh2KeyExchange) :
    ∀ o ∈ (readLoop q m).wrote, own o.cmd := by
  induction q generalizing m with
  | nil => exact fun o ho => absurd ho List.not_mem_nil
  | cons p q ih =>
      cases hb : m.behavior with
      | none =>
          rw [readLoop_none _ hb]
          exact fun o ho => absurd ho List.not_mem_nil
      | some b =>
          rw [readLoop_some p q hb]
          split
          · intro o ho
            rcases List.mem_append.mp ho with ho | ho
            · exact own_onRecv p b o ho
            · exact ih _ o ho
          · exact own_onRecv p b

theorem own_update (q : List Pkt) (m : Gdh2KeyExchange) :
    ∀ o ∈ (update q m).wrote, own o.cmd := by
  by_cases h : m.status = .running
  · rw [update_eq q h]
    exact own_readLoop q m
  · rw [update_idle q h]
    exact fun o ho => absurd ho List.not_mem_nil

theorem own_initBehavior (b : Gdh2Behavior) : ∀ o ∈ b.init.wrote, own o.cmd := by
  intro o ho
  unfold Gdh2Behavior.init at ho
  split at ho
  · exact absurd ho List.not_mem_nil
  · split at ho
    · split at ho
      · exact absurd ho List.not_mem_nil
      · rw [List.mem_singleton.mp ho]
        rfl
    · exact absurd ho List.not_mem_nil

theorem own_init (nodes : Finset UInt16) (m : Gdh2KeyExchange) :
    ∀ o ∈ (init g id nodes m).2.1, own o.cmd := by
  intro o ho
  have hcase := init_cases g id nodes m
  generalize init g id nodes m = a at hcase ho
  cases hcase with
  | refused | noDrbg => exact absurd ho List.not_mem_nil
  | behavior _ _ _ hres =>
      rw [← hres] at ho
      exact own_initBehavior _ o ho

end Gdh2KeyExchange

/-- `GDH2KeyExchange` behind the interface, on the device with the given id. -/
def gdh2KeyExchange (g : EcpGroup) (id : UInt16) : KeyExchange Gdh2KeyExchange where
  status := Gdh2KeyExchange.status
  init := Gdh2KeyExchange.init g id
  shutdown := Gdh2KeyExchange.shutdown
  update := Gdh2KeyExchange.update

end LibSmoke
