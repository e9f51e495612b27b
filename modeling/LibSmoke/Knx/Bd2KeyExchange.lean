import LibSmoke.Knx.Bd1KeyExchange
import LibSmoke.Sban.Bd2

/-!
# The exchange with a chair over packets

`BD2KeyExchange` makes the node with the lowest id the chair and all others
simple nodes, and hands every packet to what the node has been made
(`Bd2Behavior`). The chair waits for a point of every other node, and then serves
them all in one go, in the order of their ids and with one context. A simple node
answers the chair's point with its own, and takes the key out of what comes back.

A behaviour that fails while it starts is dropped, and the exchange stays running
without one.
-/

namespace LibSmoke

/-- `BD2_BUFSIZE`. -/
def bd2Bufsize : Nat := 66

/-- `CMD_BD2_NODE_Zi`. -/
def cmdBd2NodeZi : UInt8 := 0x22

/-- `CMD_BD2_CHAIR_Z0`. -/
def cmdBd2ChairZ0 : UInt8 := 0x23

/-- `CMD_BD2_CHAIR_Xi`. -/
def cmdBd2ChairXi : UInt8 := 0x24

/-- `LowestIdNodeChooser::get_node`. -/
def lowestIdNode (nodes : Finset UInt16) : UInt16 :=
  ((ascending nodes).foldl
    (fun s i => if s.2 = false ∨ s.1 > i then (i, true) else s) ((0 : UInt16), false)).1

/-- What `ChairBehavior` has of its own, and what `NodeBehavior` has. -/
inductive Bd2Role
  | chair (nodes : Finset UInt16) (nodesQueue : List (UInt16 × List UInt8))
  | node (chair : UInt16)
  deriving DecidableEq

/-- `BD2::Behavior`; its context is always initialised. -/
structure Bd2Behavior where
  keylen : Nat
  key : List UInt8
  completed : Bool
  ctx : Bd2Context
  role : Bd2Role

/-- The generator gives the numbers of one key pair after the other; `drawn` is
how many it has given. -/
structure Bd2KeyExchange where
  status : KeyStatus
  nodes : Finset UInt16
  drbg : Option (Nat → Nat → Nat)
  drawn : Nat
  behavior : Option Bd2Behavior

namespace Bd2Behavior

open Bd1KeyExchange (push)

variable (g : EcpGroup) (id : UInt16)

/-- The constructor; what it does not write is zero here. -/
def new (role : Bd2Role) : Bd2Behavior :=
  ⟨0, List.replicate bd2Bufsize 0, false, bd2Init g, role⟩

/-- What a call of a behaviour comes to; `drawn` is how many key pairs it made. -/
structure Result where
  state : Bd2Behavior
  wrote : List Outgoing
  ok : Bool
  drawn : Nat

/-- `ChairBehavior::init`; `draw` are the numbers of one key pair after the
other. -/
def initChair (draw : Nat → Nat → Nat) (b : Bd2Behavior) : Result :=
  match bd2MakePublic b.ctx bd2Bufsize (draw 0) with
  | .error _ => ⟨b, [], false, 1⟩
  | .ok (ctx, pub) =>
      let wrote := [bufferPacket broadcastAddr cmdBd2ChairZ0 pub]
      match bd2MakeKey ctx (draw 1) with
      | .error _ => ⟨{ b with ctx := ctx }, wrote, false, 2⟩
      | .ok ctx =>
          match bd2ExportKey ctx bd2Bufsize with
          | .error _ => ⟨{ b with ctx := ctx }, wrote, false, 2⟩
          | .ok key =>
              ⟨{ b with ctx := ctx, key := memcpy b.key 0 key, keylen := key.length },
                wrote, true, 2⟩

/-- The loop that serves the queue: what is left of it, the context, what it
wrote, and whether it came to the end. -/
def serve : List (UInt16 × List UInt8) → Bd2Context →
    List (UInt16 × List UInt8) × Bd2Context × List Outgoing × Bool
  | [], ctx => ([], ctx, [], true)
  | k :: q, ctx =>
      match bd2ReadPublic ctx k.2 bd2Bufsize with
      | .error _ => (k :: q, ctx, [], false)
      | .ok ctx =>
          match bd2MakeVal ctx bd2Bufsize with
          | .error _ => (k :: q, ctx, [], false)
          | .ok (ctx, temp) =>
              let (left, ctx, wrote, ok) := serve q ctx
              (left, ctx, bufferPacket k.1 cmdBd2ChairXi temp :: wrote, ok)

/-- `ChairBehavior::on_recv`. -/
def chairRecv (nodes : Finset UInt16) (nodesQueue : List (UInt16 × List UInt8))
    (p : Pkt) (b : Bd2Behavior) : Result :=
  if p.data.length ≠ bd2Bufsize then ⟨b, [], true, 0⟩
  else if p.dest ≠ id then ⟨b, [], true, 0⟩
  else
    let nodesQueue := if p.cmd = cmdBd2NodeZi then push (p.src, p.data) nodesQueue
      else nodesQueue
    if nodesQueue.length = nodes.card - 1 then
      let (left, ctx, wrote, ok) := serve nodesQueue b.ctx
      ⟨{ b with ctx := ctx, role := .chair nodes left, completed := b.completed || ok },
        wrote, ok, 0⟩
    else ⟨{ b with role := .chair nodes nodesQueue }, [], true, 0⟩

/-- `NodeBehavior::on_recv`. -/
def nodeRecv (chair : UInt16) (draw : Nat → Nat → Nat) (p : Pkt) (b : Bd2Behavior) :
    Result :=
  if p.data.length ≠ bd2Bufsize then ⟨b, [], true, 0⟩
  else if p.src ≠ chair then ⟨b, [], true, 0⟩
  else if p.cmd = cmdBd2ChairZ0 then
    match bd2ReadPublic b.ctx p.data p.data.length with
    | .error _ => ⟨b, [], false, 0⟩
    | .ok ctx =>
        match bd2MakePublic ctx bd2Bufsize (draw 0) with
        | .error _ => ⟨{ b with ctx := ctx }, [], false, 1⟩
        | .ok (ctx, tmp) =>
            ⟨{ b with ctx := ctx }, [bufferPacket chair cmdBd2NodeZi tmp], true, 1⟩
  else if p.cmd = cmdBd2ChairXi then
    match bd2ImportVal b.ctx p.data p.data.length with
    | .error _ => ⟨b, [], false, 0⟩
    | .ok ctx =>
        match bd2CalcKey ctx with
        | .error _ => ⟨{ b with ctx := ctx }, [], false, 0⟩
        | .ok ctx =>
            match bd2ExportKey ctx bd2Bufsize with
            | .error _ => ⟨{ b with ctx := ctx }, [], false, 0⟩
            | .ok key =>
                ⟨{ b with
                    ctx := ctx
                    key := memcpy b.key 0 key
                    keylen := key.length
                    completed := true }, [], true, 0⟩
  else ⟨b, [], true, 0⟩

/-- `on_recv`. -/
def onRecv (draw : Nat → Nat → Nat) (p : Pkt) (b : Bd2Behavior) : Result :=
  match b.role with
  | .chair nodes nodesQueue => chairRecv id nodes nodesQueue p b
  | .node chair => nodeRecv chair draw p b

end Bd2Behavior

namespace Bd2KeyExchange

variable (g : EcpGroup) (id : UInt16)

def new (drbg : Option (Nat → Nat → Nat)) : Bd2KeyExchange := ⟨.offline, ∅, drbg, 0, none⟩

/-- The numbers of the next key pairs; a generator that is missing gives none
that is in range. -/
def draw (m : Bd2KeyExchange) (i : Nat) : Nat → Nat :=
  match m.drbg with
  | none => fun _ => 0
  | some d => d (m.drawn + i)

def key (m : Bd2KeyExchange) : List UInt8 :=
  match m.behavior with
  | none => []
  | some b => b.key.take b.keylen

def init (nodes : Finset UInt16) (m : Bd2KeyExchange) :
    Bd2KeyExchange × List Outgoing × Bool :=
  if m.status ≠ .offline then (m, [], false)
  else if nodes.card > 255 ∨ nodes.card < 2 then (m, [], false)
  else
    let chairId := lowestIdNode nodes
    if m.drbg = none then ({ m with status := .error, nodes := nodes }, [], false)
    else if id = chairId then
      let res := (Bd2Behavior.new g (.chair nodes [])).initChair m.draw
      ({ m with
          status := .running
          nodes := nodes
          drawn := m.drawn + res.drawn
          behavior := if res.ok then some res.state else none }, res.wrote, res.ok)
    else
      ({ m with
          status := .running
          nodes := nodes
          behavior := some (.new g (.node chairId)) }, [], true)

def shutdown (m : Bd2KeyExchange) : Bd2KeyExchange :=
  { m with status := .offline, behavior := none }

/-- After a call of the behaviour. -/
def behave (m : Bd2KeyExchange) (res : Bd2Behavior.Result) : Bd2KeyExchange :=
  { m with behavior := some res.state, drawn := m.drawn + res.drawn }

/-- The reading loop of `update`. -/
def readLoop : List Pkt → Bd2KeyExchange → Act Bd2KeyExchange
  | [], m => ⟨m, [], [], true⟩
  | p :: q, m =>
      match m.behavior with
      | none => readLoop q m
      | some b =>
          let res := b.onRecv id m.draw p
          if res.ok then
            let a := readLoop q (m.behave res)
            { a with wrote := res.wrote ++ a.wrote }
          else ⟨m.behave res, q, res.wrote, false⟩

def update (q : List Pkt) (m : Bd2KeyExchange) : Act Bd2KeyExchange :=
  if m.status ≠ .running then ⟨m, q, [], false⟩
  else
    let a := readLoop id q m
    if a.ok = false then a
    else if (a.state.behavior.map Bd2Behavior.completed).getD false then
      { a with state := { a.state with status := .completed } }
    else a

/-! ## One call -/

section Cases

theorem readLoop_none (q : List Pkt) {m : Bd2KeyExchange} (h : m.behavior = none) :
    readLoop id q m = ⟨m, [], [], true⟩ := by
  induction q with
  | nil => rfl
  | cons p q ih => rw [readLoop, h]; exact ih

theorem readLoop_some (p : Pkt) (q : List Pkt) {m : Bd2KeyExchange} {b : Bd2Behavior}
    (h : m.behavior = some b) :
    readLoop id (p :: q) m =
      if (b.onRecv id m.draw p).ok then
        ⟨(readLoop id q (m.behave (b.onRecv id m.draw p))).state,
          (readLoop id q (m.behave (b.onRecv id m.draw p))).rest,
          (b.onRecv id m.draw p).wrote ++
            (readLoop id q (m.behave (b.onRecv id m.draw p))).wrote,
          (readLoop id q (m.behave (b.onRecv id m.draw p))).ok⟩
      else ⟨m.behave (b.onRecv id m.draw p), q, (b.onRecv id m.draw p).wrote, false⟩ := by
  rw [readLoop, h]

theorem readLoop_fields (q : List Pkt) (m : Bd2KeyExchange) :
    (readLoop id q m).state.status = m.status ∧
    (readLoop id q m).state.nodes = m.nodes ∧ (readLoop id q m).state.drbg = m.drbg ∧
    (readLoop id q m).rest <:+ q ∧
    ((readLoop id q m).ok = true → (readLoop id q m).rest = []) := by
  induction q generalizing m with
  | nil => exact ⟨rfl, rfl, rfl, List.suffix_refl _, fun _ => rfl⟩
  | cons p q ih =>
      cases hb : m.behavior with
      | none =>
          rw [readLoop_none id _ hb]
          exact ⟨rfl, rfl, rfl, List.nil_suffix, fun _ => rfl⟩
      | some b =>
          rw [readLoop_some id p q hb]
          obtain ⟨hstatus, hnodes, hdrbg, hrest, hok⟩ := ih (m.behave (b.onRecv id m.draw p))
          split
          · exact ⟨hstatus, hnodes, hdrbg, hrest.trans (List.suffix_cons p q), hok⟩
          · exact ⟨rfl, rfl, rfl, List.suffix_cons p q, fun hc => by cases hc⟩

/-- What `update` does in a running exchange. -/
theorem update_eq (q : List Pkt) {m : Bd2KeyExchange} (h : m.status = .running) :
    update id q m = { readLoop id q m with
      state := if (readLoop id q m).ok = true ∧
          ((readLoop id q m).state.behavior.map Bd2Behavior.completed).getD false
        then { (readLoop id q m).state with status := .completed }
        else (readLoop id q m).state } := by
  rw [update, if_neg (not_not.mpr h)]
  simp only []
  split
  · next hok => rw [if_neg fun hc => by rw [hc.1] at hok; cases hok]
  · next hok =>
      rw [Bool.not_eq_false] at hok
      split
      · next hdone => rw [if_pos ⟨hok, hdone⟩]
      · next hdone => rw [if_neg fun hc => hdone hc.2]

theorem update_idle (q : List Pkt) {m : Bd2KeyExchange} (h : m.status ≠ .running) :
    update id q m = ⟨m, q, [], false⟩ := by
  rw [update, if_pos h]

theorem update_rest (q : List Pkt) (m : Bd2KeyExchange) :
    (update id q m).rest <:+ q := by
  by_cases h : m.status = .running
  · rw [update_eq id q h]
    exact (readLoop_fields id q m).2.2.2.1
  · rw [update_idle id q h]

theorem update_drains {q : List Pkt} {m : Bd2KeyExchange} (h : (update id q m).ok = true) :
    (update id q m).rest = [] := by
  by_cases hrun : m.status = .running
  · rw [update_eq id q hrun] at h ⊢
    exact (readLoop_fields id q m).2.2.2.2 h
  · rw [update_idle id q hrun] at h
    cases h

theorem update_ne_offline (q : List Pkt) {m : Bd2KeyExchange} (h : m.status ≠ .offline) :
    (update id q m).state.status ≠ .offline := by
  by_cases hrun : m.status = .running
  · rw [update_eq id q hrun]
    simp only []
    split
    · simp
    · rw [(readLoop_fields id q m).1]
      exact h
  · rw [update_idle id q hrun]
    exact h

/-- The commands of the exchange. -/
def own (cmd : UInt8) : Bool :=
  cmd == cmdBd2NodeZi || cmd == cmdBd2ChairZ0 || cmd == cmdBd2ChairXi

theorem own_serve (q : List (UInt16 × List UInt8)) (ctx : Bd2Context) :
    ∀ o ∈ (Bd2Behavior.serve q ctx).2.2.1, own o.cmd := by
  induction q generalizing ctx with
  | nil => exact fun o ho => absurd ho List.not_mem_nil
  | cons k q ih =>
      rw [Bd2Behavior.serve]
      split
      · exact fun o ho => absurd ho List.not_mem_nil
      · split
        · exact fun o ho => absurd ho List.not_mem_nil
        · intro o ho
          rcases List.mem_cons.mp ho with rfl | ho
          · rfl
          · exact ih _ o ho

theorem own_chairRecv (nodes : Finset UInt16)
    (nodesQueue : List (UInt16 × List UInt8)) (p : Pkt) (b : Bd2Behavior) :
    ∀ o ∈ (b.chairRecv id nodes nodesQueue p).wrote, own o.cmd := by
  intro o ho
  unfold Bd2Behavior.chairRecv at ho
  generalize (if p.cmd = cmdBd2NodeZi then Bd1KeyExchange.push (p.src, p.data) nodesQueue
    else nodesQueue) = queue at ho
  simp only [] at ho
  split at ho
  · exact absurd ho List.not_mem_nil
  · split at ho
    · exact absurd ho List.not_mem_nil
    · split at ho
      · exact own_serve queue b.ctx o ho
      · exact absurd ho List.not_mem_nil

theorem own_nodeRecv (chair : UInt16) (draw : Nat → Nat → Nat) (p : Pkt)
    (b : Bd2Behavior) : ∀ o ∈ (b.nodeRecv chair draw p).wrote, own o.cmd := by
  intro o ho
  unfold Bd2Behavior.nodeRecv at ho
  split at ho
  · exact absurd ho List.not_mem_nil
  · split at ho
    · exact absurd ho List.not_mem_nil
    · split at ho
      · split at ho
        · exact absurd ho List.not_mem_nil
        · split at ho
          · exact absurd ho List.not_mem_nil
          · rw [List.mem_singleton.mp ho]
            rfl
      · split at ho
        · split at ho
          · exact absurd ho List.not_mem_nil
          · split at ho
            · exact absurd ho List.not_mem_nil
            · split at ho <;> exact absurd ho List.not_mem_nil
        · exact absurd ho List.not_mem_nil

theorem own_onRecv (draw : Nat → Nat → Nat) (p : Pkt) (b : Bd2Behavior) :
    ∀ o ∈ (b.onRecv id draw p).wrote, own o.cmd := by
  rw [Bd2Behavior.onRecv]
  split
  · exact own_chairRecv id _ _ p b
  · exact own_nodeRecv _ draw p b

theorem own_readLoop (q : List Pkt) (m : Bd2KeyExchange) :
    ∀ o ∈ (readLoop id q m).wrote, own o.cmd := by
  induction q generalizing m with
  | nil => exact fun o ho => absurd ho List.not_mem_nil
  | cons p q ih =>
      cases hb : m.behavior with
      | none =>
          rw [readLoop_none id _ hb]
          exact fun o ho => absurd ho List.not_mem_nil
      | some b =>
          rw [readLoop_some id p q hb]
          split
          · intro o ho
            rcases List.mem_append.mp ho with ho | ho
            · exact own_onRecv id _ p b o ho
            · exact ih _ o ho
          · exact own_onRecv id _ p b

theorem own_update (q : List Pkt) (m : Bd2KeyExchange) :
    ∀ o ∈ (update id q m).wrote, own o.cmd := by
  by_cases h : m.status = .running
  · rw [update_eq id q h]
    exact own_readLoop id q m
  · rw [update_idle id q h]
    exact fun o ho => absurd ho List.not_mem_nil

/-- What `init` can do. -/
inductive Init (nodes : Finset UInt16) (m : Bd2KeyExchange) :
    Bd2KeyExchange × List Outgoing × Bool → Prop
  | refused (h : m.status = .offline → nodes.card > 255 ∨ nodes.card < 2) :
      Init nodes m (m, [], false)
  | noDrbg (hoff : m.status = .offline) (h : m.drbg = none) :
      Init nodes m ({ m with status := .error, nodes := nodes }, [], false)
  | chair {res : Bd2Behavior.Result} (hoff : m.status = .offline) (h : m.drbg ≠ none)
      (hid : id = lowestIdNode nodes)
      (hres : (Bd2Behavior.new g (.chair nodes [])).initChair m.draw = res) :
      Init nodes m ({ m with
        status := .running
        nodes := nodes
        drawn := m.drawn + res.drawn
        behavior := if res.ok then some res.state else none }, res.wrote, res.ok)
  | node (hoff : m.status = .offline) (h : m.drbg ≠ none)
      (hid : id ≠ lowestIdNode nodes) :
      Init nodes m ({ m with
        status := .running
        nodes := nodes
        behavior := some (.new g (.node (lowestIdNode nodes))) }, [], true)

theorem init_cases (nodes : Finset UInt16) (m : Bd2KeyExchange) :
    Init g id nodes m (init g id nodes m) := by
  unfold init
  split
  · next hstatus => exact .refused fun h => absurd h hstatus
  · next hstatus =>
      have hoff := not_not.mp hstatus
      split
      · next hcard => exact .refused fun _ => hcard
      · simp only []
        split
        · next hdrbg => exact .noDrbg hoff hdrbg
        · next hdrbg =>
            split
            · next hid => exact .chair hoff hdrbg hid rfl
            · next hid => exact .node hoff hdrbg hid

theorem own_initChair (draw : Nat → Nat → Nat) (b : Bd2Behavior) :
    ∀ o ∈ (b.initChair draw).wrote, own o.cmd := by
  intro o ho
  unfold Bd2Behavior.initChair at ho
  split at ho
  · exact absurd ho List.not_mem_nil
  · have hz0 : ∀ pub, o ∈ [bufferPacket broadcastAddr cmdBd2ChairZ0 pub] →
        own o.cmd := by
      intro pub ho
      rw [List.mem_singleton.mp ho]
      rfl
    split at ho
    · exact hz0 _ ho
    · split at ho <;> exact hz0 _ ho

theorem own_init (nodes : Finset UInt16) (m : Bd2KeyExchange) :
    ∀ o ∈ (init g id nodes m).2.1, own o.cmd := by
  intro o ho
  have hcase := init_cases g id nodes m
  generalize init g id nodes m = a at hcase ho
  cases hcase with
  | chair _ _ _ hres =>
      rw [← hres] at ho
      exact own_initChair _ _ o ho
  | refused | noDrbg | node => exact absurd ho List.not_mem_nil

end Cases

end Bd2KeyExchange

/-- `BD2KeyExchange` behind the interface, on the device with the given id. -/
def bd2KeyExchange (g : EcpGroup) (id : UInt16) : KeyExchange Bd2KeyExchange where
  status := Bd2KeyExchange.status
  init := Bd2KeyExchange.init g id
  shutdown := Bd2KeyExchange.shutdown
  update := Bd2KeyExchange.update id

end LibSmoke
