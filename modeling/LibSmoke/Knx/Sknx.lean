import LibSmoke.Knx.NodeCounter

/-!
# The handshake

`SKNX` first counts the nodes and then hands their set to a key exchange. Every
`update` begins with the packet layer, so that a node that is offline or done
still takes packets in; what comes after is one turn of the phase it is in
(`turn`). Two more turns lie between a completed exchange and `SKNX_ONLINE`.

The key exchange is an interface here, as it is in the source. What any class
behind it can do to the queue is `KeyExchange.Lawful`: it takes packets off the
front, its own packets are no announcements, and as long as it goes on running
it reads whatever there is.
-/

namespace LibSmoke

inductive KeyStatus
  | offline
  | error
  | running
  | completed
  deriving DecidableEq

/-- `KeyExchange`. -/
structure KeyExchange (κ : Type) where
  status : κ → KeyStatus
  init : Finset UInt16 → κ → κ × List Outgoing × Bool
  shutdown : κ → κ
  update : List Pkt → κ → Act κ

/-- How a key exchange uses the packet layer, as long as it is in a state in
`I`. -/
structure KeyExchange.Lawful {κ : Type} (K : KeyExchange κ) (I : κ → Prop) :
    Prop where
  init : ∀ nodes k, I k → I (K.init nodes k).1
  shutdown : ∀ k, I k → I (K.shutdown k)
  update : ∀ q k, I k → I (K.update q k).state
  reads : ∀ q k, (K.update q k).rest <:+ q
  cmd_init : ∀ nodes k, ∀ p ∈ (K.init nodes k).2.1, p.cmd ≠ thatsMe
  cmd_update : ∀ q k, ∀ p ∈ (K.update q k).wrote, p.cmd ≠ thatsMe
  drains : ∀ q k, I k → (K.update q k).ok = true →
    K.status (K.update q k).state = .running → (K.update q k).rest = []

inductive SknxStatus
  | offline
  | counting
  | handshaking
  | finalizing
  | online
  deriving DecidableEq

/-- `SKNX` without its packet layer. -/
structure Sknx (κ : Type) where
  counter : DummyNodeCounter
  key : κ
  status : SknxStatus

namespace Sknx

variable {κ : Type}

def new (key : κ) : Sknx κ := ⟨.new, key, .offline⟩

/-- `init`, on the device with the given id. -/
def init (id : UInt16) (s : Sknx κ) : Sknx κ × Bool :=
  if s.status ≠ .offline then (s, false)
  else ({ s with counter := s.counter.init id, status := .counting }, true)

variable (K : KeyExchange κ) (N : UInt8)

def updateCounter (q : List Pkt) (s : Sknx κ) : Act (Sknx κ) :=
  match s.counter.status with
  | .offline => ⟨{ s with status := .offline }, q, [], false⟩
  | .counting =>
      let a := s.counter.update N q
      if a.ok then ⟨{ s with counter := a.state }, a.rest, a.wrote, true⟩
      else ⟨{ s with counter := a.state, status := .offline }, a.rest, a.wrote,
        false⟩
  | .completed =>
      let count := s.counter.nodes
      let counter := s.counter.shutdown
      let (key, wrote, ok) := K.init count s.key
      if ok then ⟨⟨counter, key, .handshaking⟩, q, wrote, true⟩
      else ⟨⟨counter, key, .offline⟩, q, wrote, false⟩

def updateHandshaking (q : List Pkt) (s : Sknx κ) : Act (Sknx κ) :=
  match K.status s.key with
  | .offline => ⟨{ s with status := .offline }, q, [], false⟩
  | .error =>
      ⟨{ s with status := .offline, key := K.shutdown s.key }, q, [], false⟩
  | .running =>
      let a := K.update q s.key
      if a.ok then ⟨{ s with key := a.state }, a.rest, a.wrote, true⟩
      else ⟨{ s with key := K.shutdown a.state, status := .offline }, a.rest,
        a.wrote, true⟩
  | .completed => ⟨{ s with status := .finalizing }, q, [], true⟩

/-- What `update` does once the packet layer is up to date. `mustUpdate` is what
the backend answers. -/
def turn (mustUpdate : Bool) (q : List Pkt) (s : Sknx κ) : Act (Sknx κ) :=
  match s.status with
  | .offline => ⟨s, q, [], false⟩
  | .counting => updateCounter K N q s
  | .handshaking => updateHandshaking K q s
  | .finalizing =>
      if mustUpdate then ⟨s, q, [], false⟩
      else ⟨{ s with status := .online }, q, [], false⟩
  | .online => ⟨s, q, [], true⟩

/-- The node is in the loop of the counter. -/
def Counts (s : Sknx κ) : Prop :=
  s.status = .counting ∧ s.counter.status = .counting

/-- What one turn can do to the counter, the queue and the packets written. -/
inductive Turn (q : List Pkt) (s : Sknx κ) (a : Act (Sknx κ)) : Prop
  | count (h : s.Counts) (hstatus : a.state.status = .counting)
      (hkey : a.state.key = s.key)
      (hcounter : a.state.counter = (s.counter.update N q).state)
      (hrest : a.rest = (s.counter.update N q).rest)
      (hwrote : a.wrote = (s.counter.update N q).wrote)
  | begin (h : s.status = .counting) (hdone : s.counter.status = .completed)
      (hstatus : a.state.status ≠ .counting)
      (hcounter : a.state.counter = s.counter.shutdown)
      (hkey : a.state.key = (K.init s.counter.nodes s.key).1)
      (hrest : a.rest = q) (hwrote : a.wrote = (K.init s.counter.nodes s.key).2.1)
  | exchange (h : s.status = .handshaking) (hrun : K.status s.key = .running)
      (hstatus : a.state.status ≠ .counting)
      (hcounter : a.state.counter = s.counter)
      (hrest : a.rest = (K.update q s.key).rest)
      (hwrote : a.wrote = (K.update q s.key).wrote)
      (hkey : a.state.status = .handshaking →
        (K.update q s.key).ok = true ∧ a.state.key = (K.update q s.key).state)
  | idle (h : ¬ s.Counts) (hstatus : a.state.status ≠ .counting)
      (hquiet : a.state.status ≠ .handshaking)
      (hcounter : a.state.counter = s.counter)
      (hrest : a.rest = q) (hwrote : a.wrote = [])

theorem turn_cases (mustUpdate : Bool) (q : List Pkt) (s : Sknx κ) :
    Turn K N q s (turn K N mustUpdate q s) := by
  unfold turn
  split
  · next h => exact .idle (by simp [Counts, h]) (by simp [h]) (by simp [h]) rfl rfl rfl
  · next h =>
      unfold updateCounter
      split
      · next hc => exact .idle (by simp [Counts, hc]) (by simp) (by simp) rfl rfl rfl
      · next hc =>
          have hok := (DummyNodeCounter.update_counting (N := N) (q := q) hc).2.2.2
          simp only [hok, if_true]
          exact .count ⟨h, hc⟩ h rfl rfl rfl rfl
      · next hc =>
          simp only []
          split
          · exact .begin h hc (by simp) rfl rfl rfl rfl
          · exact .begin h hc (by simp) rfl rfl rfl rfl
  · next h =>
      have hnot : ¬ s.Counts := by simp [Counts, h]
      unfold updateHandshaking
      split
      · exact .idle hnot (by simp) (by simp) rfl rfl rfl
      · exact .idle hnot (by simp) (by simp) rfl rfl rfl
      · next hk =>
          simp only []
          split
          · next hok =>
              exact .exchange h hk (by simp [h]) rfl rfl rfl fun _ => ⟨hok, rfl⟩
          · exact .exchange h hk (by simp) rfl rfl rfl (by simp)
      · exact .idle hnot (by simp) (by simp) rfl rfl rfl
  · next h =>
      have hnot : ¬ s.Counts := by simp [Counts, h]
      split
      · exact .idle hnot (by simp [h]) (by simp [h]) rfl rfl rfl
      · exact .idle hnot (by simp) (by simp) rfl rfl rfl
  · next h => exact .idle (by simp [Counts, h]) (by simp [h]) (by simp [h]) rfl rfl rfl

variable {K N}

/-- No turn puts a packet back or takes one from behind. -/
theorem turn_suffix {I : κ → Prop} (hK : K.Lawful I) (mustUpdate : Bool) (q : List Pkt)
    (s : Sknx κ) : (turn K N mustUpdate q s).rest <:+ q := by
  cases turn_cases K N mustUpdate q s with
  | count h _ _ _ hrest =>
      rw [hrest, (DummyNodeCounter.update_counting h.2).1]
      exact DummyNodeCounter.collect_suffix ..
  | begin _ _ _ _ _ hrest => rw [hrest]
  | exchange _ _ _ _ hrest => rw [hrest]; exact hK.reads q s.key
  | idle _ _ _ _ hrest => rw [hrest]

/-- A turn that ends behind the exchange writes nothing. It began there, or found
the exchange completed. -/
theorem turn_done {mustUpdate : Bool} {q : List Pkt} {s : Sknx κ}
    (h : (turn K N mustUpdate q s).state.status = .finalizing ∨
      (turn K N mustUpdate q s).state.status = .online) :
    (turn K N mustUpdate q s).wrote = [] ∧
    (turn K N mustUpdate q s).state.key = s.key ∧
    (K.status s.key = .completed ∨ s.status = .finalizing ∨ s.status = .online) := by
  unfold turn at h ⊢
  cases hs : s.status with
  | offline =>
      simp only [hs] at h
      rcases h with h | h <;> cases h
  | counting =>
      simp only [hs] at h
      unfold updateCounter at h
      split at h
      · rcases h with h | h <;> cases h
      · simp only [] at h
        split at h
        · rcases h with h | h <;> cases hs.symm.trans h
        · rcases h with h | h <;> cases h
      · simp only [] at h
        split at h <;> rcases h with h | h <;> cases h
  | handshaking =>
      simp only [hs] at h ⊢
      unfold updateHandshaking at h ⊢
      cases hk : K.status s.key with
      | offline =>
          simp only [hk] at h
          rcases h with h | h <;> cases h
      | error =>
          simp only [hk] at h
          rcases h with h | h <;> cases h
      | running =>
          simp only [hk] at h
          split at h
          · rcases h with h | h <;> cases hs.symm.trans h
          · rcases h with h | h <;> cases h
      | completed => exact ⟨rfl, rfl, .inl rfl⟩
  | finalizing =>
      simp only []
      split <;> exact ⟨rfl, rfl, .inr (.inl trivial)⟩
  | online => exact ⟨rfl, rfl, .inr (.inr rfl)⟩

/-- The turn that ends online writes nothing. -/
theorem wrote_of_online {mustUpdate : Bool} {q : List Pkt} {s : Sknx κ}
    (h : (turn K N mustUpdate q s).state.status = .online) :
    (turn K N mustUpdate q s).wrote = [] :=
  (turn_done (.inr h)).1

theorem turn_key {I : κ → Prop} (hK : K.Lawful I) (mustUpdate : Bool)
    (q : List Pkt) {s : Sknx κ} (h : I s.key) :
    I (turn K N mustUpdate q s).state.key := by
  unfold turn
  split
  · exact h
  · unfold updateCounter
    split
    · exact h
    · simp only []
      split <;> exact h
    · simp only []
      split <;> exact hK.init _ _ h
  · unfold updateHandshaking
    split
    · exact h
    · exact hK.shutdown _ h
    · simp only []
      split
      · exact hK.update q _ h
      · exact hK.shutdown _ (hK.update q _ h)
    · exact h
  · split <;> exact h
  · exact h

end Sknx

end LibSmoke
