import LibSmoke.Knx.RingBuffer
import LibSmoke.Knx.Sknx
import LibSmoke.Sban.Mka

/-!
# The key exchange over packets

`MKAKeyExchange` carries the rounds of `mka.c` over the packet layer. A packet
holds the step it belongs to and the point. A point of the current step goes to
the next free place of the array the accumulation reads, one for each sender; a
point of the following step is put aside until its step has come. When all
points of a step are there the step is accumulated, the next broadcast goes out,
and what was put aside is gone through.

It is gone through with the packet that completed the step still at hand, and it
is that packet's point which is copied for every sender that was put aside
(`useAside`).
-/

namespace LibSmoke

/-- `MKA_BUFSIZE`. -/
def mkaBufsize : Nat := 66

/-- `CMD_MKA_PACKET`. -/
def cmdMkaPacket : UInt8 := 0x27

/-- `mka_step_t`. -/
structure MkaStep where
  stepId : UInt8
  key : List UInt8
  deriving DecidableEq

/-- The size of a step in a packet. -/
def mkaStepSize : Nat := mkaBufsize + 1

def MkaStep.ofData (data : List UInt8) : MkaStep :=
  ⟨data.getD 0 0, data.drop 1⟩

/-- `drbg` is the random generator, as the numbers a draw makes of its bytes;
it can be missing. -/
structure MkaKeyExchange where
  status : KeyStatus
  nodes : Finset UInt16
  drbg : Option (Nat → Nat)
  currentStep : UInt8
  keyBuffer : List UInt8
  keylen : Nat
  nextStepValues : List (UInt16 × MkaStep)
  remoteKeys : List UInt8
  remoteUsers : Finset UInt16
  ctx : MkaContext

namespace MkaKeyExchange

variable (g : EcpGroup)

/-- The constructor; what it does not write is zero here. -/
def new (drbg : Option (Nat → Nat)) : MkaKeyExchange :=
  ⟨.offline, ∅, drbg, 0, List.replicate mkaBufsize 0, 0, [], [], ∅, mkaInit g⟩

def key (m : MkaKeyExchange) : List UInt8 := m.keyBuffer.take m.keylen

/-- The packet of a step. A point that fills less than the buffer would be
followed by whatever was on the stack. -/
def stepPacket (step : UInt8) (point : List UInt8) : Outgoing :=
  ⟨broadcastAddr, cmdMkaPacket,
    step :: (point ++ List.replicate (mkaBufsize - point.length) 0).take
      mkaBufsize, by
    simp only [List.length_cons, List.length_take, mkaBufsize]
    omega⟩

def cryptoBroadcast (m : MkaKeyExchange) :
    MkaKeyExchange × List Outgoing × Bool :=
  match mkaMakeBroadval m.ctx mkaBufsize with
  | .error _ => ({ m with status := .error }, [], false)
  | .ok (ctx, point) =>
      ({ m with ctx := ctx }, [stepPacket m.currentStep point], true)

def init (nodes : Finset UInt16) (m : MkaKeyExchange) :
    MkaKeyExchange × List Outgoing × Bool :=
  if m.status ≠ .offline then (m, [], false)
  else if nodes.card > 255 ∨ nodes.card < 2 then (m, [], false)
  else
    let m := { m with status := .running, nodes := nodes }
    match m.drbg with
    | none => ({ m with status := .error }, [], false)
    | some draw =>
        match mkaSetPart (mkaInit g) nodes.card draw with
        | .error _ => ({ m with status := .error }, [], false)
        | .ok ctx =>
            let size := mkaBufsize * (nodes.card - 1)
            cryptoBroadcast { m with
              ctx := ctx
              remoteKeys := m.remoteKeys.take size ++
                List.replicate (size - m.remoteKeys.length) 0
              remoteUsers := ∅
              currentStep := 0 }

def shutdown (m : MkaKeyExchange) : MkaKeyExchange :=
  { m with
    status := .offline
    keyBuffer := List.replicate mkaBufsize 0 }

/-- A point for the current step, unless its sender has one there already. -/
def insertKey (src : UInt16) (point : List UInt8) (m : MkaKeyExchange) :
    MkaKeyExchange :=
  if src ∈ m.remoteUsers then m
  else
    { m with
      remoteKeys := memcpy m.remoteKeys (m.remoteUsers.card * mkaBufsize) point
      remoteUsers := insert src m.remoteUsers }

/-- The loop over what was put aside. `mka` is the packet that completed the
step before. The source pops an entry first and then reads it through a
reference. That this still shows it as it was is an assumption about the library,
which C++ does not make good. -/
def useAside (mka : MkaStep) (m : MkaKeyExchange) : MkaKeyExchange :=
  m.nextStepValues.foldl
    (fun m mks =>
      if mks.2.stepId ≠ m.currentStep then m else insertKey mks.1 mka.key m)
    { m with nextStepValues := [] }

/-- The step a packet is for decides what becomes of it. -/
def place (src : UInt16) (mka : MkaStep) (m : MkaKeyExchange) :
    MkaKeyExchange :=
  if mka.stepId = m.currentStep then insertKey src mka.key m
  else if mka.stepId.toNat = m.currentStep.toNat + 1 then
    { m with nextStepValues := m.nextStepValues ++ [(src, mka)] }
  else m

/-- A step whose points are all there. -/
def finishStep (mka : MkaStep) (m : MkaKeyExchange) :
    MkaKeyExchange × List Outgoing × Bool :=
  match mkaAccBroadval m.ctx m.remoteKeys with
  | .error _ => ({ m with status := .error }, [], false)
  | .ok ctx =>
      let m := { m with
        ctx := ctx
        remoteUsers := ∅
        currentStep := m.currentStep + 1 }
      if m.currentStep.toNat = m.nodes.card - 1 then (m, [], true)
      else
        let (m, wrote, ok) := cryptoBroadcast m
        if ok then (useAside mka m, wrote, true) else (m, wrote, false)

def cryptoUpdate (packet : Pkt) (m : MkaKeyExchange) :
    MkaKeyExchange × List Outgoing × Bool :=
  if packet.data.length ≠ mkaStepSize then (m, [], true)
  else
    let mka := MkaStep.ofData packet.data
    let m := place packet.src mka m
    if m.remoteUsers.card = m.nodes.card - 1 then finishStep mka m
    else (m, [], true)

/-- The reading loop of `update`. -/
def readLoop : List Pkt → MkaKeyExchange → Act MkaKeyExchange
  | [], m => ⟨m, [], [], true⟩
  | p :: q, m =>
      if m.currentStep.toNat < m.nodes.card - 1 then
        if p.cmd ≠ cmdMkaPacket then readLoop q m
        else if p.src ∉ m.nodes then readLoop q m
        else
          let (m, wrote, ok) := cryptoUpdate p m
          if ok then
            let a := readLoop q m
            { a with wrote := wrote ++ a.wrote }
          else ⟨m, q, wrote, false⟩
      else ⟨m, p :: q, [], true⟩

def update (q : List Pkt) (m : MkaKeyExchange) : Act MkaKeyExchange :=
  if m.status ≠ .running then ⟨m, q, [], false⟩
  else
    let a := readLoop q m
    if a.ok = false then a
    else if a.state.currentStep.toNat = a.state.nodes.card - 1 then
      match mkaComputeKey a.state.ctx mkaBufsize with
      | .error _ => { a with state := { a.state with status := .error }, ok := false }
      | .ok (ctx, key) =>
          { a with state := { a.state with
              ctx := ctx
              keyBuffer := memcpy a.state.keyBuffer 0 key
              keylen := key.length
              status := .completed } }
    else a

/-! ## One packet -/

@[simp] theorem insertKey_fields (src : UInt16) (point : List UInt8)
    (m : MkaKeyExchange) :
    (insertKey src point m).status = m.status ∧
    (insertKey src point m).nodes = m.nodes ∧
    (insertKey src point m).currentStep = m.currentStep := by
  unfold insertKey
  split <;> exact ⟨rfl, rfl, rfl⟩

theorem insertKey_users (src : UInt16) (point : List UInt8) (m : MkaKeyExchange) :
    (insertKey src point m).remoteUsers = insert src m.remoteUsers := by
  unfold insertKey
  split
  · next h => exact (Finset.insert_eq_of_mem h).symm
  · rfl

theorem insertKey_kept (src : UInt16) (point : List UInt8) (m : MkaKeyExchange) :
    (insertKey src point m).ctx = m.ctx ∧
    (insertKey src point m).nextStepValues = m.nextStepValues := by
  unfold insertKey
  split <;> exact ⟨rfl, rfl⟩

/-- What holds once nothing is aside, and survives each insertion, holds after
the loop. -/
theorem useAside_rule {P : MkaKeyExchange → Prop} (mka : MkaStep)
    {m : MkaKeyExchange} (h0 : P { m with nextStepValues := [] })
    (hins : ∀ mks ∈ m.nextStepValues, ∀ m', P m' →
      mks.2.stepId = m'.currentStep → P (insertKey mks.1 mka.key m')) :
    P (useAside mka m) := by
  unfold useAside
  generalize ({ m with nextStepValues := [] } : MkaKeyExchange) = m₀ at h0
  revert hins
  generalize m.nextStepValues = aside
  intro hins
  induction aside generalizing m₀ with
  | nil => exact h0
  | cons mks aside ih =>
      rw [List.foldl_cons]
      refine ih _ ?_ fun mks' h => hins mks' (List.mem_cons_of_mem mks h)
      split
      · exact h0
      · next h => exact hins mks List.mem_cons_self m₀ h0 (not_not.mp h)

theorem useAside_nil (mka : MkaStep) {m : MkaKeyExchange}
    (h : m.nextStepValues = []) : useAside mka m = m := by
  rw [useAside, h, List.foldl_nil, ← h]

@[simp] theorem useAside_fields (mka : MkaStep) (m : MkaKeyExchange) :
    (useAside mka m).status = m.status ∧
    (useAside mka m).nodes = m.nodes ∧
    (useAside mka m).currentStep = m.currentStep := by
  refine useAside_rule (P := fun m' => m'.status = m.status ∧
    m'.nodes = m.nodes ∧ m'.currentStep = m.currentStep) mka ⟨rfl, rfl, rfl⟩ ?_
  intro mks _ m' h _
  simpa using h

theorem useAside_empties (mka : MkaStep) (m : MkaKeyExchange) :
    (useAside mka m).nextStepValues = [] :=
  useAside_rule (P := fun m' => m'.nextStepValues = []) mka rfl fun mks _ m' h _ =>
    (insertKey_kept mks.1 mka.key m').2.trans h

@[simp] theorem place_fields (src : UInt16) (mka : MkaStep)
    (m : MkaKeyExchange) :
    (place src mka m).status = m.status ∧
    (place src mka m).nodes = m.nodes ∧
    (place src mka m).currentStep = m.currentStep := by
  unfold place
  split
  · exact insertKey_fields ..
  · split <;> exact ⟨rfl, rfl, rfl⟩

/-- What one packet of the exchange can do. -/
inductive Update (p : Pkt) (m : MkaKeyExchange) :
    MkaKeyExchange × List Outgoing × Bool → Prop
  | skip (h : p.data.length ≠ mkaStepSize) : Update p m (m, [], true)
  | wait {m' : MkaKeyExchange} (hsize : p.data.length = mkaStepSize)
      (hm' : place p.src (.ofData p.data) m = m')
      (h : m'.remoteUsers.card ≠ m'.nodes.card - 1) : Update p m (m', [], true)
  | fail {m' : MkaKeyExchange} (hstatus : m'.status = .error)
      (hnodes : m'.nodes = m.nodes) : Update p m (m', [], false)
  | last {m' : MkaKeyExchange} {ctx : MkaContext}
      (hsize : p.data.length = mkaStepSize)
      (hm' : place p.src (.ofData p.data) m = m')
      (h : m'.remoteUsers.card = m'.nodes.card - 1)
      (hacc : mkaAccBroadval m'.ctx m'.remoteKeys = .ok ctx)
      (hstep : (m'.currentStep + 1).toNat = m'.nodes.card - 1) :
      Update p m ({ m' with
        ctx := ctx, remoteUsers := ∅, currentStep := m'.currentStep + 1 },
        [], true)
  | next {m' : MkaKeyExchange} {ctx ctx' : MkaContext} {point : List UInt8}
      (hsize : p.data.length = mkaStepSize)
      (hm' : place p.src (.ofData p.data) m = m')
      (h : m'.remoteUsers.card = m'.nodes.card - 1)
      (hacc : mkaAccBroadval m'.ctx m'.remoteKeys = .ok ctx)
      (hstep : (m'.currentStep + 1).toNat ≠ m'.nodes.card - 1)
      (hmake : mkaMakeBroadval ctx mkaBufsize = .ok (ctx', point)) :
      Update p m (useAside (.ofData p.data) { m' with
        ctx := ctx', remoteUsers := ∅, currentStep := m'.currentStep + 1 },
        [stepPacket (m'.currentStep + 1) point], true)

theorem cryptoUpdate_cases (p : Pkt) (m : MkaKeyExchange) :
    Update p m (cryptoUpdate p m) := by
  unfold cryptoUpdate
  split
  · next h => exact .skip h
  · next h =>
      have hsize := not_not.mp h
      simp only []
      split
      · next hfull =>
          have hnodes := (place_fields p.src (.ofData p.data) m).2.1
          unfold finishStep
          split
          · exact .fail rfl hnodes
          · next ctx hacc =>
              simp only []
              split
              · next hstep => exact .last hsize rfl hfull hacc hstep
              · next hstep =>
                  unfold cryptoBroadcast
                  simp only []
                  cases hmake : mkaMakeBroadval ctx mkaBufsize with
                  | error e => exact .fail rfl hnodes
                  | ok res => exact .next hsize rfl hfull hacc hstep hmake
      · next hfull => exact .wait hsize rfl hfull

theorem Update.nodes_eq {p : Pkt} {m : MkaKeyExchange}
    {r : MkaKeyExchange × List Outgoing × Bool} (h : Update p m r) :
    r.1.nodes = m.nodes := by
  cases h with
  | skip => rfl
  | wait _ hm' => rw [← hm']; exact (place_fields ..).2.1
  | fail _ hnodes => exact hnodes
  | last _ hm' => rw [← hm']; exact (place_fields ..).2.1
  | next _ hm' =>
      rw [← hm']
      exact (useAside_fields ..).2.1.trans (place_fields ..).2.1

theorem Update.status_eq {p : Pkt} {m : MkaKeyExchange}
    {r : MkaKeyExchange × List Outgoing × Bool} (h : Update p m r) :
    r.1.status = if r.2.2 then m.status else .error := by
  cases h with
  | skip => rfl
  | wait _ hm' => rw [← hm']; exact (place_fields ..).1
  | fail hstatus => exact hstatus
  | last _ hm' => rw [← hm']; exact (place_fields ..).1
  | next _ hm' =>
      rw [← hm']
      exact (useAside_fields ..).1.trans (place_fields ..).1

/-! ## The reading loop -/

theorem readLoop_suffix (q : List Pkt) (m : MkaKeyExchange) :
    (readLoop q m).rest <:+ q := by
  induction q generalizing m with
  | nil => exact List.suffix_refl _
  | cons p q ih =>
      rw [readLoop]
      split
      · split
        · exact (ih m).trans (List.suffix_cons p q)
        · split
          · exact (ih m).trans (List.suffix_cons p q)
          · simp only []
            split
            · exact (ih _).trans (List.suffix_cons p q)
            · exact List.suffix_cons p q
      · exact List.suffix_refl _

/-- The rule of the loop. `I` speaks of the packets taken, the state and the
packets written, and `J` of the same when a packet made the exchange fail; `P` is
known of every packet in the queue and of what was taken before it. -/
theorem readLoop_rule {I J : List Pkt → MkaKeyExchange → List Outgoing → Prop}
    {P : List Pkt → Pkt → Prop}
    (hskip : ∀ t m w p, I t m w → p.cmd ≠ cmdMkaPacket ∨ p.src ∉ m.nodes →
      I (t ++ [p]) m w)
    (hread : ∀ t m w p, I t m w → P t p → p.cmd = cmdMkaPacket →
      p.src ∈ m.nodes → m.currentStep.toNat < m.nodes.card - 1 →
      ∀ m' w', Update p m (m', w', true) → I (t ++ [p]) m' (w ++ w'))
    (hfail : ∀ t m w p, I t m w → ∀ m', m'.status = .error →
      m'.nodes = m.nodes → J (t ++ [p]) m' w)
    {q t : List Pkt} {m : MkaKeyExchange} {w : List Outgoing}
    (hP : ∀ pre p post, q = pre ++ p :: post → P (t ++ pre) p)
    (h : I t m w) :
    (if (readLoop q m).ok then I else J) (t ++ (readLoop q m).taken q)
      (readLoop q m).state (w ++ (readLoop q m).wrote) := by
  induction q generalizing t m w with
  | nil =>
      rw [readLoop, Act.taken, List.take_nil, List.append_nil, List.append_nil]
      exact h
  | cons p q ih =>
      have hP' : ∀ pre p' post, q = pre ++ p' :: post →
          P ((t ++ [p]) ++ pre) p' := by
        intro pre p' post hq
        rw [List.append_assoc]
        exact hP (p :: pre) p' post (by rw [hq, List.cons_append])
      have hstep : ∀ {m' w'}, I (t ++ [p]) m' w' →
          (if (readLoop q m').ok then I else J)
            (t ++ (readLoop q m').taken (p :: q)) (readLoop q m').state
            (w' ++ (readLoop q m').wrote) := by
        intro m' w' h'
        have := ih hP' h'
        rwa [List.append_assoc, List.singleton_append,
          ← Act.taken_cons (readLoop_suffix q m')] at this
      rw [readLoop]
      split
      · next hlt =>
          split
          · next hcmd => exact hstep (hskip t m w p h (.inl hcmd))
          · next hcmd =>
              split
              · next hsrc => exact hstep (hskip t m w p h (.inr hsrc))
              · next hsrc =>
                  have hP0 := hP [] p q rfl
                  rw [List.append_nil] at hP0
                  have hcase := cryptoUpdate_cases p m
                  generalize cryptoUpdate p m = r at hcase ⊢
                  obtain ⟨m', w', ok⟩ := r
                  simp only []
                  cases ok with
                  | true =>
                      have hone := hstep (hread t m w p h hP0 (not_not.mp hcmd)
                        (not_not.mp hsrc) hlt m' w' hcase)
                      rw [List.append_assoc] at hone
                      exact hone
                  | false =>
                      cases hcase with
                      | fail hstatus hnodes =>
                          rw [if_neg (by simp), if_neg (by simp),
                            Act.taken_cons (List.suffix_refl q),
                            Act.taken_of_rest rfl, List.append_nil]
                          exact hfail t m w p h m' hstatus hnodes
      · rw [if_pos rfl, Act.taken_of_rest rfl, List.append_nil, List.append_nil]
        exact h

/-- The loop ends with nothing left to read, or with all steps done. -/
theorem readLoop_rest {q : List Pkt} {m : MkaKeyExchange}
    (hok : (readLoop q m).ok = true) :
    (readLoop q m).rest = [] ∨ (readLoop q m).state.nodes.card - 1 ≤
      (readLoop q m).state.currentStep.toNat := by
  induction q generalizing m with
  | nil => exact .inl rfl
  | cons p q ih =>
      rw [readLoop] at hok ⊢
      split at hok
      · next hlt =>
          rw [if_pos hlt]
          split at hok
          · next hcmd =>
              rw [if_pos hcmd]
              exact ih hok
          · next hcmd =>
              rw [if_neg hcmd]
              split at hok
              · next hsrc =>
                  rw [if_pos hsrc]
                  exact ih hok
              · next hsrc =>
                  rw [if_neg hsrc]
                  simp only [] at hok ⊢
                  split at hok
                  · next hone =>
                      rw [if_pos hone]
                      exact ih hok
                  · cases hok
      · next hlt =>
          rw [if_neg hlt]
          exact .inr (Nat.le_of_not_lt hlt)

theorem readLoop_status (q : List Pkt) (m : MkaKeyExchange) :
    (readLoop q m).state.status =
      if (readLoop q m).ok then m.status else .error := by
  induction q generalizing m with
  | nil => rfl
  | cons p q ih =>
      rw [readLoop]
      split
      · split
        · exact ih m
        · split
          · exact ih m
          · have hone := (cryptoUpdate_cases p m).status_eq
            simp only []
            split
            · next hok =>
                rw [hok, if_pos rfl] at hone
                rw [← hone]
                exact ih _
            · next hok => rw [hone, if_neg hok]; rfl
      · rfl

/-! ## A whole call -/

/-- What a call of `update` on a running exchange comes to. -/
inductive Updated (m : MkaKeyExchange) (a : Act MkaKeyExchange) :
    MkaKeyExchange → Bool → Prop
  | failed {m' : MkaKeyExchange} {ok : Bool} (h : m'.status = .error)
      (hnodes : m'.nodes = a.state.nodes) : Updated m a m' ok
  | completed {ctx : MkaContext} {key : List UInt8} (hok : a.ok = true)
      (hstep : a.state.currentStep.toNat = a.state.nodes.card - 1)
      (hkey : mkaComputeKey a.state.ctx mkaBufsize = .ok (ctx, key)) :
      Updated m a { a.state with
        ctx := ctx, keyBuffer := memcpy a.state.keyBuffer 0 key
        keylen := key.length, status := .completed } true
  | running (hok : a.ok = true) (hstatus : a.state.status = .running)
      (hstep : a.state.currentStep.toNat ≠ a.state.nodes.card - 1) :
      Updated m a a.state true

theorem update_cases (q : List Pkt) {m : MkaKeyExchange}
    (h : m.status = .running) :
    (update q m).rest = (readLoop q m).rest ∧
    (update q m).wrote = (readLoop q m).wrote ∧
    Updated m (readLoop q m) (update q m).state (update q m).ok := by
  have hstatus := readLoop_status q m
  rw [update, if_neg (by simp [h])]
  simp only []
  split
  · next hok =>
      rw [hok, if_neg (by simp)] at hstatus
      exact ⟨rfl, rfl, .failed hstatus rfl⟩
  · next hok =>
      rw [Bool.not_eq_false] at hok
      rw [hok, if_pos rfl, h] at hstatus
      split
      · next hstep =>
          split
          · exact ⟨rfl, rfl, .failed rfl rfl⟩
          · next hkey => 
              have := Updated.completed (m := m) hok hstep hkey
              refine ⟨rfl, rfl, ?_⟩
              simp only [hok]
              exact this
      · next hstep =>
          refine ⟨rfl, rfl, ?_⟩
          rw [hok]
          exact .running hok hstatus hstep

theorem update_idle (q : List Pkt) {m : MkaKeyExchange}
    (h : m.status ≠ .running) : update q m = ⟨m, q, [], false⟩ := by
  rw [update, if_pos h]

/-! ## The bounds of a running exchange -/

/-- A running exchange has between two nodes and as many as a byte counts, and
its step is not past the last. -/
def Bounded (m : MkaKeyExchange) : Prop :=
  m.status = .running → 2 ≤ m.nodes.card ∧ m.nodes.card ≤ 255 ∧
    m.currentStep.toNat ≤ m.nodes.card - 1

theorem succ_toNat {x : UInt8} {n : Nat} (hx : x.toNat < n - 1) (hn : n ≤ 255) :
    (x + 1).toNat = x.toNat + 1 := by
  rw [UInt8.toNat_add]
  exact Nat.mod_eq_of_lt (by show x.toNat + 1 < 256; omega)

theorem Update.bounded {p : Pkt} {m : MkaKeyExchange}
    {r : MkaKeyExchange × List Outgoing × Bool} (h : Update p m r)
    (hlt : m.currentStep.toNat < m.nodes.card - 1) (hcard : m.nodes.card ≤ 255)
    (hstatus : r.1.status = .running) :
    r.1.currentStep.toNat ≤ r.1.nodes.card - 1 := by
  have hsucc := succ_toNat hlt hcard
  cases h with
  | skip => exact Nat.le_of_lt hlt
  | wait _ hm' =>
      obtain ⟨-, hnodes, hstep⟩ := place_fields p.src (.ofData p.data) m
      rw [← hm', hnodes, hstep]
      omega
  | fail herr => rw [herr] at hstatus; cases hstatus
  | last _ _ _ _ hstep => exact Nat.le_of_eq hstep
  | next _ hm' =>
      obtain ⟨-, hnodes, hstep⟩ := place_fields p.src (.ofData p.data) m
      subst hm'
      rw [(useAside_fields ..).2.1, (useAside_fields ..).2.2]
      simp only [hnodes, hstep, hsucc]
      omega

theorem readLoop_bounded (q : List Pkt) {m : MkaKeyExchange}
    (h : 2 ≤ m.nodes.card ∧ m.nodes.card ≤ 255 ∧
      m.currentStep.toNat ≤ m.nodes.card - 1) :
    (readLoop q m).state.nodes = m.nodes ∧ Bounded (readLoop q m).state := by
  let I : List Pkt → MkaKeyExchange → List Outgoing → Prop := fun _ m' _ =>
    m'.nodes = m.nodes ∧ (m'.status = .running →
      m'.currentStep.toNat ≤ m.nodes.card - 1)
  have hloop := readLoop_rule (I := I) (J := I) (P := fun _ _ => True)
    (q := q) (t := []) (m := m) (w := []) (fun t m' w p h' _ => h')
    (by
      intro t m' w p h' _ _ _ hlt m'' w' hr
      refine ⟨hr.nodes_eq.trans h'.1, fun hrun => ?_⟩
      have := hr.bounded hlt (h'.1 ▸ h.2.1) hrun
      rwa [hr.nodes_eq, h'.1] at this)
    (by
      intro t m' w p h' m'' herr hnodes
      refine ⟨hnodes.trans h'.1, fun hrun => ?_⟩
      rw [herr] at hrun
      cases hrun)
    (fun _ _ _ _ => trivial) ⟨rfl, fun _ => h.2.2⟩
  rw [ite_self] at hloop
  refine ⟨hloop.1, fun hrun => ?_⟩
  rw [hloop.1]
  exact ⟨h.1, h.2.1, hloop.2 hrun⟩

theorem update_bounded (q : List Pkt) {m : MkaKeyExchange} (h : Bounded m) :
    Bounded (update q m).state := by
  by_cases hrun : m.status = .running
  · have hloop := readLoop_bounded q (h hrun)
    obtain ⟨-, -, hcase⟩ := update_cases q hrun
    generalize (update q m).state = m', (update q m).ok = ok at hcase ⊢
    intro hafter
    cases hcase with
    | failed herr => rw [herr] at hafter; cases hafter
    | completed => cases hafter
    | running _ hstatus => exact hloop.2 hstatus
  · rw [update_idle q hrun]
    exact h

theorem init_cases (nodes : Finset UInt16) (m : MkaKeyExchange) :
    init g nodes m = (m, [], false) ∨
    (init g nodes m).1.status = .error ∧ (init g nodes m).2.1 = [] ∨
    ∃ draw ctx ctx' point, m.status = .offline ∧ 2 ≤ nodes.card ∧
      nodes.card ≤ 255 ∧ m.drbg = some draw ∧
      mkaSetPart (mkaInit g) nodes.card draw = .ok ctx ∧
      mkaMakeBroadval ctx mkaBufsize = .ok (ctx', point) ∧
      init g nodes m = ({ m with
        status := .running
        nodes := nodes
        ctx := ctx'
        remoteKeys := m.remoteKeys.take (mkaBufsize * (nodes.card - 1)) ++
          List.replicate
            (mkaBufsize * (nodes.card - 1) - m.remoteKeys.length) 0
        remoteUsers := ∅
        currentStep := 0 }, [stepPacket 0 point], true) := by
  unfold init
  split
  · exact .inl rfl
  · next hstatus =>
      split
      · exact .inl rfl
      · next hcard =>
          refine .inr ?_
          simp only []
          cases hdrbg : m.drbg with
          | none => exact .inl ⟨rfl, rfl⟩
          | some draw =>
              simp only []
              cases hset : mkaSetPart (mkaInit g) nodes.card draw with
              | error e => exact .inl ⟨rfl, rfl⟩
              | ok ctx =>
                  simp only [cryptoBroadcast]
                  cases hmake : mkaMakeBroadval ctx mkaBufsize with
                  | error e => exact .inl ⟨rfl, rfl⟩
                  | ok res =>
                      exact .inr ⟨draw, ctx, res.1, res.2,
                        not_not.mp hstatus, by omega, by omega, rfl, hset,
                        hmake, rfl⟩

theorem init_bounded (nodes : Finset UInt16) {m : MkaKeyExchange}
    (h : Bounded m) : Bounded (init g nodes m).1 := by
  rcases init_cases g nodes m with h' | ⟨h', -⟩ | ⟨_, _, _, _, -, hlo, hhi, -, -, -, h'⟩
  · rw [h']
    exact h
  · intro hrun
    rw [h'] at hrun
    cases hrun
  · rw [h']
    exact fun _ => ⟨hlo, hhi, Nat.zero_le _⟩

/-- Everything the exchange writes is a packet of the exchange. -/
theorem cmd_readLoop (q : List Pkt) (m : MkaKeyExchange) :
    ∀ p ∈ (readLoop q m).wrote, p.cmd = cmdMkaPacket := by
  let I : List Pkt → MkaKeyExchange → List Outgoing → Prop := fun _ _ w =>
    ∀ p ∈ w, p.cmd = cmdMkaPacket
  have hloop := readLoop_rule (I := I) (J := I) (P := fun _ _ => True)
    (q := q) (t := []) (m := m) (w := []) (fun t m' w p h' _ => h')
    (by
      intro t m' w p h' _ _ _ _ m'' w' hr p' hp'
      rcases List.mem_append.mp hp' with hp' | hp'
      · exact h' p' hp'
      · cases hr with
        | next => rw [List.mem_singleton.mp hp']; rfl
        | _ => cases hp')
    (fun t m' w p h' m'' _ _ => h') (fun _ _ _ _ => trivial)
    (fun _ h' => by cases h')
  rw [ite_self] at hloop
  exact hloop

end MkaKeyExchange

/-- `MKAKeyExchange` behind the interface. -/
def mkaKeyExchange (g : EcpGroup) : KeyExchange MkaKeyExchange where
  status := MkaKeyExchange.status
  init := MkaKeyExchange.init g
  shutdown := MkaKeyExchange.shutdown
  update := MkaKeyExchange.update

open MkaKeyExchange in
theorem mkaKeyExchange_lawful (g : EcpGroup) :
    (mkaKeyExchange g).Lawful Bounded where
  init := fun nodes m h => init_bounded g nodes h
  shutdown := fun m h hrun => by cases hrun
  update := fun q m h => update_bounded q h
  reads := by
    intro q m
    show (update q m).rest <:+ q
    by_cases hrun : m.status = .running
    · rw [(update_cases q hrun).1]
      exact readLoop_suffix q m
    · rw [update_idle q hrun]
  cmd_init := by
    intro nodes m p hp
    change p ∈ (init g nodes m).2.1 at hp
    rcases init_cases g nodes m with h | ⟨-, h⟩ | ⟨_, _, _, _, -, -, -, -, -, -, h⟩
    · rw [h] at hp; cases hp
    · rw [h] at hp; cases hp
    · rw [h] at hp
      obtain rfl := List.mem_singleton.mp hp
      exact (by decide : cmdMkaPacket ≠ thatsMe)
  cmd_update := by
    intro q m p hp
    change p ∈ (update q m).wrote at hp
    by_cases hrun : m.status = .running
    · rw [(update_cases q hrun).2.1] at hp
      rw [cmd_readLoop q m p hp]
      decide
    · rw [update_idle q hrun] at hp
      cases hp
  drains := by
    intro q m hI hok hafter
    change (update q m).ok = true at hok
    change (update q m).state.status = .running at hafter
    show (update q m).rest = []
    by_cases hrun : m.status = .running
    · obtain ⟨hrest, -, hcase⟩ := update_cases q hrun
      rw [hrest]
      generalize (update q m).state = m', (update q m).ok = ok at hcase hafter
      cases hcase with
      | failed herr => rw [herr] at hafter; cases hafter
      | completed => cases hafter
      | running hloop hstatus hstep =>
          rcases readLoop_rest hloop with h | h
          · exact h
          · have := (readLoop_bounded q (hI hrun)).2 hstatus
            omega
    · rw [update_idle q hrun] at hok
      cases hok

end LibSmoke
