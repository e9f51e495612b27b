import LibSmoke.Knx.Agreement

/-!
# How far apart the nodes can be

`MKAKeyExchange` keeps what comes for the step after the current one and drops
what is neither. That nothing is ever dropped is a matter of all nodes: one that
sends its packet of step `t` has had the packets of step `t - 1` from all others,
so no two are more than one step apart, and what comes is for this step or the
next (`steps_apart`).

Each channel carries the packets of its sender step by step, so a node knows the
step of the next packet from how many came before it (`Node`). It has put aside
at most what came from those it is not waiting for, and so no step is complete
as soon as it begins.
-/

namespace LibSmoke

namespace Agreement

open MkaKeyExchange

variable {n : Nat}

/-- As `start`, but a node may be without its generator. -/
def startWith (g : EcpGroup) (drbg : Fin n → Option (Nat → Nat)) : Mesh n where
  party := fun i => ⟨.new g (drbg i), [], []⟩
  chan := fun _ _ => []

/-- In an update the reading loop hands `p` on in state `m'`. -/
structure Offers (x : Party) (m' : MkaKeyExchange) (p : Pkt) : Prop where
  running : x.mka.status = .running
  reached : ∃ pre post, x.inQ = pre ++ p :: post ∧ (readLoop pre x.mka).ok = true ∧
    (readLoop pre x.mka).rest = [] ∧ (readLoop pre x.mka).state = m'
  more : m'.currentStep.toNat < m'.nodes.card - 1
  cmd : p.cmd = cmdMkaPacket
  src : p.src ∈ m'.nodes

/-! ## The packets of one sender -/

section Node

variable (ids : Fin n → UInt16)

def stepNo (p : Pkt) : Nat := (MkaStep.ofData p.data).stepId.toNat

/-- How many packets of the exchange from `k` there are. -/
def cnt (k : Fin n) (l : List Pkt) : Nat :=
  l.countP fun p => p.cmd = cmdMkaPacket ∧ p.src = ids k

/-- What comes from a node after `pre` is its next packet. -/
def InOrder (j : Fin n) (pre : List Pkt) (p : Pkt) : Prop :=
  p.cmd = cmdMkaPacket → p.src ∈ nodeset ids →
    ∃ k, k ≠ j ∧ p.src = ids k ∧ p.data.length = mkaStepSize ∧
      stepNo p = cnt ids k pre

variable {ids}

theorem cnt_append (k : Fin n) (l l' : List Pkt) :
    cnt ids k (l ++ l') = cnt ids k l + cnt ids k l' :=
  List.countP_append

theorem cnt_self {k : Fin n} {p : Pkt} (hcmd : p.cmd = cmdMkaPacket)
    (hsrc : p.src = ids k) (l : List Pkt) :
    cnt ids k (l ++ [p]) = cnt ids k l + 1 := by
  rw [cnt_append, cnt, cnt, List.countP_singleton, if_pos (by simp [hcmd, hsrc])]

theorem cnt_other {k : Fin n} {p : Pkt}
    (h : ¬(p.cmd = cmdMkaPacket ∧ p.src = ids k)) (l : List Pkt) :
    cnt ids k (l ++ [p]) = cnt ids k l := by
  rw [cnt_append, cnt, cnt, List.countP_singleton, if_neg (by simpa using h)]
  rfl

theorem cnt_le (ids : Fin n → UInt16) (k : Fin n) (l l' : List Pkt) :
    cnt ids k l ≤ cnt ids k (l ++ l') := by
  rw [cnt_append]
  exact Nat.le_add_right _ _

/-- Node `i` in step `s`, having taken `taken`. -/
structure Node (ids : Fin n → UInt16) (i : Fin n) (taken : List Pkt) (s : Nat)
    (m : MkaKeyExchange) : Prop where
  nodes : m.nodes = nodeset ids
  two : 2 ≤ n
  small : n ≤ 255
  step : m.currentStep.toNat = s
  le : s + 1 ≤ n
  old : ∀ k, k ≠ i → s ≤ cnt ids k taken
  young : ∀ k, k ≠ i → cnt ids k taken ≤ s + 2
  known : ∀ x ∈ m.remoteUsers, ∃ k, k ≠ i ∧ x = ids k
  users : s + 1 < n → ∀ k, k ≠ i → (ids k ∈ m.remoteUsers ↔ s < cnt ids k taken)
  aside : s + 1 < n → ∀ e ∈ m.nextStepValues,
    e.2.stepId.toNat = s + 1 ∧ ∃ k, k ≠ i ∧ e.1 = ids k
  asideNodup : (m.nextStepValues.map Prod.fst).Nodup
  asideUsers : s + 1 < n → ∀ k, k ≠ i →
    (ids k ∈ m.nextStepValues.map Prod.fst ↔ s + 1 < cnt ids k taken)

variable {i : Fin n} {taken : List Pkt} {s : Nat} {m : MkaKeyExchange}

/-- The step is not complete. -/
def Waiting (n s : Nat) (m : MkaKeyExchange) : Prop :=
  s + 1 < n → m.remoteUsers.card < n - 1

/-- A packet that is none of the exchange changes nothing. -/
theorem Node.skip (h : Node ids i taken s m) {p : Pkt}
    (hp : p.cmd ≠ cmdMkaPacket ∨ p.src ∉ nodeset ids) :
    Node ids i (taken ++ [p]) s m := by
  have hcnt : ∀ k, cnt ids k (taken ++ [p]) = cnt ids k taken := by
    intro k
    refine cnt_other ?_ taken
    rintro ⟨hcmd, hsrc⟩
    refine hp.elim (fun hne => hne hcmd) fun hne => hne ?_
    rw [hsrc]
    exact Finset.mem_image_of_mem ids (Finset.mem_univ k)
  exact { h with
    old := fun k hk => by rw [hcnt]; exact h.old k hk
    young := fun k hk => by rw [hcnt]; exact h.young k hk
    users := fun hs k hk => by rw [hcnt]; exact h.users hs k hk
    asideUsers := fun hs k hk => by rw [hcnt]; exact h.asideUsers hs k hk }

variable {k : Fin n} {p : Pkt}

/-- What the next packet of a sender is offered to has nothing of it. -/
theorem Node.offered (h : Node ids i taken s m) (hs : s + 1 < n) (hk : k ≠ i)
    (hsrc : p.src = ids k) (hno : stepNo p = cnt ids k taken) (hle : stepNo p ≤ s + 1) :
    stepNo p = s ∧ p.src ∉ m.remoteUsers ∨
    stepNo p = s + 1 ∧ p.src ∉ m.nextStepValues.map Prod.fst := by
  have hold := h.old k hk
  have husers := h.users hs k hk
  have haside := h.asideUsers hs k hk
  rw [hsrc, husers, haside]
  omega

/-- A packet of the step goes to its place, one of the next step aside. -/
theorem Node.place (h : Node ids i taken s m) (hids : Function.Injective ids)
    (hs : s + 1 < n) (hk : k ≠ i) (hcmd : p.cmd = cmdMkaPacket)
    (hsrc : p.src = ids k) (hno : stepNo p = cnt ids k taken)
    (hle : stepNo p ≤ s + 1) :
    Node ids i (taken ++ [p]) s (place p.src (.ofData p.data) m) ∧
    (stepNo p = s ∧
        (place p.src (.ofData p.data) m).remoteUsers = insert p.src m.remoteUsers ∧
        p.src ∉ m.remoteUsers ∨
      (place p.src (.ofData p.data) m).remoteUsers = m.remoteUsers) := by
  have hself := cnt_self hcmd hsrc taken
  have hother : ∀ l, l ≠ k → cnt ids l (taken ++ [p]) = cnt ids l taken := by
    intro l hl
    refine cnt_other ?_ taken
    rintro ⟨-, heq⟩
    exact hl (hids (heq.symm.trans hsrc))
  have hold : ∀ l, l ≠ i → s ≤ cnt ids l (taken ++ [p]) := fun l hl =>
    Nat.le_trans (h.old l hl) (cnt_le ids l taken [p])
  have hyoung : ∀ l, l ≠ i → cnt ids l (taken ++ [p]) ≤ s + 2 := by
    intro l hl
    by_cases hlk : l = k
    · subst hlk
      omega
    · rw [hother l hlk]
      exact h.young l hl
  rcases h.offered hs hk hsrc hno hle with ⟨hcur, hnew⟩ | ⟨hnext, hnew⟩
  · have heq : (MkaStep.ofData p.data).stepId = m.currentStep :=
      UInt8.toNat_inj.mp (hcur.trans h.step.symm)
    rw [MkaKeyExchange.place, if_pos heq, insertKey, if_neg hnew]
    refine ⟨{ h with
      old := hold, young := hyoung, known := ?_, users := ?_, asideUsers := ?_ },
      .inl ⟨hcur, rfl, hnew⟩⟩
    · intro x hx
      rcases Finset.mem_insert.mp hx with rfl | hx
      · exact ⟨k, hk, hsrc⟩
      · exact h.known x hx
    · intro _ l hl
      simp only [Finset.mem_insert]
      by_cases hlk : l = k
      · subst hlk
        rw [hself, hsrc]
        exact ⟨fun _ => by omega, fun _ => .inl rfl⟩
      · rw [hother l hlk, h.users hs l hl, hsrc, hids.eq_iff]
        exact or_iff_right hlk
    · intro _ l hl
      by_cases hlk : l = k
      · subst hlk
        rw [h.asideUsers hs l hl, hself]
        omega
      · rw [hother l hlk]
        exact h.asideUsers hs l hl
  · have hne : (MkaStep.ofData p.data).stepId ≠ m.currentStep := by
      intro heq
      have := congrArg UInt8.toNat heq
      rw [h.step] at this
      exact absurd (hnext.symm.trans this) (by omega)
    have heq : (MkaStep.ofData p.data).stepId.toNat = m.currentStep.toNat + 1 := by
      rw [h.step]
      exact hnext
    rw [MkaKeyExchange.place, if_neg hne, if_pos heq]
    refine ⟨{ h with
      old := hold, young := hyoung, users := ?_, aside := ?_, asideNodup := ?_
      asideUsers := ?_ }, .inr rfl⟩
    · intro _ l hl
      by_cases hlk : l = k
      · subst hlk
        rw [h.users hs l hl, hself]
        omega
      · rw [hother l hlk]
        exact h.users hs l hl
    · intro _ e he
      rcases List.mem_append.mp he with he | he
      · exact h.aside hs e he
      · rw [List.mem_singleton.mp he]
        exact ⟨hnext, k, hk, hsrc⟩
    · simp only [List.map_append, List.map_singleton]
      refine List.nodup_append.mpr ⟨h.asideNodup, List.nodup_singleton _, ?_⟩
      intro x hx y hy hxy
      exact hnew (List.mem_singleton.mp hy ▸ hxy ▸ hx)
    · intro _ l hl
      simp only [List.map_append, List.map_singleton, List.mem_append,
        List.mem_singleton]
      by_cases hlk : l = k
      · subst hlk
        rw [hself, hsrc]
        exact ⟨fun _ => by omega, fun _ => .inr rfl⟩
      · rw [hother l hlk, h.asideUsers hs l hl, hsrc, hids.eq_iff]
        exact or_iff_left hlk

/-- Everybody is there, so everybody's packet of the step was taken. -/
theorem Node.all_taken (h : Node ids i taken s m) (hids : Function.Injective ids)
    (hs : s + 1 < n) (hfull : m.remoteUsers.card = n - 1) {l : Fin n} (hl : l ≠ i) :
    s < cnt ids l taken := by
  rw [← h.users hs l hl]
  have hsub : m.remoteUsers ⊆ (Finset.univ.erase i).image ids := by
    intro x hx
    obtain ⟨k, hk, rfl⟩ := h.known x hx
    exact Finset.mem_image_of_mem ids (Finset.mem_erase.mpr ⟨hk, Finset.mem_univ k⟩)
  have hcard : ((Finset.univ.erase i).image ids).card ≤ m.remoteUsers.card := by
    rw [Finset.card_image_of_injective _ hids,
      Finset.card_erase_of_mem (Finset.mem_univ i), Finset.card_univ,
      Fintype.card_fin, hfull]
  rw [Finset.eq_of_subset_of_card_le hsub hcard]
  exact Finset.mem_image_of_mem ids (Finset.mem_erase.mpr ⟨hl, Finset.mem_univ l⟩)

/-- What was put aside when the step was completed by a packet of `k` came from
neither the node itself nor `k`. -/
theorem Node.card_aside (h : Node ids i taken s m) (hids : Function.Injective ids)
    (hs : s + 1 < n) (hk : k ≠ i) (hcnt : cnt ids k taken = s + 1) :
    (m.nextStepValues.map Prod.fst).toFinset.card ≤ n - 2 := by
  have hsub : (m.nextStepValues.map Prod.fst).toFinset ⊆
      ((Finset.univ.erase i).erase k).image ids := by
    intro x hx
    rw [List.mem_toFinset] at hx
    obtain ⟨e, he, rfl⟩ := List.mem_map.mp hx
    obtain ⟨l, hl, hsrc⟩ := (h.aside hs e he).2
    have hlk : l ≠ k := by
      rintro rfl
      rw [hsrc, h.asideUsers hs l hl, hcnt] at hx
      omega
    rw [hsrc]
    exact Finset.mem_image_of_mem ids
      (Finset.mem_erase.mpr ⟨hlk, Finset.mem_erase.mpr ⟨hl, Finset.mem_univ l⟩⟩)
  have hcard := Finset.card_le_card hsub
  rw [Finset.card_image_of_injective _ hids,
    Finset.card_erase_of_mem (Finset.mem_erase.mpr ⟨hk, Finset.mem_univ k⟩),
    Finset.card_erase_of_mem (Finset.mem_univ i), Finset.card_univ,
    Fintype.card_fin] at hcard
  omega

/-- The drain of what was put aside, all of it for the step. -/
theorem useAside_users (mka : MkaStep) {m : MkaKeyExchange}
    (hempty : m.remoteUsers = ∅)
    (hall : ∀ e ∈ m.nextStepValues, e.2.stepId = m.currentStep) :
    (useAside mka m).nextStepValues = [] ∧
    (useAside mka m).remoteUsers = (m.nextStepValues.map Prod.fst).toFinset := by
  have hloop : ∀ (aside : List (UInt16 × MkaStep)) (m' : MkaKeyExchange),
      m'.currentStep = m.currentStep → (∀ e ∈ aside, e.2.stepId = m.currentStep) →
      (aside.foldl (fun m mks => if mks.2.stepId ≠ m.currentStep then m
        else insertKey mks.1 mka.key m) m').remoteUsers =
        m'.remoteUsers ∪ (aside.map Prod.fst).toFinset := by
    intro aside
    induction aside with
    | nil =>
        intro m' _ _
        exact (Finset.union_empty _).symm
    | cons e aside ih =>
        intro m' hstep hall
        have hone : e.2.stepId = m'.currentStep :=
          (hall e List.mem_cons_self).trans hstep.symm
        have hrest := ih (insertKey e.1 mka.key m')
          ((insertKey_fields ..).2.2.trans hstep)
          fun e' he' => hall e' (List.mem_cons_of_mem e he')
        rw [List.foldl_cons, if_neg (not_not.mpr hone), hrest, insertKey_users,
          List.map_cons, List.toFinset_cons, Finset.insert_union, Finset.union_insert]
  refine ⟨useAside_empties mka m,
    (hloop m.nextStepValues { m with nextStepValues := [] } rfl hall).trans ?_⟩
  rw [hempty, Finset.empty_union]

/-- Only these four fields matter. -/
theorem Node.of_eq (h : Node ids i taken s m) {m' : MkaKeyExchange}
    (hnodes : m'.nodes = m.nodes) (hstep : m'.currentStep = m.currentStep)
    (husers : m'.remoteUsers = m.remoteUsers)
    (haside : m'.nextStepValues = m.nextStepValues) : Node ids i taken s m' where
  nodes := hnodes.trans h.nodes
  two := h.two
  small := h.small
  step := hstep ▸ h.step
  le := h.le
  old := h.old
  young := h.young
  known := husers ▸ h.known
  users := husers ▸ h.users
  aside := haside ▸ h.aside
  asideNodup := haside ▸ h.asideNodup
  asideUsers := haside ▸ h.asideUsers

/-- The next step with what was put aside for it. -/
theorem Node.advance (h : Node ids i taken s m) (hids : Function.Injective ids)
    (hs : s + 1 < n) (hfull : m.remoteUsers.card = n - 1) (ctx : MkaContext) :
    Node ids i taken (s + 1)
      { m with
        ctx := ctx
        remoteUsers := (m.nextStepValues.map Prod.fst).toFinset
        nextStepValues := []
        currentStep := m.currentStep + 1 } where
  nodes := h.nodes
  two := h.two
  small := h.small
  step := by
    have hstep := h.step
    rw [succ_toNat (n := n) (by omega) h.small, hstep]
  le := hs
  old := fun l hl => h.all_taken hids hs hfull hl
  young := fun l hl => Nat.le_succ_of_le (h.young l hl)
  known := by
    intro x hx
    obtain ⟨e, he, rfl⟩ := List.mem_map.mp (List.mem_toFinset.mp hx)
    exact (h.aside hs e he).2
  users := by
    intro _ l hl
    rw [← h.asideUsers hs l hl]
    exact List.mem_toFinset
  aside := fun _ e he => absurd he List.not_mem_nil
  asideNodup := List.nodup_nil
  asideUsers := by
    intro _ l hl
    have hyoung := h.young l hl
    simp only [List.map_nil, List.not_mem_nil, false_iff]
    omega

/-- One packet more: the node is in the same step or in the next one, and has
sent a packet for every step it began. -/
theorem Node.read (h : Node ids i taken s m) (hwait : Waiting n s m)
    (hids : Function.Injective ids) (hs : s + 1 < n) (hk : k ≠ i)
    (hcmd : p.cmd = cmdMkaPacket) (hsrc : p.src = ids k)
    (hsize : p.data.length = mkaStepSize) (hno : stepNo p = cnt ids k taken)
    (hle : stepNo p ≤ s + 1) {m' : MkaKeyExchange} {w' : List Outgoing}
    (hupd : Update p m (m', w', true)) :
    ∃ s', Node ids i (taken ++ [p]) s' m' ∧ Waiting n s' m' ∧
      (s' = s ∧ w' = [] ∨ s' = s + 1 ∧
        (s + 2 < n ∧ (∃ point, w' = [stepPacket (m.currentStep + 1) point]) ∨
          s + 2 = n ∧ w' = [])) := by
  obtain ⟨hplace, hcase⟩ := h.place hids hs hk hcmd hsrc hno hle
  have hstep₁ := (place_fields p.src (.ofData p.data) m).2.2
  have hself := cnt_self hcmd hsrc taken
  have hcard : m.nodes.card = n := by rw [h.nodes, card_nodeset hids]
  revert hplace hcase hstep₁
  cases hupd with
  | skip hne => exact absurd hsize hne
  | wait _ hm' hne =>
      rw [hm']
      intro hplace hcase _
      refine ⟨s, hplace, fun _ => ?_, .inl ⟨rfl, rfl⟩⟩
      have hlt := hwait hs
      rw [hplace.nodes, card_nodeset hids] at hne
      rcases hcase with ⟨-, hins, hnew⟩ | hsame
      · rw [hins, Finset.card_insert_of_notMem hnew] at hne ⊢
        omega
      · rw [hsame]
        exact hlt
  | @last m₁ ctx _ hm' hfull hacc hstep =>
      rw [hm']
      intro hplace hcase hstep₁
      rw [hplace.nodes, card_nodeset hids] at hfull hstep
      have hnext := hplace.advance hids hs hfull ctx
      have hend : s + 2 = n := by
        have hnew : (m₁.currentStep + 1).toNat = s + 1 := hnext.step
        omega
      refine ⟨s + 1, { hnext with
        known := fun x hx => absurd hx (Finset.notMem_empty x)
        users := fun hlt => absurd hlt (by omega)
        aside := fun hlt => absurd hlt (by omega)
        asideNodup := hplace.asideNodup
        asideUsers := fun hlt => absurd hlt (by omega) },
        fun hlt => absurd hlt (by omega), .inr ⟨rfl, .inr ⟨hend, rfl⟩⟩⟩
  | @next m₁ ctx ctx' point _ hm' hfull hacc hstep hmake =>
      rw [hm']
      intro hplace hcase hstep₁
      rw [hplace.nodes, card_nodeset hids] at hfull hstep
      have hnext := hplace.advance hids hs hfull ctx'
      have hnew : (m₁.currentStep + 1).toNat = s + 1 := hnext.step
      obtain ⟨haside, husers⟩ := useAside_users (.ofData p.data)
        (m := { m₁ with
          ctx := ctx', remoteUsers := ∅, currentStep := m₁.currentStep + 1 }) rfl
        fun e he => UInt8.toNat_inj.mp ((hplace.aside hs e he).1.trans hnew.symm)
      have hfields := useAside_fields (.ofData p.data) { m₁ with
        ctx := ctx', remoteUsers := ∅, currentStep := m₁.currentStep + 1 }
      -- the packet completed the step, so it was one of it
      have hcur : stepNo p = s := by
        rcases hcase with ⟨hcur, -, -⟩ | hsame
        · exact hcur
        · have hlt := hwait hs
          rw [← hsame, hfull] at hlt
          omega
      refine ⟨s + 1, hnext.of_eq hfields.2.1 hfields.2.2 husers haside, ?_,
        .inr ⟨rfl, .inl ⟨by omega, point, by rw [hstep₁]⟩⟩⟩
      intro _
      have hle := hplace.card_aside hids hs hk (by omega)
      rw [husers]
      have h2 := h.two
      exact Nat.lt_of_le_of_lt hle (by omega)

/-! ## A call of the exchange -/

/-- The packets of steps `c`, `c + 1` and so on. -/
structure Sends (c : Nat) (w : List Outgoing) : Prop where
  shape : ∀ o ∈ w, o.cmd = cmdMkaPacket ∧ o.body.length = mkaStepSize
  steps : w.map (fun o => (MkaStep.ofData o.body).stepId.toNat) =
    List.range' c w.length

theorem Sends.nil (c : Nat) : Sends c [] :=
  ⟨fun _ ho => absurd ho List.not_mem_nil, rfl⟩

theorem stepPacket_shape (x : UInt8) (point : List UInt8) :
    (stepPacket x point).body.length = mkaStepSize ∧
      (MkaStep.ofData (stepPacket x point).body).stepId = x := by
  refine ⟨?_, rfl⟩
  simp only [stepPacket, List.length_cons, List.length_take, List.length_append,
    List.length_replicate, mkaStepSize]
  omega

theorem Sends.concat {c : Nat} {w : List Outgoing} (h : Sends c w) {x : UInt8}
    (hx : x.toNat = c + w.length) (point : List UInt8) :
    Sends c (w ++ [stepPacket x point]) where
  shape := by
    intro o ho
    rcases List.mem_append.mp ho with ho | ho
    · exact h.shape o ho
    · rw [List.mem_singleton.mp ho]
      exact ⟨rfl, (stepPacket_shape x point).1⟩
  steps := by
    rw [List.map_append, h.steps, List.map_singleton, (stepPacket_shape x point).2,
      hx, List.length_append, List.length_singleton, List.range'_1_concat]

/-- A node that began step `s₀`, and sent a packet for each step up to there. -/
structure Going (ids : Fin n → UInt16) (i : Fin n) (taken : List Pkt) (c : Nat)
    (m : MkaKeyExchange) : Prop where
  node : Node ids i taken m.currentStep.toNat m
  waiting : Waiting n m.currentStep.toNat m
  sent : c = min (m.currentStep.toNat + 1) (n - 1)

/-- What is sent for a step follows the packets of the step before from all. -/
theorem Going.sent_le {c : Nat} (h : Going ids i taken c m) (hk : k ≠ i) :
    c ≤ cnt ids k taken + 1 := by
  have hold := h.node.old k hk
  rw [h.sent]
  omega

/-- `p` comes after `pre` and is for the step after `s` at most. -/
def Near (ids : Fin n → UInt16) (i : Fin n) (s : Nat) (pre : List Pkt) (p : Pkt) :
    Prop :=
  InOrder ids i pre p ∧
    (p.cmd = cmdMkaPacket → p.src ∈ nodeset ids → stepNo p ≤ s + 1)

theorem Going.skip {c : Nat} (h : Going ids i taken c m)
    (hp : p.cmd ≠ cmdMkaPacket ∨ p.src ∉ nodeset ids) :
    Going ids i (taken ++ [p]) c m :=
  ⟨h.node.skip hp, h.waiting, h.sent⟩

theorem Going.read {c : Nat} (h : Going ids i taken c m)
    (hids : Function.Injective ids) (hmore : m.currentStep.toNat < m.nodes.card - 1)
    (hcmd : p.cmd = cmdMkaPacket) (hsrc : p.src ∈ m.nodes) {s : Nat}
    (hs : s ≤ m.currentStep.toNat) (hp : Near ids i s taken p)
    {m' : MkaKeyExchange} {w' : List Outgoing} (hupd : Update p m (m', w', true)) :
    Going ids i (taken ++ [p]) (c + w'.length) m' ∧ Sends c w' ∧
      m.currentStep.toNat ≤ m'.currentStep.toNat := by
  rw [h.node.nodes, card_nodeset hids] at hmore
  rw [h.node.nodes] at hsrc
  obtain ⟨k, hk, hk', hsize, hno⟩ := hp.1 hcmd hsrc
  have hle := hp.2 hcmd hsrc
  have hlt : m.currentStep.toNat + 1 < n := by omega
  have hnext := succ_toNat (x := m.currentStep) (by omega) h.node.small
  obtain ⟨s', hnode, hwait, hcase⟩ := h.node.read h.waiting hids hlt hk hcmd hk'
    hsize hno (by omega) hupd
  have hstep := hnode.step
  rw [← hstep] at hnode hwait hcase
  have hsent := h.sent
  rcases hcase with ⟨heq, rfl⟩ | ⟨heq, ⟨hmid, point, rfl⟩ | ⟨hend, rfl⟩⟩
  · exact ⟨⟨hnode, hwait, by rw [heq]; exact hsent⟩, .nil c, by omega⟩
  · refine ⟨⟨hnode, hwait, ?_⟩, ?_, by omega⟩
    · rw [List.length_singleton]
      omega
    · refine (Sends.nil c).concat ?_ point
      rw [List.length_nil]
      omega
  · refine ⟨⟨hnode, hwait, ?_⟩, .nil c, by omega⟩
    rw [List.length_nil]
    omega

theorem Sends.append {c : Nat} {w w' : List Outgoing} (h : Sends c w)
    (h' : Sends (c + w.length) w') : Sends c (w ++ w') where
  shape := fun o ho => (List.mem_append.mp ho).elim (h.shape o) (h'.shape o)
  steps := by
    rw [List.map_append, h.steps, h'.steps, List.length_append,
      List.range'_append_1]

/-- The reading loop over a queue whose packets are near. -/
theorem Going.readLoop {c : Nat} (h : Going ids i taken c m)
    (hids : Function.Injective ids) {q : List Pkt}
    (hq : ∀ pre p post, q = pre ++ p :: post →
      Near ids i m.currentStep.toNat (taken ++ pre) p) :
    ((readLoop q m).ok = true → Going ids i (taken ++ (readLoop q m).taken q)
        (c + (readLoop q m).wrote.length) (readLoop q m).state ∧
      m.currentStep.toNat ≤ (readLoop q m).state.currentStep.toNat) ∧
    Sends c (readLoop q m).wrote ∧
    ∀ k, k ≠ i → c + (readLoop q m).wrote.length ≤
      cnt ids k (taken ++ (readLoop q m).taken q) + 1 := by
  let J : List Pkt → MkaKeyExchange → List Outgoing → Prop := fun t _ w =>
    Sends c w ∧ ∀ k, k ≠ i → c + w.length ≤ cnt ids k t + 1
  let I : List Pkt → MkaKeyExchange → List Outgoing → Prop := fun t m' w =>
    Going ids i t (c + w.length) m' ∧
      m.currentStep.toNat ≤ m'.currentStep.toNat ∧ Sends c w
  have hloop := readLoop_rule (I := I) (J := J)
    (P := Near ids i m.currentStep.toNat) (q := q) (t := taken) (m := m) (w := [])
    (by
      rintro t m' w p ⟨hgo, hle, hw⟩ hskip
      rw [hgo.node.nodes] at hskip
      exact ⟨hgo.skip hskip, hle, hw⟩)
    (by
      rintro t m' w p ⟨hgo, hle, hw⟩ hp hcmd hsrc hmore m'' w' hupd
      obtain ⟨hgo', hw', hle'⟩ := hgo.read hids hmore hcmd hsrc hle hp hupd
      refine ⟨?_, Nat.le_trans hle hle', hw.append hw'⟩
      rw [List.length_append, ← Nat.add_assoc]
      exact hgo')
    (by
      rintro t m' w p ⟨hgo, -, hw⟩ m'' _ _
      exact ⟨hw, fun k hk => Nat.le_trans (hgo.sent_le hk)
        (Nat.succ_le_succ (cnt_le ids k t [p]))⟩)
    hq ⟨h, Nat.le_refl _, .nil c⟩
  rw [List.nil_append] at hloop
  split at hloop
  · exact ⟨fun _ => ⟨hloop.1, hloop.2.1⟩, hloop.2.2,
      fun k hk => hloop.1.sent_le hk⟩
  · next hok => exact ⟨fun h' => absurd h' hok, hloop.1, hloop.2⟩

/-! ## The mesh -/

/-- Node `i` has sent `c` packets. -/
structure PartyOk (ids : Fin n → UInt16) (i : Fin n) (c : Nat) (x : Party) :
    Prop where
  offline : x.mka.status = .offline →
    x.taken = [] ∧ c = 0 ∧ x.mka.nextStepValues = []
  running : x.mka.status = .running →
    Going ids i x.taken c x.mka ∧ x.mka.currentStep.toNat + 1 < n

/-- The nodes have sent `c` packets each, and these are where they should be. -/
structure Apart (ids : Fin n → UInt16) (c : Fin n → Nat) (b : Mesh n) : Prop where
  chan : ∀ k j, ∀ p ∈ b.chan k j, k ≠ j ∧ p.cmd = cmdMkaPacket ∧ p.src = ids k ∧
    p.data.length = mkaStepSize
  order : ∀ k j, k ≠ j → (b.chan k j).map stepNo =
    List.range' (cnt ids k (b.given j)) (b.chan k j).length
  sent : ∀ k j, k ≠ j → cnt ids k (b.given j) + (b.chan k j).length = c k
  given : ∀ j pre p post, b.given j = pre ++ p :: post → InOrder ids j pre p
  near : ∀ k j, c k ≤ c j + 1
  party : ∀ i, PartyOk ids i (c i) (b.party i)

variable {c : Fin n → Nat} {b : Mesh n}

theorem Apart.start (g : EcpGroup) (drbg : Fin n → Option (Nat → Nat)) :
    Apart ids (fun _ => 0) (startWith g drbg) where
  chan := fun k j p hp => by cases hp
  order := fun k j _ => rfl
  sent := fun k j _ => rfl
  given := by
    intro j pre p post h
    cases pre <;> cases h
  near := fun _ _ => Nat.zero_le _
  party := fun i => ⟨fun _ => ⟨rfl, rfl, rfl⟩, fun h => by cases h⟩

/-- The packets in the queue of a node are near. -/
theorem Apart.queued (h : Apart ids c b) (i : Fin n)
    (hrun : (b.party i).mka.status = .running) :
    ∀ pre p post, (b.party i).inQ = pre ++ p :: post →
      Near ids i (b.party i).mka.currentStep.toNat ((b.party i).taken ++ pre) p := by
  intro pre p post hq
  have hsplit : b.given i = ((b.party i).taken ++ pre) ++ p :: post := by
    rw [Mesh.given, hq, List.append_assoc]
  have horder := h.given i _ p post hsplit
  refine ⟨horder, fun hcmd hsrc => ?_⟩
  obtain ⟨k, hk, hk', -, hno⟩ := horder hcmd hsrc
  obtain ⟨hgo, hlt⟩ := (h.party i).running hrun
  have hsent := h.sent k i hk
  have hself := cnt_self hcmd hk' ((b.party i).taken ++ pre)
  have hle := cnt_le ids k (((b.party i).taken ++ pre) ++ [p]) post
  rw [← List.append_cons, ← hsplit] at hle
  have hnear := h.near k i
  have hc := hgo.sent
  omega

/-- A node changes and sends what follows on what it has sent. -/
theorem Apart.change (h : Apart ids c b) {i : Fin n} {x : Party}
    {w : List Outgoing} (hgiven : x.taken ++ x.inQ = b.given i)
    (hx : PartyOk ids i (c i + w.length) x) (hw : Sends (c i) w)
    (hnear : ∀ k, k ≠ i → c i + w.length ≤ c k + 1) :
    Apart ids (Function.update c i (c i + w.length))
      ⟨Function.update b.party i x, send ids i w b⟩ := by
  have hsame : ∀ j, Mesh.given ⟨Function.update b.party i x, send ids i w b⟩ j =
      b.given j := by
    intro j
    by_cases hj : j = i
    · subst hj
      simp only [Mesh.given, Function.update_self]
      exact hgiven
    · simp only [Mesh.given, Function.update_of_ne hj]
  have hsend : ∀ j, j ≠ i → send ids i w b i j =
      b.chan i j ++ w.map (Outgoing.pkt (ids i)) := by
    intro j hj
    rw [send, if_pos ⟨rfl, hj⟩]
  have hkeep : ∀ k j, k ≠ i → send ids i w b k j = b.chan k j := by
    intro k j hk
    rw [send, if_neg (fun hkj => hk hkj.1)]
  refine ⟨?_, ?_, ?_, ?_, ?_, ?_⟩
  · intro k j p hp
    change p ∈ send ids i w b k j at hp
    by_cases hk : k = i
    · subst hk
      by_cases hj : j = k
      · rw [send, if_neg (fun hkj => hkj.2 hj)] at hp
        exact h.chan k j p hp
      · rw [hsend j hj] at hp
        rcases List.mem_append.mp hp with hp | hp
        · exact h.chan k j p hp
        · obtain ⟨o, ho, rfl⟩ := List.mem_map.mp hp
          exact ⟨Ne.symm hj, (hw.shape o ho).1, rfl, (hw.shape o ho).2⟩
    · rw [hkeep k j hk] at hp
      exact h.chan k j p hp
  · intro k j hkj
    change (send ids i w b k j).map stepNo =
      List.range' _ (send ids i w b k j).length
    rw [hsame]
    by_cases hk : k = i
    · subst hk
      have hsteps : (w.map (Outgoing.pkt (ids k))).map stepNo =
          List.range' (c k) w.length := by
        rw [List.map_map, ← hw.steps]
        rfl
      rw [hsend j hkj.symm, List.map_append, h.order k j hkj, hsteps,
        ← h.sent k j hkj, List.length_append, List.length_map,
        List.range'_append_1]
    · rw [hkeep k j hk]
      exact h.order k j hkj
  · intro k j hkj
    change _ + (send ids i w b k j).length = _
    rw [hsame]
    by_cases hk : k = i
    · subst hk
      rw [hsend j hkj.symm, List.length_append, List.length_map,
        Function.update_self, ← h.sent k j hkj, Nat.add_assoc]
    · rw [hkeep k j hk, Function.update_of_ne hk]
      exact h.sent k j hkj
  · intro j
    rw [hsame]
    exact h.given j
  · intro k j
    by_cases hk : k = i
    · subst hk
      by_cases hj : j = k
      · rw [hj]
        exact Nat.le_succ _
      · rw [Function.update_self, Function.update_of_ne hj]
        exact hnear j hj
    · rw [Function.update_of_ne hk]
      have hold := h.near k j
      by_cases hj : j = i
      · subst hj
        rw [Function.update_self]
        omega
      · rw [Function.update_of_ne hj]
        exact hold
  · intro j
    by_cases hj : j = i
    · subst hj
      simp only [Function.update_self]
      exact hx
    · simp only [Function.update_of_ne hj]
      exact h.party j

theorem PartyOk.of_status {i : Fin n} {c : Nat} {x : Party}
    (hoff : x.mka.status ≠ .offline) (hrun : x.mka.status ≠ .running) :
    PartyOk ids i c x :=
  ⟨fun h => absurd h hoff, fun h => absurd h hrun⟩

theorem Apart.init (h : Apart ids c b) (g : EcpGroup)
    (hids : Function.Injective ids) (i : Fin n) :
    Apart ids (Function.update c i
        (c i + ((b.party i).mka.init g (nodeset ids)).2.1.length))
      (step g ids b (.init i)) := by
  rw [Agreement.step]
  rcases init_cases g (nodeset ids) (b.party i).mka with
    heq | ⟨herr, hw⟩ | ⟨draw, ctx, ctx', point, hoff, hlo, hhi, -, -, -, heq⟩
  · rw [heq]
    exact h.change (w := []) rfl (h.party i) (.nil _) fun k hk => h.near i k
  · rw [hw]
    refine h.change (i := i) (w := []) rfl ?_ (.nil _) fun k hk => h.near i k
    exact .of_status (by simp [herr]) (by simp [herr])
  · obtain ⟨htaken, hc, haside⟩ := (h.party i).offline hoff
    rw [card_nodeset hids] at hlo hhi
    rw [heq]
    refine h.change (i := i) (w := [stepPacket 0 point]) rfl ?_ ?_ ?_
    · refine ⟨fun hno => KeyStatus.noConfusion hno, fun _ => ⟨⟨?_, ?_, ?_⟩, ?_⟩⟩
      · rw [htaken]
        exact {
          nodes := rfl
          two := hlo
          small := hhi
          step := rfl
          le := by show 0 + 1 ≤ n; omega
          old := fun k hk => Nat.zero_le _
          young := fun k hk => Nat.zero_le _
          known := fun x hx => absurd hx (Finset.notMem_empty x)
          users := fun _ k hk => ⟨fun hx => absurd hx (Finset.notMem_empty _),
            fun hx => absurd hx (Nat.not_lt_zero _)⟩
          aside := by
            intro _ e he
            simp only [haside] at he
            cases he
          asideNodup := by simp only [haside]; exact List.nodup_nil
          asideUsers := by
            intro _ k hk
            simp only [haside]
            exact ⟨fun hx => absurd hx List.not_mem_nil,
              fun hx => absurd hx (Nat.not_lt_zero _)⟩ }
      · intro _
        show (∅ : Finset UInt16).card < n - 1
        rw [Finset.card_empty]
        omega
      · rw [hc, List.length_singleton]
        show 0 + 1 = min (0 + 1) (n - 1)
        omega
      · show 0 + 1 < n
        omega
    · exact (Sends.nil (c i)).concat (by rw [hc]; rfl) point
    · intro k hk
      rw [hc, List.length_singleton]
      omega

theorem Apart.update (h : Apart ids c b) (g : EcpGroup)
    (hids : Function.Injective ids) (i : Fin n) :
    Apart ids (Function.update c i
        (c i + ((b.party i).mka.update (b.party i).inQ).wrote.length))
      (step g ids b (.update i)) := by
  have hsuffix : ((b.party i).mka.update (b.party i).inQ).rest <:+
      (b.party i).inQ := (mkaKeyExchange_lawful g).reads _ _
  have hgiven : ((b.party i).taken ++
      ((b.party i).mka.update (b.party i).inQ).taken (b.party i).inQ) ++
      ((b.party i).mka.update (b.party i).inQ).rest = b.given i := by
    rw [List.append_assoc, Act.taken_append hsuffix, Mesh.given]
  rw [Agreement.step]
  by_cases hrun : (b.party i).mka.status = .running
  · obtain ⟨hrest, hwrote, hcase⟩ := update_cases (b.party i).inQ hrun
    obtain ⟨hgo, hlt⟩ := (h.party i).running hrun
    obtain ⟨hgoing, hsends, hle⟩ := hgo.readLoop hids (h.queued i hrun)
    have htaken : ((b.party i).mka.update (b.party i).inQ).taken (b.party i).inQ =
        (MkaKeyExchange.readLoop (b.party i).inQ (b.party i).mka).taken
          (b.party i).inQ := by
      rw [Act.taken, Act.taken, hrest]
    rw [← htaken, ← hwrote] at hgoing hle
    rw [← hwrote] at hsends
    refine h.change hgiven ?_ hsends fun k hk => Nat.le_trans (hle k hk) ?_
    · generalize ((b.party i).mka.update (b.party i).inQ).state = m',
        ((b.party i).mka.update (b.party i).inQ).ok = ok at hcase ⊢
      cases hcase with
      | failed herr => exact .of_status (by simp [herr]) (by simp [herr])
      | completed => exact .of_status (by simp) (by simp)
      | running hok hstatus hstep =>
          refine ⟨fun hoff => ?_, fun _ => ⟨(hgoing hok).1, ?_⟩⟩
          · cases hoff.symm.trans hstatus
          · have hnode := (hgoing hok).1.node
            have hbound : (MkaKeyExchange.readLoop (b.party i).inQ
                (b.party i).mka).state.currentStep.toNat + 1 ≤ n := hnode.le
            have hnodes : (MkaKeyExchange.readLoop (b.party i).inQ
                (b.party i).mka).state.nodes = nodeset ids := hnode.nodes
            rw [hnodes, card_nodeset hids] at hstep
            show (MkaKeyExchange.readLoop (b.party i).inQ
                (b.party i).mka).state.currentStep.toNat + 1 < n
            omega
    · have hcnt := cnt_le ids k ((b.party i).taken ++
        ((b.party i).mka.update (b.party i).inQ).taken (b.party i).inQ)
        ((b.party i).mka.update (b.party i).inQ).rest
      rw [hgiven] at hcnt
      have hsent := h.sent k i hk
      omega
  · have hidle := update_idle (b.party i).inQ hrun
    refine h.change hgiven ?_ ?_ ?_
    · rw [hidle, Act.taken_of_rest rfl, List.append_nil]
      exact h.party i
    · rw [hidle]
      exact .nil _
    · rw [hidle]
      exact fun k hk => h.near i k

/-- What a node is given once it has a packet more. -/
theorem given_give (b : Mesh n) (j l : Fin n) (p : Pkt)
    (chan : Fin n → Fin n → List Pkt) :
    Mesh.given ⟨Function.update b.party j
      { b.party j with inQ := (b.party j).inQ ++ [p] }, chan⟩ l =
      if l = j then b.given j ++ [p] else b.given l := by
  by_cases hl : l = j
  · subst hl
    rw [if_pos rfl]
    simp only [Mesh.given, Function.update_self, List.append_assoc]
  · rw [if_neg hl]
    simp only [Mesh.given, Function.update_of_ne hl]

theorem party_give {c : Nat} {j i : Fin n} (h : PartyOk ids i c (b.party i)) (p : Pkt) :
    PartyOk ids i c (Function.update b.party j
      { b.party j with inQ := (b.party j).inQ ++ [p] } i) := by
  by_cases hi : i = j
  · subst hi
    rw [Function.update_self]
    exact ⟨h.offline, h.running⟩
  · rw [Function.update_of_ne hi]
    exact h

theorem Apart.deliver (h : Apart ids c b) (g : EcpGroup)
    (hids : Function.Injective ids) (i j : Fin n) :
    Apart ids c (step g ids b (.deliver i j)) := by
  rw [Agreement.step]
  split
  · exact h
  · next p rest hchan =>
      obtain ⟨hij, hcmd, hsrc, hsize⟩ := h.chan i j p (by simp [hchan])
      have horder := h.order i j hij
      have hsent := h.sent i j hij
      rw [hchan, List.map_cons, List.length_cons, List.range'_succ] at horder
      rw [hchan, List.length_cons] at hsent
      obtain ⟨hno, hrest⟩ := List.cons.inj horder
      have hself := cnt_self hcmd hsrc (b.given j)
      have hother : ∀ k, k ≠ i → cnt ids k (b.given j ++ [p]) =
          cnt ids k (b.given j) := by
        intro k hk
        refine cnt_other ?_ _
        rintro ⟨-, heq⟩
        exact hk (hids (heq.symm.trans hsrc))
      have hnext : InOrder ids j (b.given j) p := fun _ _ =>
        ⟨i, hij, hsrc, hsize, hno⟩
      refine ⟨?_, ?_, ?_, ?_, h.near, fun k => party_give (h.party k) p⟩
      · intro k l q hq
        refine h.chan k l q ?_
        simp only [] at hq
        split at hq
        · next hkl =>
            rw [hkl.1, hkl.2, hchan]
            exact List.mem_cons_of_mem p hq
        · exact hq
      · intro k l hkl
        rw [given_give]
        simp only []
        by_cases hl : l = j
        · subst hl
          rw [if_pos rfl]
          by_cases hk : k = i
          · subst hk
            rw [if_pos ⟨rfl, rfl⟩, hself]
            exact hrest
          · rw [if_neg (fun hno => hk hno.1), hother k hk]
            exact h.order k l hkl
        · rw [if_neg hl, if_neg (fun hno => hl hno.2)]
          exact h.order k l hkl
      · intro k l hkl
        rw [given_give]
        simp only []
        by_cases hl : l = j
        · subst hl
          rw [if_pos rfl]
          by_cases hk : k = i
          · subst hk
            rw [if_pos ⟨rfl, rfl⟩, hself]
            omega
          · rw [if_neg (fun hno => hk hno.1), hother k hk]
            exact h.sent k l hkl
        · rw [if_neg hl, if_neg (fun hno => hl hno.2)]
          exact h.sent k l hkl
      · intro l
        rw [given_give]
        by_cases hl : l = j
        · subst hl
          rw [if_pos rfl]
          exact Runs.forall_split_concat (h.given l) hnext
        · rw [if_neg hl]
          exact h.given l

theorem Apart.other (h : Apart ids c b) (g : EcpGroup) (j : Fin n) (p : Pkt) :
    Apart ids c (step g ids b (.other j p)) := by
  rw [Agreement.step]
  split
  · exact h
  · next hforeign =>
      have hnone : ∀ k l, cnt ids k (Mesh.given { b with
          party := Function.update b.party j
            { b.party j with inQ := (b.party j).inQ ++ [p] } } l) =
          cnt ids k (b.given l) := by
        intro k l
        have hgive := given_give b j l p b.chan
        rw [hgive]
        split
        · next hl =>
            rw [hl]
            refine cnt_other ?_ _
            rintro ⟨hcmd, hsrc⟩
            refine hforeign ⟨hcmd, ?_⟩
            rw [hsrc]
            exact Finset.mem_image_of_mem ids (Finset.mem_univ k)
        · rfl
      refine ⟨h.chan, ?_, ?_, ?_, h.near, fun k => party_give (h.party k) p⟩
      · intro k l hkl
        rw [hnone]
        exact h.order k l hkl
      · intro k l hkl
        rw [hnone]
        exact h.sent k l hkl
      · intro l
        have hgive := given_give b j l p b.chan
        rw [hgive]
        split
        · next hl =>
            rw [hl]
            exact Runs.forall_split_concat (h.given j) fun hcmd hsrc =>
              absurd ⟨hcmd, hsrc⟩ hforeign
        · exact h.given l

theorem Apart.step (g : EcpGroup) (hids : Function.Injective ids) (b : Mesh n)
    (act : Action n) (h : ∃ c, Apart ids c b) :
    ∃ c, Apart ids c (step g ids b act) := by
  obtain ⟨c, h⟩ := h
  cases act with
  | init i => exact ⟨_, h.init g hids i⟩
  | update i => exact ⟨_, h.update g hids i⟩
  | deliver i j => exact ⟨c, h.deliver g hids i j⟩
  | other j p => exact ⟨c, h.other g j p⟩

/-- What the loop hands on comes to a node that goes on as it should. -/
theorem Apart.offers (h : Apart ids c b) (hids : Function.Injective ids) {i : Fin n}
    {m' : MkaKeyExchange} {p : Pkt} (hp : Offers (b.party i) m' p) :
    ∃ taken c', Going ids i taken c' m' ∧
      Near ids i m'.currentStep.toNat taken p := by
  obtain ⟨pre, post, hq, hok, hrest, rfl⟩ := hp.reached
  obtain ⟨hgo, -⟩ := (h.party i).running hp.running
  have hnear := h.queued i hp.running
  obtain ⟨hgoing, -⟩ := hgo.readLoop hids (q := pre) fun pre' p' post' hpre =>
    hnear pre' p' (post' ++ p :: post) (by
      rw [hq, hpre, List.append_assoc, List.cons_append])
  have htaken : (MkaKeyExchange.readLoop pre (b.party i).mka).taken pre = pre := by
    rw [Act.taken, hrest, List.length_nil, Nat.sub_zero, List.take_length]
  obtain ⟨hgo', hle⟩ := hgoing hok
  rw [htaken] at hgo'
  obtain ⟨horder, hnext⟩ := hnear pre p post hq
  exact ⟨_, _, hgo', horder, fun hcmd hsrc =>
    Nat.le_trans (hnext hcmd hsrc) (Nat.succ_le_succ hle)⟩

end Node

/-- Running nodes are at most one step apart. Every packet of the exchange that
a node reads is for its step or the next one, and new there; and when one
completes the step, what was put aside is for the next step, from different
nodes, two less than there are at most. -/
theorem steps_apart (g : EcpGroup) {ids : Fin n → UInt16}
    (hids : Function.Injective ids) (drbg : Fin n → Option (Nat → Nat))
    (acts : List (Action n)) :
    let b := Runs.run (step g ids) (startWith g drbg) acts
    (∀ i j, (b.party i).mka.status = .running → (b.party j).mka.status = .running →
      (b.party i).mka.currentStep.toNat ≤ (b.party j).mka.currentStep.toNat + 1) ∧
    ∀ i m p, Offers (b.party i) m p →
      p.data.length = mkaStepSize ∧
      (stepNo p = m.currentStep.toNat ∧ p.src ∉ m.remoteUsers ∨
        stepNo p = m.currentStep.toNat + 1 ∧
          p.src ∉ m.nextStepValues.map Prod.fst) ∧
      let m₁ := place p.src (.ofData p.data) m
      m₁.remoteUsers.card = m₁.nodes.card - 1 →
        (∀ e ∈ m₁.nextStepValues,
          e.2.stepId.toNat = m₁.currentStep.toNat + 1) ∧
        (m₁.nextStepValues.map Prod.fst).Nodup ∧
        m₁.nextStepValues.length ≤ n - 2 := by
  intro b
  obtain ⟨c, h⟩ : ∃ c, Apart ids c b :=
    Runs.run_inv (Apart.step g hids) ⟨_, Apart.start g drbg⟩ acts
  refine ⟨?_, ?_⟩
  · intro i j hi hj
    obtain ⟨hgoi, hlti⟩ := (h.party i).running hi
    obtain ⟨hgoj, hltj⟩ := (h.party j).running hj
    have hnear := h.near i j
    have hsenti := hgoi.sent
    have hsentj := hgoj.sent
    omega
  · intro i m p hp
    obtain ⟨taken, c', hgo, horder, hnext⟩ := h.offers hids hp
    have hnode := hgo.node
    have hmore := hp.more
    have hsrc := hp.src
    rw [hnode.nodes, card_nodeset hids] at hmore
    rw [hnode.nodes] at hsrc
    have hs : m.currentStep.toNat + 1 < n := by omega
    obtain ⟨k, hk, hk', hsize, hno⟩ := horder hp.cmd hsrc
    have hle := hnext hp.cmd hsrc
    obtain ⟨hplace, hcase⟩ := hnode.place hids hs hk hp.cmd hk' hno hle
    refine ⟨hsize, hnode.offered hs hk hk' hno hle, fun hfull => ?_⟩
    have hstep := (place_fields p.src (.ofData p.data) m).2.2
    rw [hplace.nodes, card_nodeset hids] at hfull
    have hcur : stepNo p = m.currentStep.toNat := by
      rcases hcase with ⟨hcur, -, -⟩ | hsame
      · exact hcur
      · have hlt := hgo.waiting hs
        rw [← hsame, hfull] at hlt
        omega
    have hcard := hplace.card_aside hids hs hk
      (by rw [cnt_self hp.cmd hk']; omega)
    rw [List.toFinset_card_of_nodup hplace.asideNodup, List.length_map] at hcard
    refine ⟨fun e he => ?_, hplace.asideNodup, hcard⟩
    rw [hstep]
    exact (hplace.aside hs e he).1

/-- Node 1 is a step ahead of node 0, whose queue has its packet for the next
step before the one of node 2 for this step. -/
theorem steps_apart_ahead :
    let acts := (aheadRun 0 1 2 true).take 9
    let b := Runs.run (step sevenPoints threeIds)
      (startWith sevenPoints fun i => some fun _ => fourTwoOne i) acts
    ((b.party 1).mka.currentStep = 1 ∧ (b.party 0).mka.currentStep = 0 ∧
      (b.party 0).inQ.map stepNo = [0, 1, 0]) ∧
    (∀ i j, (b.party i).mka.status = .running → (b.party j).mka.status = .running →
      (b.party i).mka.currentStep.toNat ≤ (b.party j).mka.currentStep.toNat + 1) :=
  ⟨by decide +kernel,
    (steps_apart sevenPoints (show Function.Injective threeIds by decide)
      (fun i => some fun _ => fourTwoOne i) ((aheadRun 0 1 2 true).take 9)).1⟩

end Agreement

end LibSmoke
