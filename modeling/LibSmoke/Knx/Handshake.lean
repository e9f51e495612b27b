import LibSmoke.Knx.MkaKeyExchange

/-!
# What a handshake reads and writes

Seen from outside, a handshake writes announcements and then one packet for each
step, and it is over for a node only when it has read a packet of the last step
from every other node. So the packet of the last step is the last one a node
writes, and who has completed has read it from everybody (`Shake.passed`).

None of this depends on the points being right, nor on how the network behaves.
-/

namespace LibSmoke

namespace Handshake

open MkaKeyExchange

/-- A packet of the exchange from `u` for step `s`. -/
def StepFrom (u : UInt16) (s : Nat) (p : Pkt) : Prop :=
  p.cmd = cmdMkaPacket ∧ p.src = u ∧ (MkaStep.ofData p.data).stepId.toNat = s

def Heard (seen : List Pkt) (u : UInt16) (s : Nat) : Prop :=
  ∃ p ∈ seen, StepFrom u s p

theorem Heard.append {seen : List Pkt} {u : UInt16} {s : Nat}
    (h : Heard seen u s) (more : List Pkt) : Heard (seen ++ more) u s := by
  obtain ⟨p, hp, hstep⟩ := h
  exact ⟨p, List.mem_append_left more hp, hstep⟩

/-- As many nodes as there are others were heard in step `s`. -/
def Passed (n : Nat) (seen : List Pkt) (s : Nat) : Prop :=
  ∃ us : Finset UInt16, us.card = n - 1 ∧ ∀ u ∈ us, Heard seen u s

theorem Passed.append {n : Nat} {seen : List Pkt} {s : Nat}
    (h : Passed n seen s) (more : List Pkt) : Passed n (seen ++ more) s := by
  obtain ⟨us, hcard, hus⟩ := h
  exact ⟨us, hcard, fun u hu => (hus u hu).append more⟩

/-! ## What the exchange reads -/

/-- A running exchange among `n` nodes that has read `seen`. -/
structure Running (n : Nat) (seen : List Pkt) (m : MkaKeyExchange) : Prop where
  card : m.nodes.card = n
  two : 2 ≤ n
  small : n ≤ 255
  step : m.currentStep.toNat ≤ n - 1
  users : ∀ u ∈ m.remoteUsers, Heard seen u m.currentStep.toNat
  aside : ∀ e ∈ m.nextStepValues, Heard seen e.1 e.2.stepId.toNat
  before : ∀ s, m.currentStep.toNat = s + 1 → Passed n seen s

section Exchange

variable {n : Nat} {seen : List Pkt} {m : MkaKeyExchange}

theorem Running.append (h : Running n seen m) (more : List Pkt) :
    Running n (seen ++ more) m :=
  { h with
    users := fun u hu => (h.users u hu).append more
    aside := fun e he => (h.aside e he).append more
    before := fun s hs => (h.before s hs).append more }

theorem Running.insertKey (h : Running n seen m) {src : UInt16}
    (hsrc : Heard seen src m.currentStep.toNat) (point : List UInt8) :
    Running n seen (insertKey src point m) := by
  unfold MkaKeyExchange.insertKey
  split
  · exact h
  · exact { h with
      users := by
        intro u hu
        rcases Finset.mem_insert.mp hu with rfl | hu
        · exact hsrc
        · exact h.users u hu }

/-- A packet goes to its place. -/
theorem Running.place (h : Running n seen m) {p : Pkt}
    (hcmd : p.cmd = cmdMkaPacket) :
    Running n (seen ++ [p]) (place p.src (.ofData p.data) m) := by
  have hp : Heard (seen ++ [p]) p.src (MkaStep.ofData p.data).stepId.toNat :=
    ⟨p, List.mem_append_right _ (List.mem_singleton_self p), hcmd, rfl, rfl⟩
  have h' := h.append [p]
  unfold MkaKeyExchange.place
  split
  · next heq =>
      rw [heq] at hp
      exact h'.insertKey hp _
  · split
    · exact { h' with
        aside := by
          intro e he
          rcases List.mem_append.mp he with he | he
          · exact h'.aside e he
          · rw [List.mem_singleton.mp he]
            exact hp }
    · exact h'

/-- A step is over when all others were heard. -/
theorem Running.advance (h : Running n seen m)
    (hfull : m.remoteUsers.card = n - 1) (hlt : m.currentStep.toNat < n - 1)
    (ctx : MkaContext) :
    Running n seen { m with
      ctx := ctx, remoteUsers := ∅, currentStep := m.currentStep + 1 } := by
  have hsucc := succ_toNat hlt h.small
  exact { h with
    step := by
      rw [hsucc]
      exact hlt
    users := fun u hu => absurd hu (Finset.notMem_empty u)
    before := by
      intro s hs
      rw [hsucc] at hs
      cases hs
      exact ⟨m.remoteUsers, hfull, h.users⟩ }

theorem Running.useAside (h : Running n seen m) (mka : MkaStep) :
    Running n seen (useAside mka m) := by
  refine useAside_rule mka { h with aside := fun e he => by cases he } ?_
  intro e he m' h' hstep
  refine h'.insertKey ?_ mka.key
  rw [← hstep]
  exact h.aside e he

theorem Running.read (h : Running n seen m) {p : Pkt}
    (hcmd : p.cmd = cmdMkaPacket) (hlt : m.currentStep.toNat < n - 1)
    {m' : MkaKeyExchange} {w' : List Outgoing} (hupd : Update p m (m', w', true)) :
    Running n (seen ++ [p]) m' := by
  have hplace := h.place hcmd
  obtain ⟨-, -, hstep⟩ := place_fields p.src (.ofData p.data) m
  rw [← hstep] at hlt
  cases hupd with
  | skip => exact h.append [p]
  | wait _ hm' => exact hm' ▸ hplace
  | last _ hm' hfull =>
      subst hm'
      rw [hplace.card] at hfull
      exact hplace.advance hfull hlt _
  | next _ hm' hfull =>
      subst hm'
      rw [hplace.card] at hfull
      exact (hplace.advance hfull hlt _).useAside _

/-! ## What the exchange writes -/

/-- The packet for step `i`. -/
def Rung (i : Nat) (o : Outgoing) : Prop :=
  o.dest = broadcastAddr ∧ o.cmd = cmdMkaPacket ∧ o.body.length = mkaStepSize ∧
    (MkaStep.ofData o.body).stepId.toNat = i

/-- One packet for each step from the first on. -/
def Ladder (ks : List Outgoing) : Prop :=
  ∀ i o, ks[i]? = some o → Rung i o

theorem rung_stepPacket (step : UInt8) (point : List UInt8) :
    Rung step.toNat (stepPacket step point) := by
  refine ⟨rfl, rfl, ?_, rfl⟩
  simp only [stepPacket, List.length_cons, List.length_take, List.length_append,
    List.length_replicate, mkaStepSize]
  omega

theorem Ladder.nil : Ladder [] := by
  intro i o h
  cases h

theorem Ladder.append {ks : List Outgoing} (h : Ladder ks) {o : Outgoing}
    (ho : Rung ks.length o) : Ladder (ks ++ [o]) := by
  intro i o' hi
  by_cases hlt : i < ks.length
  · rw [List.getElem?_append_left hlt] at hi
    exact h i o' hi
  · rw [List.getElem?_append_right (Nat.le_of_not_lt hlt),
      List.getElem?_singleton] at hi
    split at hi
    · next heq =>
        cases hi
        have : i = ks.length := by omega
        exact this ▸ ho
    · cases hi

/-- The exchange has written the packets of all steps it has begun. -/
def Climbed (n : Nat) (ks : List Outgoing) (m : MkaKeyExchange) : Prop :=
  Ladder ks ∧ ks.length = min (m.currentStep.toNat + 1) (n - 1)

theorem Climbed.read {ks : List Outgoing} (hk : Climbed n ks m)
    (h : Running n seen m) {p : Pkt} (hlt : m.currentStep.toNat < n - 1)
    {m' : MkaKeyExchange} {w' : List Outgoing} (hupd : Update p m (m', w', true)) :
    Climbed n (ks ++ w') m' := by
  obtain ⟨-, hnodes, hstep⟩ := place_fields p.src (.ofData p.data) m
  have hsucc := succ_toNat hlt h.small
  obtain ⟨hladder, hlen⟩ := hk
  cases hupd with
  | skip =>
      rw [List.append_nil]
      exact ⟨hladder, hlen⟩
  | wait _ hm' =>
      rw [List.append_nil, ← hm']
      exact ⟨hladder, by rw [hstep]; exact hlen⟩
  | last _ hm' _ _ hlast =>
      subst hm'
      rw [List.append_nil]
      refine ⟨hladder, ?_⟩
      show ks.length = min ((_ + 1 : UInt8).toNat + 1) (n - 1)
      rw [hstep, hnodes, h.card, hsucc] at hlast
      rw [hstep, hsucc, hlen]
      omega
  | next _ hm' _ _ hlast =>
      subst hm'
      rw [hstep, hnodes, h.card, hsucc] at hlast
      have hrung := rung_stepPacket (m.currentStep + 1)
      have hnext : ks.length = (m.currentStep + 1).toNat := by
        rw [hsucc, hlen]
        omega
      rw [← hnext] at hrung
      refine ⟨?_, ?_⟩
      · rw [hstep]
        exact hladder.append (hrung _)
      · rw [(useAside_fields ..).2.2]
        show (ks ++ [_]).length = min ((_ + 1 : UInt8).toNat + 1) (n - 1)
        rw [hstep, hsucc, List.length_append, List.length_singleton, hlen]
        omega

/-! ## The exchange in a call -/

theorem readLoop_runs {ks : List Outgoing} (h : Running n seen m)
    (hk : Climbed n ks m) (q : List Pkt) :
    (Ladder (ks ++ (readLoop q m).wrote) ∧
      (ks ++ (readLoop q m).wrote).length ≤ n - 1) ∧
    ((readLoop q m).ok = true →
      Running n (seen ++ (readLoop q m).taken q) (readLoop q m).state ∧
      Climbed n (ks ++ (readLoop q m).wrote) (readLoop q m).state) := by
  let I : List Pkt → MkaKeyExchange → List Outgoing → Prop := fun t m' w =>
    Running n (seen ++ t) m' ∧ Climbed n (ks ++ w) m'
  let J : List Pkt → MkaKeyExchange → List Outgoing → Prop := fun _ _ w =>
    Ladder (ks ++ w) ∧ (ks ++ w).length ≤ n - 1
  have hJ : ∀ {t m' w}, I t m' w → J t m' w := by
    intro t m' w h'
    refine ⟨h'.2.1, ?_⟩
    rw [h'.2.2]
    exact Nat.min_le_right _ _
  have hloop := readLoop_rule (I := I) (J := J) (P := fun _ _ => True)
    (q := q) (t := []) (m := m) (w := [])
    (by
      intro t m' w p h' _
      refine ⟨?_, h'.2⟩
      rw [← List.append_assoc]
      exact h'.1.append [p])
    (by
      intro t m' w p h' _ hcmd _ hlt m'' w' hupd
      rw [h'.1.card] at hlt
      refine ⟨?_, ?_⟩
      · rw [← List.append_assoc]
        exact h'.1.read hcmd hlt hupd
      · rw [← List.append_assoc]
        exact h'.2.read h'.1 hlt hupd)
    (fun t m' w p h' m'' _ _ => hJ h') (fun _ _ _ _ => trivial)
    ⟨by rw [List.append_nil]; exact h, by rw [List.append_nil]; exact hk⟩
  rw [List.nil_append, List.nil_append] at hloop
  split at hloop
  · exact ⟨hJ hloop, fun _ => hloop⟩
  · next hok => exact ⟨hloop, fun h' => absurd h' hok⟩

theorem update_runs {ks : List Outgoing} (h : Running n seen m)
    (hk : Climbed n ks m) (hrun : m.status = .running) (q : List Pkt) :
    (Ladder (ks ++ (update q m).wrote) ∧
      (ks ++ (update q m).wrote).length ≤ n - 1) ∧
    ((update q m).state.status = .running →
      Running n (seen ++ (update q m).taken q) (update q m).state ∧
      Climbed n (ks ++ (update q m).wrote) (update q m).state) ∧
    ((update q m).state.status = .completed →
      Passed n (seen ++ (update q m).taken q) (n - 2)) := by
  obtain ⟨hall, hon⟩ := readLoop_runs h hk q
  obtain ⟨hrest, hwrote, hcase⟩ := update_cases q hrun
  have htaken : (update q m).taken q = (readLoop q m).taken q := by
    rw [Act.taken, Act.taken, hrest]
  rw [hwrote, htaken]
  refine ⟨hall, ?_⟩
  generalize (update q m).state = m', (update q m).ok = ok at hcase ⊢
  cases hcase with
  | failed herr =>
      rw [herr]
      refine ⟨?_, ?_⟩ <;> intro h' <;> cases h'
  | completed hok hstep =>
      refine ⟨?_, fun _ => ?_⟩
      · intro h'
        cases h'
      obtain ⟨hread, -⟩ := hon hok
      have htwo := hread.two
      refine hread.before (n - 2) ?_
      rw [hstep, hread.card]
      omega
  | running hok hstatus =>
      refine ⟨fun _ => hon hok, fun h' => ?_⟩
      cases hstatus.symm.trans h'

/-- The first packet is that of the first step. -/
theorem init_runs (g : EcpGroup) {nodes : Finset UInt16} (hcard : nodes.card = n)
    (hfresh : m.nextStepValues = []) (hoff : m.status = .offline)
    (seen : List Pkt) :
    (init g nodes m).1.status ≠ .completed ∧
    (Ladder (init g nodes m).2.1 ∧ (init g nodes m).2.1.length ≤ n - 1) ∧
    ((init g nodes m).1.status = .running →
      Running n seen (init g nodes m).1 ∧
      Climbed n (init g nodes m).2.1 (init g nodes m).1) := by
  rcases init_cases g nodes m with
    heq | ⟨herr, hw⟩ | ⟨_, _, _, point, _, hlo, hhi, -, -, -, heq⟩
  · rw [heq, hoff]
    exact ⟨by simp, ⟨.nil, Nat.zero_le _⟩, fun h => by cases h⟩
  · rw [herr, hw]
    exact ⟨by simp, ⟨.nil, Nat.zero_le _⟩, fun h => by cases h⟩
  · rw [hcard] at hlo hhi
    have hladder : Ladder [stepPacket 0 point] :=
      Ladder.nil.append (rung_stepPacket 0 point)
    rw [heq]
    refine ⟨by simp, ⟨hladder, by rw [List.length_singleton]; omega⟩, fun _ => ?_⟩
    refine ⟨?_, hladder, ?_⟩
    · exact {
        card := hcard
        two := hlo
        small := hhi
        step := Nat.zero_le _
        users := fun u hu => absurd hu (Finset.notMem_empty u)
        aside := by
          intro e he
          rw [hfresh] at he
          cases he
        before := fun s hs => by cases hs }
    · show 1 = min (0 + 1) (n - 1)
      omega

end Exchange

/-! ## A whole handshake -/

/-- Announcements, and then a packet for each step. -/
def Shape (n : Nat) (wrote : List Outgoing) : Prop :=
  ∃ k ks, wrote = List.replicate k (.bare thatsMe) ++ ks ∧ Ladder ks ∧
    ks.length ≤ n - 1

/-- A handshake among `n` nodes that has written `wrote` and taken `seen` off
its queue. -/
structure Shake (n : Nat) (x : Sknx MkaKeyExchange) (wrote : List Outgoing)
    (seen : List Pkt) : Prop where
  shape : Shape n wrote
  counting : x.status = .counting →
    (∃ k, wrote = List.replicate k (.bare thatsMe)) ∧
    x.key.nextStepValues = [] ∧ x.key.status = .offline ∧
    (x.counter.status ≠ .counting ∨ x.counter.updateLoopsRemaining > 0 →
      x.counter.nodes.card = n)
  running : x.status = .handshaking → x.key.status = .running →
    Running n seen x.key ∧
    ∃ k ks, wrote = List.replicate k (.bare thatsMe) ++ ks ∧ Climbed n ks x.key
  passed : x.status ≠ .counting → x.key.status = .completed →
    Passed n seen (n - 2)
  done : x.status = .finalizing ∨ x.status = .online → x.key.status = .completed

theorem Shake.start (g : EcpGroup) (drbg : Option (Nat → Nat)) (id : UInt16)
    (n : Nat) : Shake n ((Sknx.new (.new g drbg)).init id).1 [] [] where
  shape := ⟨0, [], rfl, .nil, Nat.zero_le _⟩
  counting := by
    refine fun _ => ⟨⟨0, rfl⟩, rfl, rfl, ?_⟩
    rintro (h | h)
    · exact absurd rfl h
    · exact absurd h (Nat.lt_irrefl 0)
  running := fun h => by cases h
  passed := fun h => absurd rfl h
  done := by
    rintro (h | h) <;> cases h

section Turn

variable {g : EcpGroup} {N : UInt8} {n : Nat} {x : Sknx MkaKeyExchange}
  {wrote : List Outgoing} {seen : List Pkt}

/-- Nothing is read or written, and the exchange does not run on. -/
theorem Shake.idle (h : Shake n x wrote seen) {y : Sknx MkaKeyExchange}
    (hcount : y.status ≠ .counting)
    (hrun : y.status = .handshaking → y.key.status ≠ .running)
    (hkey : y.key.status = .completed → Passed n seen (n - 2))
    (hdone : y.status = .finalizing ∨ y.status = .online →
      y.key.status = .completed) : Shake n y wrote seen where
  shape := h.shape
  counting := fun h' => absurd h' hcount
  running := fun h' hr => absurd hr (hrun h')
  passed := fun _ => hkey
  done := hdone

theorem Shake.updateCounter (h : Shake N.toNat x wrote seen)
    (hc : x.status = .counting) (q : List Pkt) :
    let a := Sknx.updateCounter (mkaKeyExchange g) N q x
    Shake N.toNat a.state (wrote ++ a.wrote) (seen ++ a.taken q) := by
  obtain ⟨⟨k, rfl⟩, haside, hoff, hfound⟩ := h.counting hc
  unfold Sknx.updateCounter
  cases hcs : x.counter.status with
  | offline =>
      simp only []
      rw [Act.taken_of_rest rfl, List.append_nil, List.append_nil]
      refine h.idle (by simp) (by simp) ?_ (by simp)
      intro h'
      cases hoff.symm.trans h'
  | counting =>
      obtain ⟨hrest, hnodes, hwrote, hok⟩ :=
        DummyNodeCounter.update_counting (N := N) (q := q) hcs
      simp only [hok, if_true]
      have hbare : ∃ k', List.replicate k (Outgoing.bare thatsMe) ++
          (x.counter.update N q).wrote = List.replicate k' (.bare thatsMe) := by
        rw [hwrote]
        split
        · exact ⟨k + 1, List.replicate_succ'.symm⟩
        · exact ⟨k, List.append_nil _⟩
      exact {
        shape := by
          obtain ⟨k', hk'⟩ := hbare
          exact ⟨k', [], hk'.trans (List.append_nil _).symm, .nil, Nat.zero_le _⟩
        counting := by
          refine fun _ => ⟨hbare, haside, hoff, ?_⟩
          intro h'
          refine DummyNodeCounter.update_found hcs ?_ h'.symm
          exact fun hloops => hfound (.inr hloops)
        running := by
          intro h'
          cases hc.symm.trans h'
        passed := fun h' => absurd hc h'
        done := by
          rintro (h' | h') <;> cases hc.symm.trans h' }
  | completed =>
      have hcard : x.counter.nodes.card = N.toNat :=
        hfound (.inl (by rw [hcs]; simp))
      obtain ⟨hnot, ⟨hladder, hlen⟩, hrun⟩ :=
        init_runs g hcard haside hoff (seen ++ [])
      have hshape : Shape N.toNat (List.replicate k (.bare thatsMe) ++
          (init g x.counter.nodes x.key).2.1) := ⟨k, _, rfl, hladder, hlen⟩
      simp only []
      split
      · rw [Act.taken_of_rest rfl]
        exact {
          shape := hshape
          counting := fun h' => by cases h'
          running := fun _ hr => ⟨(hrun hr).1, k, _, rfl, (hrun hr).2⟩
          passed := fun _ h' => absurd h' hnot
          done := by
            rintro (h' | h') <;> cases h' }
      · rw [Act.taken_of_rest rfl]
        exact {
          shape := hshape
          counting := fun h' => by cases h'
          running := fun h' => by cases h'
          passed := fun _ h' => absurd h' hnot
          done := by
            rintro (h' | h') <;> cases h' }

theorem Shake.updateHandshaking (h : Shake n x wrote seen)
    (hs : x.status = .handshaking) (q : List Pkt) :
    let a := Sknx.updateHandshaking (mkaKeyExchange g) q x
    Shake n a.state (wrote ++ a.wrote) (seen ++ a.taken q) := by
  have hpassed : x.key.status = .completed → Passed n seen (n - 2) :=
    h.passed (by rw [hs]; simp)
  have hstatus : (mkaKeyExchange g).status x.key = x.key.status := rfl
  unfold Sknx.updateHandshaking
  cases hk : x.key.status with
  | offline =>
      simp only [hstatus, hk]
      rw [Act.taken_of_rest rfl, List.append_nil, List.append_nil]
      exact h.idle (by simp) (by simp) hpassed (by simp)
  | error =>
      simp only [hstatus, hk]
      rw [Act.taken_of_rest rfl, List.append_nil, List.append_nil]
      exact h.idle (by simp) (by simp) (fun h' => by cases h') (by simp)
  | completed =>
      simp only [hstatus, hk]
      rw [Act.taken_of_rest rfl, List.append_nil, List.append_nil]
      exact h.idle (by simp) (by simp) hpassed fun _ => hk
  | running =>
      obtain ⟨hrun, k, ks, rfl, hclimbed⟩ := h.running hs hk
      obtain ⟨⟨hladder, hlen⟩, hon, hover⟩ := update_runs hrun hclimbed hk q
      have hshape : Shape n (List.replicate k (.bare thatsMe) ++ ks ++
          (MkaKeyExchange.update q x.key).wrote) :=
        ⟨k, _, List.append_assoc .., hladder, hlen⟩
      simp only [hstatus, hk]
      by_cases hok : ((mkaKeyExchange g).update q x.key).ok = true
      · rw [if_pos hok]
        exact {
          shape := hshape
          counting := fun h' => by cases hs.symm.trans h'
          running := fun _ hr => ⟨(hon hr).1, k, _, List.append_assoc .., (hon hr).2⟩
          passed := fun _ => hover
          done := by
            rintro (h' | h') <;> cases hs.symm.trans h' }
      · rw [if_neg hok]
        exact {
          shape := hshape
          counting := fun h' => by cases h'
          running := fun h' => by cases h'
          passed := fun _ h' => by cases h'
          done := by
            rintro (h' | h') <;> cases h' }

/-- One turn. -/
theorem Shake.turn (h : Shake N.toNat x wrote seen) (mustUpdate : Bool)
    (q : List Pkt) :
    let a := Sknx.turn (mkaKeyExchange g) N mustUpdate q x
    Shake N.toNat a.state (wrote ++ a.wrote) (seen ++ a.taken q) := by
  unfold Sknx.turn
  cases hs : x.status with
  | offline =>
      simp only []
      rw [Act.taken_of_rest rfl, List.append_nil, List.append_nil]
      exact h
  | counting => exact h.updateCounter hs q
  | handshaking => exact h.updateHandshaking hs q
  | finalizing =>
      have hdone := h.done (.inl hs)
      simp only []
      split
      · rw [Act.taken_of_rest rfl, List.append_nil, List.append_nil]
        exact h
      · rw [Act.taken_of_rest rfl, List.append_nil, List.append_nil]
        exact h.idle (by simp) (by simp) (h.passed (by rw [hs]; simp))
          fun _ => hdone
  | online =>
      simp only []
      rw [Act.taken_of_rest rfl, List.append_nil, List.append_nil]
      exact h

end Turn

/-- The packet of the last step is the last one written. -/
theorem Shape.last {n : Nat} {pre post : List Outgoing} {p : Outgoing}
    (h : Shape n (pre ++ p :: post)) (hcmd : p.cmd = cmdMkaPacket)
    (hstep : (MkaStep.ofData p.body).stepId.toNat = n - 2) (hn : 2 ≤ n) :
    post = [] := by
  obtain ⟨k, ks, heq, hladder, hlen⟩ := h
  have hat : (List.replicate k (Outgoing.bare thatsMe) ++ ks)[pre.length]? =
      some p := by
    rw [← heq, List.getElem?_append_right (Nat.le_refl _), Nat.sub_self]
    rfl
  have hlate : k ≤ pre.length := by
    by_contra hlt
    rw [List.getElem?_append_left (by rw [List.length_replicate]; omega),
      List.getElem?_replicate_of_lt (by omega)] at hat
    cases hat
    exact absurd hcmd (by decide)
  rw [List.getElem?_append_right (by rw [List.length_replicate]; exact hlate),
    List.length_replicate] at hat
  have hindex := (hladder _ p hat).2.2.2
  have htotal := congrArg List.length heq
  rw [List.length_append, List.length_append, List.length_replicate,
    List.length_cons] at htotal
  exact List.length_eq_zero_iff.mp (by omega)

/-- The packets of a handshake go to everybody and are short. -/
theorem Shape.mem {n : Nat} {wrote : List Outgoing} (h : Shape n wrote)
    {p : Outgoing} (hp : p ∈ wrote) :
    p.dest = broadcastAddr ∧ p.body.length ≤ mkaStepSize := by
  obtain ⟨k, ks, rfl, hladder, -⟩ := h
  rcases List.mem_append.mp hp with hp | hp
  · rw [List.eq_of_mem_replicate hp]
    exact ⟨rfl, Nat.zero_le _⟩
  · obtain ⟨i, hi⟩ := List.mem_iff_getElem?.mp hp
    obtain ⟨hdest, -, hlen, -⟩ := hladder i p hi
    exact ⟨hdest, Nat.le_of_eq hlen⟩

theorem Shape.fits {n : Nat} {wrote : List Outgoing} (h : Shape n wrote) :
    ∀ p ∈ wrote, p.body.length + 3 ≤ ringCapacity := by
  intro p hp
  have hlen := (h.mem hp).2
  rw [mkaStepSize, mkaBufsize] at hlen
  rw [ringCapacity]
  omega

end Handshake

end LibSmoke
