import LibSmoke.Knx.Leftovers

/-!
# The copies into the key buffer

`MKAKeyExchange` writes a point behind those it has, as many places in as there
are senders. The buffer has a place for every other node, so a copy stays inside
as long as the senders are other nodes of the session (`Copy.Inside`). A packet is
read only from a node of the session, but a point that was put aside is taken
without a further look at its sender, and the queue of such points outlives the
session they came in. What a new session has to find there, and in the set of
senders should it fail, is `Clear`; from there on the bound holds in every run
(`MkaKeyExchange.copies_inside`).
-/

namespace LibSmoke

open Runs

/-- A copy into the buffer for the point of `src`, when the points of `users` are
there and the session is one of `nodes`. -/
structure Copy where
  src : UInt16
  users : Finset UInt16
  nodes : Finset UInt16
  point : List UInt8
  deriving DecidableEq

namespace Copy

/-- Where the copy begins. -/
def start (c : Copy) : Nat := c.users.card * mkaBufsize

/-- The copy goes to a place of the buffer, and with it the senders are still
other nodes. -/
def Inside (id : UInt16) (c : Copy) : Prop :=
  (∃ pos < c.nodes.card - 1, c.start = pos * mkaBufsize) ∧
    insert c.src c.users ⊆ c.nodes.erase id

/-- The buffer after some copies. -/
def replay (keys : List UInt8) (copies : List Copy) : List UInt8 :=
  copies.foldl (fun keys c => memcpy keys c.start c.point) keys

theorem replay_append (keys : List UInt8) (cs cs' : List Copy) :
    replay keys (cs ++ cs') = replay (replay keys cs) cs' :=
  List.foldl_append ..

theorem inside {id src : UInt16} {users nodes : Finset UInt16} {point : List UInt8}
    (hid : id ∈ nodes) (hnew : src ∉ users) (hsrc : src ∈ nodes.erase id)
    (husers : users ⊆ nodes.erase id) : Inside id ⟨src, users, nodes, point⟩ := by
  have hsub : insert src users ⊆ nodes.erase id := Finset.insert_subset hsrc husers
  have hcard := Finset.card_le_card hsub
  rw [Finset.card_insert_of_notMem hnew, Finset.card_erase_of_mem hid] at hcard
  exact ⟨⟨users.card, by show users.card < nodes.card - 1; omega, rfl⟩, hsub⟩

end Copy

namespace MkaKeyExchange

variable (g : EcpGroup) (id : UInt16)

/-! ## The copies of a call -/

def insertCopies (src : UInt16) (point : List UInt8) (m : MkaKeyExchange) : List Copy :=
  if src ∈ m.remoteUsers then [] else [⟨src, m.remoteUsers, m.nodes, point⟩]

def asideCopies (mka : MkaStep) : List (UInt16 × MkaStep) → MkaKeyExchange → List Copy
  | [], _ => []
  | mks :: aside, m =>
      if mks.2.stepId ≠ m.currentStep then asideCopies mka aside m
      else insertCopies mks.1 mka.key m ++
        asideCopies mka aside (insertKey mks.1 mka.key m)

def placeCopies (src : UInt16) (mka : MkaStep) (m : MkaKeyExchange) : List Copy :=
  if mka.stepId = m.currentStep then insertCopies src mka.key m else []

def finishCopies (mka : MkaStep) (m : MkaKeyExchange) : List Copy :=
  match mkaAccBroadval m.ctx m.remoteKeys with
  | .error _ => []
  | .ok ctx =>
      let m := { m with
        ctx := ctx
        remoteUsers := ∅
        currentStep := m.currentStep + 1 }
      if m.currentStep.toNat = m.nodes.card - 1 then []
      else
        let (m, _, ok) := cryptoBroadcast m
        if ok then asideCopies mka m.nextStepValues { m with nextStepValues := [] } else []

def updateCopies (packet : Pkt) (m : MkaKeyExchange) : List Copy :=
  if packet.data.length ≠ mkaStepSize then []
  else
    let mka := MkaStep.ofData packet.data
    let after := place packet.src mka m
    placeCopies packet.src mka m ++
      if after.remoteUsers.card = after.nodes.card - 1 then finishCopies mka after else []

def loopCopies : List Pkt → MkaKeyExchange → List Copy
  | [], _ => []
  | p :: q, m =>
      if m.currentStep.toNat < m.nodes.card - 1 then
        if p.cmd ≠ cmdMkaPacket then loopCopies q m
        else if p.src ∉ m.nodes then loopCopies q m
        else
          let (m', _, ok) := cryptoUpdate p m
          updateCopies p m ++ if ok then loopCopies q m' else []
      else []

/-- A call, and the copies it makes. Only `update` makes any. -/
def call (m : MkaKeyExchange) : Earlier (Option (Nat → Nat)) → MkaKeyExchange × List Copy
  | .seed d => (seed d m, [])
  | .init nodes => ((init g nodes m).1, [])
  | .update q => ((update q m).state, if m.status ≠ .running then [] else loopCopies q m)
  | .shutdown => (shutdown m, [])

/-! ## They make the buffer what it is -/

variable {g id} {m : MkaKeyExchange}

theorem insertCopies_replay (src : UInt16) (point : List UInt8) (m : MkaKeyExchange) :
    (insertKey src point m).remoteKeys =
      Copy.replay m.remoteKeys (insertCopies src point m) := by
  unfold insertKey insertCopies
  split <;> rfl

theorem asideCopies_replay (mka : MkaStep) (aside : List (UInt16 × MkaStep))
    (m : MkaKeyExchange) :
    (aside.foldl (fun m mks => if mks.2.stepId ≠ m.currentStep then m
      else insertKey mks.1 mka.key m) m).remoteKeys =
      Copy.replay m.remoteKeys (asideCopies mka aside m) := by
  induction aside generalizing m with
  | nil => rfl
  | cons mks aside ih =>
      rw [List.foldl_cons, asideCopies]
      split
      · exact ih m
      · rw [ih, insertCopies_replay, ← Copy.replay_append]

theorem placeCopies_replay (src : UInt16) (mka : MkaStep) (m : MkaKeyExchange) :
    (place src mka m).remoteKeys = Copy.replay m.remoteKeys (placeCopies src mka m) := by
  unfold place placeCopies
  split
  · exact insertCopies_replay ..
  · split <;> rfl

theorem finishCopies_replay (mka : MkaStep) (m : MkaKeyExchange) :
    (finishStep mka m).1.remoteKeys = Copy.replay m.remoteKeys (finishCopies mka m) := by
  unfold finishStep finishCopies
  cases mkaAccBroadval m.ctx m.remoteKeys with
  | error e => rfl
  | ok ctx =>
      simp only []
      split
      · rfl
      · unfold cryptoBroadcast
        simp only []
        cases mkaMakeBroadval ctx mkaBufsize with
        | error e => rfl
        | ok res => exact asideCopies_replay ..

theorem updateCopies_replay (p : Pkt) (m : MkaKeyExchange) :
    (cryptoUpdate p m).1.remoteKeys = Copy.replay m.remoteKeys (updateCopies p m) := by
  unfold cryptoUpdate updateCopies
  split
  · rfl
  · simp only []
    rw [Copy.replay_append, ← placeCopies_replay]
    split
    · exact finishCopies_replay ..
    · rfl

theorem loopCopies_replay (q : List Pkt) (m : MkaKeyExchange) :
    (readLoop q m).state.remoteKeys = Copy.replay m.remoteKeys (loopCopies q m) := by
  induction q generalizing m with
  | nil => rfl
  | cons p q ih =>
      rw [readLoop, loopCopies]
      split
      · split
        · exact ih m
        · split
          · exact ih m
          · simp only []
            rw [Copy.replay_append, ← updateCopies_replay]
            split
            · exact ih _
            · rfl
      · rfl

/-- What `update` leaves of the fields a copy depends on is what its loop left. -/
theorem update_fields (q : List Pkt) (hrun : m.status = .running) :
    (update q m).state.remoteKeys = (readLoop q m).state.remoteKeys ∧
    (update q m).state.remoteUsers = (readLoop q m).state.remoteUsers ∧
    (update q m).state.nodes = (readLoop q m).state.nodes ∧
    ((update q m).state.status = .running → (update q m).state = (readLoop q m).state) := by
  unfold update
  rw [if_neg (not_not.mpr hrun)]
  simp only []
  split
  · exact ⟨rfl, rfl, rfl, fun _ => rfl⟩
  · split
    · split
      · exact ⟨rfl, rfl, rfl, fun h => by cases h⟩
      · exact ⟨rfl, rfl, rfl, fun h => by cases h⟩
    · exact ⟨rfl, rfl, rfl, fun _ => rfl⟩

theorem update_replay (q : List Pkt) (m : MkaKeyExchange) :
    (update q m).state.remoteKeys =
      Copy.replay m.remoteKeys (call g m (.update q)).2 := by
  by_cases hrun : m.status = .running
  · rw [(update_fields q hrun).1, loopCopies_replay]
    show _ = Copy.replay m.remoteKeys (if m.status ≠ .running then [] else loopCopies q m)
    rw [if_neg (not_not.mpr hrun)]
  · rw [update_idle q hrun]
    show _ = Copy.replay m.remoteKeys (if m.status ≠ .running then [] else loopCopies q m)
    rw [if_pos hrun]
    rfl

/-! ## The senders -/

/-- What holds of an object when nothing of other sessions is in the way. The
points put aside matter as long as there is a step they can be for. -/
structure Kept (id : UInt16) (m : MkaKeyExchange) : Prop where
  users : m.remoteUsers ⊆ m.nodes.erase id
  own : m.status = .running → id ∈ m.nodes
  bounded : Bounded m
  aside : m.status = .running → m.currentStep.toNat + 1 < m.nodes.card - 1 →
    ∀ e ∈ m.nextStepValues, e.2.stepId.toNat = m.currentStep.toNat + 1 →
      e.1 ∈ m.nodes.erase id

theorem Kept.failed {m' : MkaKeyExchange} (herr : m'.status = .error)
    (husers : m'.remoteUsers ⊆ m'.nodes.erase id) : Kept id m' := by
  have hnot : m'.status ≠ .running := by rw [herr]; simp
  exact ⟨husers, fun h => absurd h hnot, fun h => absurd h hnot, fun h => absurd h hnot⟩

theorem insert_inside (src : UInt16) (point : List UInt8) (hid : id ∈ m.nodes)
    (hsrc : src ∈ m.nodes.erase id) (h : m.remoteUsers ⊆ m.nodes.erase id) :
    (∀ c ∈ insertCopies src point m, c.Inside id) ∧
    (insertKey src point m).remoteUsers ⊆ m.nodes.erase id := by
  rw [insertKey_users]
  refine ⟨fun c hc => ?_, Finset.insert_subset hsrc h⟩
  unfold insertCopies at hc
  split at hc
  · cases hc
  · next hnew =>
      rw [List.mem_singleton.mp hc]
      exact Copy.inside hid hnew hsrc h

/-- The points put aside go to places of the buffer if all that are for the step
come from other nodes. -/
theorem aside_inside (mka : MkaStep) (aside : List (UInt16 × MkaStep))
    (hid : id ∈ m.nodes) (h : m.remoteUsers ⊆ m.nodes.erase id)
    (haside : ∀ e ∈ aside, e.2.stepId = m.currentStep → e.1 ∈ m.nodes.erase id) :
    (∀ c ∈ asideCopies mka aside m, c.Inside id) ∧
    (aside.foldl (fun m mks => if mks.2.stepId ≠ m.currentStep then m
      else insertKey mks.1 mka.key m) m).remoteUsers ⊆ m.nodes.erase id := by
  induction aside generalizing m with
  | nil => exact ⟨fun c hc => (by cases hc), h⟩
  | cons mks aside ih =>
      have hrest := fun e he => haside e (List.mem_cons_of_mem mks he)
      rw [List.foldl_cons, asideCopies]
      split
      · exact ih hid h hrest
      · next hstep =>
          have hsrc := haside mks List.mem_cons_self (not_not.mp hstep)
          obtain ⟨hone, husers⟩ := insert_inside mks.1 mka.key hid hsrc h
          obtain ⟨-, hnodes, hcur⟩ := insertKey_fields mks.1 mka.key m
          rw [← hnodes] at hid husers
          have hih := ih hid husers (by rw [hcur, hnodes]; exact hrest)
          rw [hnodes] at hih
          refine ⟨fun c hc => ?_, hih.2⟩
          exact (List.mem_append.mp hc).elim (hone c) (hih.1 c)

theorem Kept.place (h : Kept id m) (hrun : m.status = .running) {src : UInt16}
    (hsrc : src ∈ m.nodes.erase id) (mka : MkaStep) :
    (∀ c ∈ placeCopies src mka m, c.Inside id) ∧ Kept id (place src mka m) := by
  have hid := h.own hrun
  unfold placeCopies MkaKeyExchange.place
  split
  · obtain ⟨hone, husers⟩ := insert_inside src mka.key hid hsrc h.users
    obtain ⟨hstatus, hnodes, hcur⟩ := insertKey_fields src mka.key m
    obtain ⟨-, haside⟩ := insertKey_kept src mka.key m
    refine ⟨hone, ?_, ?_, ?_, ?_⟩
    · rw [hnodes]
      exact husers
    · rw [hnodes]
      exact fun _ => hid
    · intro _
      rw [hnodes, hcur]
      exact h.bounded hrun
    · intro _
      rw [hnodes, hcur, haside]
      exact h.aside hrun
  · refine ⟨fun c hc => (by cases hc), ?_⟩
    split
    · refine ⟨h.users, h.own, h.bounded, fun _ hlt e he hstep => ?_⟩
      rcases List.mem_append.mp he with he | he
      · exact h.aside hrun hlt e he hstep
      · rw [List.mem_singleton.mp he]
        exact hsrc
    · exact h

theorem Kept.finish (h : Kept id m) (hrun : m.status = .running)
    (hlt : m.currentStep.toNat < m.nodes.card - 1) (mka : MkaStep) :
    (∀ c ∈ finishCopies mka m, c.Inside id) ∧ Kept id (finishStep mka m).1 := by
  have hid := h.own hrun
  obtain ⟨h2, h255, -⟩ := h.bounded hrun
  have hsucc := succ_toNat hlt h255
  unfold finishCopies finishStep
  cases mkaAccBroadval m.ctx m.remoteKeys with
  | error e => exact ⟨fun c hc => (by cases hc), Kept.failed rfl h.users⟩
  | ok ctx =>
      simp only []
      split
      · next hlast =>
          refine ⟨fun c hc => (by cases hc), Finset.empty_subset _, fun _ => hid,
            fun _ => ⟨h2, h255, Nat.le_of_eq hlast⟩, fun _ hlt' => ?_⟩
          exact absurd hlt' (by show ¬ (m.currentStep + 1).toNat + 1 < m.nodes.card - 1; omega)
      · next hlast =>
          unfold cryptoBroadcast
          simp only []
          cases mkaMakeBroadval ctx mkaBufsize with
          | error e => exact ⟨fun c hc => (by cases hc), Kept.failed rfl (Finset.empty_subset _)⟩
          | ok res =>
              simp only [if_true]
              have hfrom : ∀ e ∈ m.nextStepValues, e.2.stepId = m.currentStep + 1 →
                  e.1 ∈ m.nodes.erase id := fun e he hstep =>
                h.aside hrun (by omega) e he (by rw [hstep, hsucc])
              obtain ⟨hcopies, husers⟩ := aside_inside mka m.nextStepValues
                (m := { m with
                  ctx := res.1
                  remoteUsers := ∅
                  currentStep := m.currentStep + 1
                  nextStepValues := [] }) hid (Finset.empty_subset _) hfrom
              refine ⟨hcopies, ?_⟩
              obtain ⟨-, hnodes, hcur⟩ := useAside_fields mka { m with
                ctx := res.1
                remoteUsers := ∅
                currentStep := m.currentStep + 1 }
              have hnone := useAside_empties mka { m with
                ctx := res.1
                remoteUsers := ∅
                currentStep := m.currentStep + 1 }
              refine ⟨?_, ?_, ?_, ?_⟩
              · rw [hnodes]
                exact husers
              · rw [hnodes]
                exact fun _ => hid
              · intro _
                rw [hnodes, hcur]
                exact ⟨h2, h255, by show (m.currentStep + 1).toNat ≤ _; simp only []; omega⟩
              · intro _ _ e he
                rw [hnone] at he
                cases he

theorem Kept.packet (h : Kept id m) (hrun : m.status = .running)
    (hlt : m.currentStep.toNat < m.nodes.card - 1) {p : Pkt}
    (hsrc : p.src ∈ m.nodes.erase id) :
    (∀ c ∈ updateCopies p m, c.Inside id) ∧ Kept id (cryptoUpdate p m).1 := by
  unfold updateCopies cryptoUpdate
  split
  · exact ⟨fun c hc => (by cases hc), h⟩
  · obtain ⟨hplace, hkept⟩ := h.place hrun hsrc (.ofData p.data)
    obtain ⟨hstatus, hnodes, hcur⟩ := place_fields p.src (.ofData p.data) m
    simp only []
    split
    · obtain ⟨hfinish, hkept⟩ := hkept.finish (hstatus.trans hrun)
        (by rw [hnodes, hcur]; exact hlt) (.ofData p.data)
      exact ⟨fun c hc => (List.mem_append.mp hc).elim (hplace c) (hfinish c), hkept⟩
    · rw [List.append_nil]
      exact ⟨hplace, hkept⟩

theorem Kept.loop (h : Kept id m) (hrun : m.status = .running) {q : List Pkt}
    (hq : ∀ p ∈ q, p.src ≠ id) :
    (∀ c ∈ loopCopies q m, c.Inside id) ∧ Kept id (readLoop q m).state := by
  induction q generalizing m with
  | nil => exact ⟨fun c hc => (by cases hc), h⟩
  | cons p q ih =>
      have hq' := fun p' hp' => hq p' (List.mem_cons_of_mem p hp')
      rw [readLoop, loopCopies]
      split
      · next hlt =>
          split
          · exact ih h hrun hq'
          · split
            · exact ih h hrun hq'
            · next hsrc =>
                have hother : p.src ∈ m.nodes.erase id :=
                  Finset.mem_erase.mpr ⟨hq p List.mem_cons_self, not_not.mp hsrc⟩
                obtain ⟨hone, hkept⟩ := h.packet hrun hlt hother
                have hstatus := (cryptoUpdate_cases p m).status_eq
                simp only []
                split
                · next hok =>
                    rw [if_pos hok, hrun] at hstatus
                    obtain ⟨hrest, hkept⟩ := ih hkept hstatus hq'
                    exact ⟨fun c hc => (List.mem_append.mp hc).elim (hone c) (hrest c), hkept⟩
                · rw [List.append_nil]
                  exact ⟨hone, hkept⟩
      · exact ⟨fun c hc => (by cases hc), h⟩

theorem Kept.update (h : Kept id m) {q : List Pkt} (hq : ∀ p ∈ q, p.src ≠ id) :
    (∀ c ∈ (call g m (.update q)).2, c.Inside id) ∧
    Kept id (call g m (.update q)).1 := by
  show (∀ c ∈ if m.status ≠ .running then [] else loopCopies q m, c.Inside id) ∧
    Kept id (MkaKeyExchange.update q m).state
  by_cases hrun : m.status = .running
  · obtain ⟨hcopies, hkept⟩ := h.loop hrun hq
    obtain ⟨-, husers, hnodes, hsame⟩ := update_fields q hrun
    rw [if_neg (not_not.mpr hrun)]
    refine ⟨hcopies, ?_, ?_, update_bounded q h.bounded, ?_⟩
    · rw [husers, hnodes]
      exact hkept.users
    · intro hafter
      have hsame := hsame hafter
      rw [hsame] at hafter ⊢
      exact hkept.own hafter
    · intro hafter
      have hsame := hsame hafter
      rw [hsame] at hafter ⊢
      exact hkept.aside hafter
  · rw [if_pos hrun, update_idle q hrun]
    exact ⟨fun c hc => (by cases hc), h⟩

/-! ## A run -/

/-- A session is of the own node and one to 254 others, and no packet is its own. -/
def Fits (id : UInt16) : Earlier (Option (Nat → Nat)) → Prop
  | .init nodes => id ∈ nodes ∧ 2 ≤ nodes.card ∧ nodes.card ≤ 255
  | .update q => ∀ p ∈ q, p.src ≠ id
  | _ => True

instance Fits.decidable (id : UInt16) : ∀ x, Decidable (Fits id x)
  | .seed _ => .isTrue trivial
  | .init nodes => inferInstanceAs (Decidable (id ∈ nodes ∧ 2 ≤ nodes.card ∧ nodes.card ≤ 255))
  | .update q => inferInstanceAs (Decidable (∀ p ∈ q, p.src ≠ id))
  | .shutdown => .isTrue trivial

/-- What `init` has to find on an object that is shut down. Where there is a second
step, whoever has a point aside for it is another node of the session; and so is
every sender that is left, unless a key pair can be drawn. -/
def Clear (g : EcpGroup) (id : UInt16) (m : MkaKeyExchange) :
    Earlier (Option (Nat → Nat)) → Prop
  | .init nodes => m.status = .offline →
      (2 < nodes.card → ∀ e ∈ m.nextStepValues, e.2.stepId = 1 → e.1 ∈ nodes.erase id) ∧
      (m.remoteUsers ⊆ nodes.erase id ∨
        ∃ draw pair, m.drbg = some draw ∧ g.ecpGenKeypair draw = .ok pair)
  | _ => True

theorem Kept.init (h : Kept id m) {nodes : Finset UInt16} (hfit : Fits id (.init nodes))
    (hclear : Clear g id m (.init nodes)) : Kept id (init g nodes m).1 := by
  obtain ⟨hid, h2, h255⟩ := hfit
  unfold MkaKeyExchange.init
  split
  · exact h
  · next hstatus =>
      obtain ⟨haside, husers⟩ := hclear (not_not.mp hstatus)
      rw [if_neg (by omega)]
      simp only []
      cases hdrbg : m.drbg with
      | none =>
          refine Kept.failed rfl (husers.resolve_right ?_)
          rintro ⟨draw, pair, hsome, -⟩
          cases hdrbg.symm.trans hsome
      | some draw =>
          simp only []
          cases hset : mkaSetPart (mkaInit g) nodes.card draw with
          | error e =>
              refine Kept.failed rfl (husers.resolve_right ?_)
              rintro ⟨draw', pair, hsome, hpair⟩
              cases hdrbg.symm.trans hsome
              rw [mkaSetPart, if_neg (by omega)] at hset
              simp only [mkaInit, hpair, bind, Except.bind] at hset
              cases hset
          | ok ctx =>
              simp only [cryptoBroadcast]
              cases mkaMakeBroadval ctx mkaBufsize with
              | error e => exact Kept.failed rfl (Finset.empty_subset _)
              | ok res =>
                  refine ⟨Finset.empty_subset _, fun _ => hid,
                    fun _ => ⟨h2, h255, Nat.zero_le _⟩, fun _ hlt e he hstep => ?_⟩
                  refine haside (by change 0 + 1 < nodes.card - 1 at hlt; omega) e he ?_
                  exact UInt8.toNat_inj.mp hstep

theorem Kept.call (h : Kept id m) {x : Earlier (Option (Nat → Nat))} (hfit : Fits id x)
    (hclear : Clear g id m x) :
    Kept id (call g m x).1 ∧ ∀ c ∈ (call g m x).2, c.Inside id := by
  cases x with
  | seed d => exact ⟨⟨h.users, h.own, h.bounded, h.aside⟩, fun c hc => (by cases hc)⟩
  | init nodes => exact ⟨h.init hfit hclear, fun c hc => (by cases hc)⟩
  | update q => exact (h.update hfit).symm
  | shutdown =>
      refine ⟨⟨h.users, ?_, ?_, ?_⟩, fun c hc => (by cases hc)⟩
      all_goals exact fun hrun => (by cases hrun)

/-- In every run of calls in which each session finds nothing of another in its way,
every copy goes to a place of the buffer and the senders are other nodes of the
session all the time. -/
theorem copies_inside (g : EcpGroup) (id : UInt16) (d : Option (Nat → Nat))
    (calls : List (Earlier (Option (Nat → Nat)))) (hfit : ∀ x ∈ calls, Fits id x)
    (hclear : Meets (fun m x => (call g m x).1) (Clear g id) (new g d) calls) :
    (∀ cs ∈ outputs (call g) (new g d) calls, ∀ c ∈ cs, c.Inside id) ∧
    ∀ n, (run (fun m x => (call g m x).1) (new g d) (calls.take n)).remoteUsers ⊆
      (run (fun m x => (call g m x).1) (new g d) (calls.take n)).nodes.erase id := by
  have hstep : ∀ m x, Kept id m → Fits id x ∧ Clear g id m x →
      Kept id (call g m x).1 ∧ ∀ c ∈ (call g m x).2, c.Inside id :=
    fun m x h hx => h.call hx.1 hx.2
  have hnew : Kept id (new g d) :=
    ⟨Finset.empty_subset _, fun h => (by cases h), fun h => (by cases h),
      fun h => (by cases h)⟩
  have hmeets := hclear.of_mem hfit
  exact ⟨hmeets.outputs_inv hstep hnew, fun n =>
    ((hmeets.take n).inv (fun m x h hx => (hstep m x h hx).1) hnew).users⟩

/-- The points of a session that goes on to its last step. -/
theorem copies_inside_of_points :
    (∀ cs ∈ outputs (call sevenPoints) (new sevenPoints (some fun _ => 1))
        [.init {1, 2, 3}, .update [onePacket sevenPoints 0 2, onePacket sevenPoints 1 2,
          onePacket sevenPoints 0 3]], ∀ c ∈ cs, c.Inside 1) ∧
    ∀ n, (run (fun m x => (call sevenPoints m x).1) (new sevenPoints (some fun _ => 1))
        ([.init {1, 2, 3}, .update [onePacket sevenPoints 0 2, onePacket sevenPoints 1 2,
          onePacket sevenPoints 0 3]].take n)).remoteUsers ⊆
      (run (fun m x => (call sevenPoints m x).1) (new sevenPoints (some fun _ => 1))
        ([.init {1, 2, 3}, .update [onePacket sevenPoints 0 2, onePacket sevenPoints 1 2,
          onePacket sevenPoints 0 3]].take n)).nodes.erase 1 :=
  copies_inside sevenPoints 1 (some fun _ => 1) _
    (by decide)
    ⟨fun _ => ⟨fun _ e he => (by cases he), .inl (Finset.empty_subset _)⟩, trivial, trivial⟩

/-- A session of five nodes is given up with three points put aside. The next one is
of three nodes and has a buffer for two, and gets them all. -/
def threeLeft : List (Earlier (Option (Nat → Nat))) :=
  [.init {1, 2, 3, 4, 5},
    .update [onePacket sevenPoints 1 3, onePacket sevenPoints 1 4, onePacket sevenPoints 1 5],
    .shutdown, .init {1, 2, 3},
    .update [onePacket sevenPoints 0 2, onePacket sevenPoints 0 3]]

theorem threeLeft_copies :
    ((outputs (call sevenPoints) (new sevenPoints (some fun _ => 1))
      threeLeft).flatten.map fun c => (c.start, c.nodes.card)) =
        [(0, 3), (66, 3), (0, 3), (66, 3), (132, 3)] := by
  decide +kernel

/-- A copy can begin at the end of the buffer. -/
theorem copy_past_buffer :
    ¬ ∀ calls, (∀ x ∈ calls, Fits 1 x) →
      ∀ cs ∈ outputs (call sevenPoints) (new sevenPoints (some fun _ => 1)) calls,
        ∀ c ∈ cs, ∃ pos < c.nodes.card - 1, c.start = pos * mkaBufsize := by
  intro h
  have hfit : ∀ x ∈ threeLeft, Fits 1 x := by decide
  have hlast : (132, 3) ∈ ((outputs (call sevenPoints)
      (new sevenPoints (some fun _ => 1)) threeLeft).flatten.map
        fun c => (c.start, c.nodes.card)) := by
    rw [threeLeft_copies]
    simp
  obtain ⟨c, hc, heq⟩ := List.mem_map.mp hlast
  obtain ⟨cs, hcs, hc⟩ := List.mem_flatten.mp hc
  obtain ⟨pos, hpos, hstart⟩ := h threeLeft hfit cs hcs c hc
  obtain ⟨hat, hcard⟩ := Prod.mk.inj heq
  rw [hat, mkaBufsize] at hstart
  omega

end MkaKeyExchange

end LibSmoke
