import LibSmoke.Lib.Runs
import LibSmoke.Knx.Bd1KeyExchange
import LibSmoke.Knx.MkaKeyExchange

/-!
# One session after another

An object of a key exchange can be shut down and initialised again. What is seen
of a session are the packets written, the results, the statuses and the key at
the end (`session`), and the question is whether they are those of a new object.

Neither class resets all it has. `MKAKeyExchange` keeps the points put aside for
a next step; they do nothing as long as none is for step 1, since the first step
done throws them all away (`MkaKeyExchange.Alike`). `BD1KeyExchange` keeps the
differences of others, and a new session counts them in. The rest that is kept
is overwritten before it is read.
-/

namespace LibSmoke

open Runs

/-- What is seen of an object after a call; the key is the final one. -/
structure Seen where
  wrote : List Outgoing
  ok : Bool
  status : KeyStatus
  key : Option (List UInt8)

/-- A call of an earlier session. The generator may be another one each time. -/
inductive Earlier (δ : Type)
  | seed (d : δ)
  | init (nodes : Finset UInt16)
  | update (q : List Pkt)
  | shutdown

namespace KeyExchange

variable {κ δ : Type} (K : KeyExchange κ) (key : κ → List UInt8)

def seen (k : κ) (wrote : List Outgoing) (ok : Bool) : Seen :=
  ⟨wrote, ok, K.status k, if K.status k = .completed then some (key k) else none⟩

/-- `update` of an object, the queue of its packet layer beside it, after some
packets have arrived. -/
def visit (s : κ × List Pkt) (arrived : List Pkt) : (κ × List Pkt) × Seen :=
  let a := K.update (s.2 ++ arrived) s.1
  ((a.state, a.rest), K.seen key a.state a.wrote a.ok)

/-- What is seen of a session. -/
def session (nodes : Finset UInt16) (arrivals : List (List Pkt)) (k : κ) : List Seen :=
  let r := K.init nodes k
  K.seen key r.1 r.2.1 r.2.2 :: outputs (K.visit key) (r.1, []) arrivals

/-- An object after its earlier sessions. -/
def past (seed : δ → κ → κ) (k : κ) (calls : List (Earlier δ)) : κ :=
  run (fun k call =>
    match call with
    | .seed d => seed d k
    | .init nodes => (K.init nodes k).1
    | .update q => (K.update q k).state
    | .shutdown => K.shutdown k) k calls

/-- Every session of the object is seen as one of a new object is. -/
def Independent (seed : δ → κ → κ) (new : δ → κ) (k : κ) : Prop :=
  ∀ d nodes arrivals,
    K.session key nodes arrivals (seed d k) = K.session key nodes arrivals (new d)

/-- The object and its queue when a session has come as far as `arrivals`. -/
def during (nodes : Finset UInt16) (arrivals : List (List Pkt)) (k : κ) : κ × List Pkt :=
  run (fun s arrived => (K.visit key s arrived).1) ((K.init nodes k).1, []) arrivals

variable {K key}

/-- The next call shows the same in an independent session. -/
theorem Independent.visit_eq {seed : δ → κ → κ} {new : δ → κ} {k : κ}
    (h : K.Independent key seed new k) (d : δ) (nodes : Finset UInt16)
    (arrivals : List (List Pkt)) (q : List Pkt) :
    (K.visit key (K.during key nodes arrivals (seed d k)) q).2 =
      (K.visit key (K.during key nodes arrivals (new d)) q).2 := by
  have hlast := congrArg List.getLast? (h d nodes (arrivals ++ [q]))
  simp only [session, outputs_concat] at hlast
  rw [← List.cons_append, ← List.cons_append, List.getLast?_concat,
    List.getLast?_concat] at hlast
  exact Option.some.inj hlast

/-- Two objects that give the same status and, at the end, the same key. -/
def Same (K : KeyExchange κ) (key : κ → List UInt8) (k k' : κ) : Prop :=
  K.status k = K.status k' ∧ (K.status k = .completed → key k = key k')

theorem Same.seen {k k' : κ} (h : Same K key k k') (wrote : List Outgoing) (ok : Bool) :
    K.seen key k wrote ok = K.seen key k' wrote ok := by
  rw [KeyExchange.seen, KeyExchange.seen, ← h.1]
  by_cases hdone : K.status k = .completed
  · rw [if_pos hdone, if_pos hdone, h.2 hdone]
  · rw [if_neg hdone, if_neg hdone]

/-- Two objects whose updates are alike have the same sessions; so have two that
an `init` has not started. -/
theorem session_eq {R : κ → κ → Prop} (hsame : ∀ k k', R k k' → Same K key k k')
    (hupdate : ∀ k k' q, R k k' → R (K.update q k).state (K.update q k').state ∧
      (K.update q k).rest = (K.update q k').rest ∧
      (K.update q k).wrote = (K.update q k').wrote ∧
      (K.update q k).ok = (K.update q k').ok)
    (hidle : ∀ k q, K.status k ≠ .running → K.update q k = ⟨k, q, [], false⟩)
    {nodes : Finset UInt16} {k k' : κ}
    (hinit : R (K.init nodes k).1 (K.init nodes k').1 ∨
      Same K key (K.init nodes k).1 (K.init nodes k').1 ∧
        K.status (K.init nodes k).1 ≠ .running)
    (hout : (K.init nodes k).2 = (K.init nodes k').2) (arrivals : List (List Pkt)) :
    K.session key nodes arrivals k = K.session key nodes arrivals k' := by
  have hstart : Same K key (K.init nodes k).1 (K.init nodes k').1 :=
    hinit.elim (hsame _ _) And.left
  have hvisits : outputs (K.visit key) ((K.init nodes k).1, []) arrivals =
      outputs (K.visit key) ((K.init nodes k').1, []) arrivals := by
    refine outputs_eq (R := fun s s' =>
      (R s.1 s'.1 ∨ Same K key s.1 s'.1 ∧ K.status s.1 ≠ .running) ∧ s.2 = s'.2)
      (fun s s' arrived h => ?_) ⟨hinit, rfl⟩ arrivals
    obtain ⟨s, q⟩ := s
    obtain ⟨s', q'⟩ := s'
    obtain ⟨h, rfl⟩ := h
    simp only [visit]
    rcases h with h | ⟨h, hstop⟩
    · obtain ⟨hnext, hrest, hwrote, hok⟩ := hupdate s s' (q ++ arrived) h
      rw [hwrote, hok]
      exact ⟨⟨.inl hnext, hrest⟩, (hsame _ _ hnext).seen _ _⟩
    · rw [hidle s _ hstop, hidle s' _ (h.1 ▸ hstop)]
      exact ⟨⟨.inr ⟨h, hstop⟩, rfl⟩, h.seen _ _⟩
  simp only [session]
  rw [hout, hstart.seen, hvisits]

end KeyExchange

theorem length_memcpy {dst src : List UInt8} {off : Nat} (h : off ≤ dst.length) :
    (memcpy dst off src).length = max dst.length (off + src.length) := by
  rw [memcpy, List.length_append, List.length_append, List.length_take, List.length_drop]
  omega

/-! ## MKA -/

namespace MkaKeyExchange

/-- The object with another random generator. -/
def seed (d : Option (Nat → Nat)) (m : MkaKeyExchange) : MkaKeyExchange :=
  { m with drbg := d }

/-- The end of a step, by what its two calls come to. -/
theorem finishStep_eq (mka : MkaStep) (m : MkaKeyExchange) :
    finishStep mka m =
      match mkaAccBroadval m.ctx m.remoteKeys with
      | .error _ => ({ m with status := .error }, [], false)
      | .ok ctx =>
          if (m.currentStep + 1).toNat = m.nodes.card - 1 then
            ({ m with
              ctx := ctx, remoteUsers := ∅, currentStep := m.currentStep + 1 }, [], true)
          else
            match mkaMakeBroadval ctx mkaBufsize with
            | .error _ =>
                ({ m with
                  ctx := ctx, remoteUsers := ∅, currentStep := m.currentStep + 1
                  status := .error }, [], false)
            | .ok (ctx', point) =>
                (useAside mka { m with
                  ctx := ctx', remoteUsers := ∅, currentStep := m.currentStep + 1 },
                  [stepPacket (m.currentStep + 1) point], true) := by
  unfold finishStep cryptoBroadcast
  cases mkaAccBroadval m.ctx m.remoteKeys with
  | error e => rfl
  | ok ctx =>
      simp only []
      split
      · rfl
      · cases hmake : mkaMakeBroadval ctx mkaBufsize with
        | error e => simp only [Bool.false_eq_true, if_false]
        | ok res => simp only [if_true]

/-- Two arrays for the points of `n` others that have the same `c` points. -/
structure SamePoints (n c : Nat) (keys keys' : List UInt8) : Prop where
  length : keys.length = max n c * mkaBufsize
  length' : keys'.length = max n c * mkaBufsize
  take : keys.take (c * mkaBufsize) = keys'.take (c * mkaBufsize)

theorem SamePoints.insert {n c : Nat} {keys keys' : List UInt8}
    (h : SamePoints n c keys keys') {point : List UInt8}
    (hpoint : point.length = mkaBufsize) :
    SamePoints n (c + 1) (memcpy keys (c * mkaBufsize) point)
      (memcpy keys' (c * mkaBufsize) point) := by
  have hle : c * mkaBufsize ≤ max n c * mkaBufsize :=
    Nat.mul_le_mul_right _ (Nat.le_max_right n c)
  have hmax : max (max n c * mkaBufsize) (c * mkaBufsize + point.length) =
      max n (c + 1) * mkaBufsize := by
    rw [hpoint, ← Nat.succ_mul, Nat.mul_max_mul_right]
    congr 1
    omega
  have hoff : c * mkaBufsize ≤ keys.length := by rw [h.length]; exact hle
  have hoff' : c * mkaBufsize ≤ keys'.length := by rw [h.length']; exact hle
  have htake := take_memcpy hoff point
  have htake' := take_memcpy hoff' point
  rw [hpoint, ← Nat.succ_mul] at htake htake'
  refine ⟨?_, ?_, ?_⟩
  · rw [length_memcpy hoff, h.length, hmax]
  · rw [length_memcpy hoff', h.length', hmax]
  · rw [htake, htake', h.take]

/-- With a point of every other the arrays are the same. -/
theorem SamePoints.full {n : Nat} {keys keys' : List UInt8}
    (h : SamePoints n n keys keys') : keys = keys' := by
  have hlen := h.length
  have hlen' := h.length'
  have htake := h.take
  rw [Nat.max_self] at hlen hlen'
  rwa [← hlen, List.take_length, hlen, ← hlen', List.take_length] at htake

theorem SamePoints.restart {n : Nat} {keys keys' : List UInt8}
    (h : SamePoints n n keys keys') : SamePoints n 0 keys keys' := by
  have hlen := h.length
  have hlen' := h.length'
  rw [Nat.max_self] at hlen hlen'
  refine ⟨?_, ?_, ?_⟩
  · rw [hlen, Nat.max_eq_left (Nat.zero_le n)]
  · rw [hlen', Nat.max_eq_left (Nat.zero_le n)]
  · rw [Nat.zero_mul, List.take_zero, List.take_zero]

/-- An object and one that has been initialised anew with it: what the first has
aside beside the second is for no step that comes up. -/
structure Alike (m m' : MkaKeyExchange) : Prop where
  status : m.status = m'.status
  nodes : m.nodes = m'.nodes
  step : m.currentStep = m'.currentStep
  users : m.remoteUsers = m'.remoteUsers
  ctx : m.ctx = m'.ctx
  points : SamePoints (m.nodes.card - 1) m.remoteUsers.card m.remoteKeys m'.remoteKeys
  aside : m.status = .running → m.currentStep.toNat < m.nodes.card - 1 →
    ∃ stale, m.nextStepValues = stale ++ m'.nextStepValues ∧
      (∀ e ∈ stale, e.2.stepId ≠ 1) ∧ (stale = [] ∨ m.currentStep = 0)
  key : m.status = .completed → m.key = m'.key

namespace Alike

variable {m m' : MkaKeyExchange} (h : Alike m m')

include h

theorem insertKey {point : List UInt8} (hpoint : point.length = mkaBufsize)
    (src : UInt16) : Alike (insertKey src point m) (insertKey src point m') := by
  unfold MkaKeyExchange.insertKey
  rw [← h.users]
  split
  · exact h
  · next hsrc =>
      have hcard := Finset.card_insert_of_notMem hsrc
      have hpoints := h.points.insert hpoint
      exact {
        h with
        users := rfl
        points := by
          simp only []
          rw [hcard]
          exact hpoints
        aside := h.aside
        key := h.key }

theorem place {mka : MkaStep} (hpoint : mka.key.length = mkaBufsize) (src : UInt16) :
    Alike (place src mka m) (place src mka m') := by
  unfold MkaKeyExchange.place
  rw [← h.step]
  split
  · exact h.insertKey hpoint src
  · split
    · refine { h with step := rfl, aside := fun hrun hlt => ?_, key := h.key }
      obtain ⟨stale, heq, hstale, hcase⟩ := h.aside hrun hlt
      refine ⟨stale, ?_, hstale, hcase⟩
      simp only []
      rw [heq, List.append_assoc]
    · exact h

omit h in
/-- The loop over what was put aside, from states that are alike. -/
theorem foldAside {mka : MkaStep} (hpoint : mka.key.length = mkaBufsize)
    (aside : List (UInt16 × MkaStep)) {m m' : MkaKeyExchange} (h : Alike m m') :
    Alike
      (aside.foldl (fun m mks => if mks.2.stepId ≠ m.currentStep then m
        else MkaKeyExchange.insertKey mks.1 mka.key m) m)
      (aside.foldl (fun m mks => if mks.2.stepId ≠ m.currentStep then m
        else MkaKeyExchange.insertKey mks.1 mka.key m) m') := by
  induction aside generalizing m m' with
  | nil => exact h
  | cons mks aside ih =>
      rw [List.foldl_cons, List.foldl_cons]
      refine ih ?_
      rw [← h.step]
      split
      · exact h
      · exact h.insertKey hpoint mks.1

omit h in
theorem foldl_stale {mka : MkaStep} {stale : List (UInt16 × MkaStep)}
    {m : MkaKeyExchange} (hstale : ∀ e ∈ stale, e.2.stepId ≠ m.currentStep) :
    stale.foldl (fun m mks => if mks.2.stepId ≠ m.currentStep then m
      else MkaKeyExchange.insertKey mks.1 mka.key m) m = m := by
  induction stale with
  | nil => rfl
  | cons e stale ih =>
      rw [List.foldl_cons, if_pos (hstale e List.mem_cons_self)]
      exact ih fun e' he' => hstale e' (List.mem_cons_of_mem e he')

/-- With all points of a step the next one begins from the same. -/
theorem stepped (hfull : m.remoteUsers.card = m.nodes.card - 1) (ctx : MkaContext)
    {aside aside' : List (UInt16 × MkaStep)}
    (haside : (m.currentStep + 1).toNat < m.nodes.card - 1 → aside = aside') :
    Alike
      { m with
        ctx := ctx, remoteUsers := ∅, currentStep := m.currentStep + 1
        nextStepValues := aside }
      { m' with
        ctx := ctx, remoteUsers := ∅, currentStep := m'.currentStep + 1
        nextStepValues := aside' } := by
  have hpoints := h.points
  rw [hfull] at hpoints
  exact {
    status := h.status
    nodes := h.nodes
    step := congrArg (· + 1) h.step
    users := rfl
    ctx := rfl
    points := hpoints.restart
    aside := fun _ hlt => ⟨[], haside hlt, fun e he => absurd he List.not_mem_nil, .inl rfl⟩
    key := h.key }

/-- The end of a step throws away what is stale. -/
theorem advance {mka : MkaStep} (hpoint : mka.key.length = mkaBufsize)
    (hrun : m.status = .running) (hfull : m.remoteUsers.card = m.nodes.card - 1)
    (hlt : m.currentStep.toNat < m.nodes.card - 1) (ctx : MkaContext) :
    Alike
      (useAside mka { m with
        ctx := ctx, remoteUsers := ∅, currentStep := m.currentStep + 1 })
      (useAside mka { m' with
        ctx := ctx, remoteUsers := ∅, currentStep := m'.currentStep + 1 }) := by
  obtain ⟨stale, heq, hstale, hcase⟩ := h.aside hrun hlt
  have hskip : ∀ e ∈ stale, e.2.stepId ≠ m.currentStep + 1 := by
    intro e he
    rcases hcase with rfl | hzero
    · cases he
    · rw [hzero]
      exact hstale e he
  have hfold : stale.foldl (fun m mks => if mks.2.stepId ≠ m.currentStep then m
      else MkaKeyExchange.insertKey mks.1 mka.key m)
      { m with
        ctx := ctx, remoteUsers := ∅, currentStep := m.currentStep + 1
        nextStepValues := [] } = _ := foldl_stale hskip
  unfold useAside
  simp only []
  rw [heq, List.foldl_append, hfold]
  exact foldAside hpoint _ (h.stepped hfull ctx fun _ => rfl)

theorem finishStep {mka : MkaStep} (hpoint : mka.key.length = mkaBufsize)
    (hrun : m.status = .running) (hfull : m.remoteUsers.card = m.nodes.card - 1)
    (hlt : m.currentStep.toNat < m.nodes.card - 1) :
    Alike (finishStep mka m).1 (finishStep mka m').1 ∧
    (finishStep mka m).2 = (finishStep mka m').2 := by
  have hpoints := h.points
  rw [hfull] at hpoints
  have hacc : mkaAccBroadval m'.ctx m'.remoteKeys = mkaAccBroadval m.ctx m.remoteKeys := by
    rw [h.ctx, hpoints.full]
  rw [finishStep_eq, finishStep_eq, hacc]
  cases mkaAccBroadval m.ctx m.remoteKeys with
  | error e =>
      exact ⟨{ h with
        status := rfl
        aside := fun hc => by cases hc
        key := fun hc => by cases hc }, rfl⟩
  | ok ctx =>
      simp only []
      by_cases hlast : (m.currentStep + 1).toNat = m.nodes.card - 1
      · have hlast' : (m'.currentStep + 1).toNat = m'.nodes.card - 1 := by
          rw [← h.step, ← h.nodes]
          exact hlast
        rw [if_pos hlast, if_pos hlast']
        exact ⟨h.stepped hfull ctx fun hlt => by omega, rfl⟩
      · have hlast' : ¬ (m'.currentStep + 1).toNat = m'.nodes.card - 1 := by
          rw [← h.step, ← h.nodes]
          exact hlast
        rw [if_neg hlast, if_neg hlast']
        cases mkaMakeBroadval ctx mkaBufsize with
        | error e =>
            have hnext := h.stepped hfull ctx (fun _ => (rfl : [] = []))
            exact ⟨{ hnext with
              status := rfl
              aside := fun hc => by cases hc
              key := fun hc => by cases hc }, rfl⟩
        | ok res =>
            refine ⟨h.advance hpoint hrun hfull hlt res.1, ?_⟩
            simp only []
            rw [h.step]

theorem cryptoUpdate (hrun : m.status = .running)
    (hlt : m.currentStep.toNat < m.nodes.card - 1) (p : Pkt) :
    Alike (cryptoUpdate p m).1 (cryptoUpdate p m').1 ∧
    (cryptoUpdate p m).2 = (cryptoUpdate p m').2 := by
  unfold MkaKeyExchange.cryptoUpdate
  split
  · exact ⟨h, rfl⟩
  · next hsize =>
      have hpoint : (MkaStep.ofData p.data).key.length = mkaBufsize := by
        rw [MkaStep.ofData, List.length_drop, not_not.mp hsize]
        rfl
      have hplace := h.place hpoint p.src
      obtain ⟨hstatus, hnodes, hstep⟩ := place_fields p.src (.ofData p.data) m
      simp only []
      rw [← hplace.users, ← hplace.nodes]
      split
      · next hfull =>
          exact hplace.finishStep hpoint (hstatus.trans hrun) hfull (by rw [hstep, hnodes]; exact hlt)
      · exact ⟨hplace, rfl⟩

omit h in
theorem readLoop (q : List Pkt) {m m' : MkaKeyExchange} (h : Alike m m')
    (hrun : m.status = .running) :
    Alike (readLoop q m).state (readLoop q m').state ∧
    (readLoop q m).rest = (readLoop q m').rest ∧
    (readLoop q m).wrote = (readLoop q m').wrote ∧
    (readLoop q m).ok = (readLoop q m').ok := by
  induction q generalizing m m' with
  | nil => exact ⟨h, rfl, rfl, rfl⟩
  | cons p q ih =>
      rw [MkaKeyExchange.readLoop, MkaKeyExchange.readLoop, ← h.step, ← h.nodes]
      split
      · next hlt =>
          split
          · exact ih h hrun
          · split
            · exact ih h hrun
            · obtain ⟨hnext, hout⟩ := h.cryptoUpdate hrun hlt p
              have hstatus := (cryptoUpdate_cases p m).status_eq
              generalize MkaKeyExchange.cryptoUpdate p m = r at hnext hout hstatus ⊢
              generalize MkaKeyExchange.cryptoUpdate p m' = r' at hnext hout ⊢
              obtain ⟨m₁, w, ok⟩ := r
              obtain ⟨m₁', w', ok'⟩ := r'
              cases hout
              simp only []
              split
              · next hok =>
                  rw [if_pos hok, hrun] at hstatus
                  obtain ⟨hlast, hrest, hwrote, hok'⟩ := ih hnext hstatus
                  exact ⟨hlast, hrest, congrArg (w ++ ·) hwrote, hok'⟩
              · exact ⟨hnext, rfl, rfl, rfl⟩
      · exact ⟨h, rfl, rfl, rfl⟩

theorem update (q : List Pkt) :
    Alike (update q m).state (update q m').state ∧
    (update q m).rest = (update q m').rest ∧
    (update q m).wrote = (update q m').wrote ∧ (update q m).ok = (update q m').ok := by
  by_cases hrun : m.status = .running
  · have hrun' : m'.status = .running := h.status.symm.trans hrun
    have hread := h.readLoop q hrun
    rw [MkaKeyExchange.update, MkaKeyExchange.update, if_neg (not_not.mpr hrun),
      if_neg (not_not.mpr hrun')]
    generalize MkaKeyExchange.readLoop q m = a at hread ⊢
    generalize MkaKeyExchange.readLoop q m' = a' at hread ⊢
    obtain ⟨s, rest, w, ok⟩ := a
    obtain ⟨s', rest', w', ok'⟩ := a'
    obtain ⟨halike, rfl, rfl, rfl⟩ := hread
    simp only []
    cases ok with
    | false => exact ⟨halike, rfl, rfl, rfl⟩
    | true =>
        rw [if_neg Bool.true_eq_false.mp, if_neg Bool.true_eq_false.mp]
        by_cases hlast : s.currentStep.toNat = s.nodes.card - 1
        · have hlast' : s'.currentStep.toNat = s'.nodes.card - 1 := by
            rw [← halike.step, ← halike.nodes]
            exact hlast
          have hcompute : mkaComputeKey s'.ctx mkaBufsize =
              mkaComputeKey s.ctx mkaBufsize := by
            rw [halike.ctx]
          rw [if_pos hlast, if_pos hlast', hcompute]
          cases mkaComputeKey s.ctx mkaBufsize with
          | error e =>
              exact ⟨{ halike with
                status := rfl
                aside := fun hc => by cases hc
                key := fun hc => by cases hc }, rfl, rfl, rfl⟩
          | ok res =>
              refine ⟨{ halike with
                status := rfl
                ctx := rfl
                aside := fun hc => by cases hc
                key := fun _ => ?_ }, rfl, rfl, rfl⟩
              have htake := take_memcpy (Nat.zero_le s.keyBuffer.length) res.2
              have htake' := take_memcpy (Nat.zero_le s'.keyBuffer.length) res.2
              rw [Nat.zero_add] at htake htake'
              exact htake.trans htake'.symm
        · have hlast' : ¬ s'.currentStep.toNat = s'.nodes.card - 1 := by
            rw [← halike.step, ← halike.nodes]
            exact hlast
          rw [if_neg hlast, if_neg hlast']
          exact ⟨halike, rfl, rfl, rfl⟩
  · have hrun' : m'.status ≠ .running := fun hc => hrun (h.status.trans hc)
    rw [update_idle q hrun, update_idle q hrun']
    exact ⟨h, rfl, rfl, rfl⟩

end Alike

/-- After `init` an object that had nothing aside for step 1 is like a new one, or
neither has been started. -/
theorem init_alike (g : EcpGroup) {m : MkaKeyExchange} (hstatus : m.status = .offline)
    (haside : ∀ e ∈ m.nextStepValues, e.2.stepId ≠ 1) (d : Option (Nat → Nat))
    (nodes : Finset UInt16) :
    (Alike (init g nodes (seed d m)).1 (init g nodes (new g d)).1 ∨
      ((init g nodes (seed d m)).1.status = (init g nodes (new g d)).1.status ∧
        (init g nodes (seed d m)).1.status ≠ .running ∧
        (init g nodes (seed d m)).1.status ≠ .completed)) ∧
    (init g nodes (seed d m)).2 = (init g nodes (new g d)).2 := by
  have hseed : (seed d m).status = .offline := hstatus
  have hoffline : ¬ (seed d m).status ≠ .offline := not_not.mpr hseed
  have hrun : (seed d m).status ≠ .running := fun hc => by cases hseed.symm.trans hc
  have hdone : (seed d m).status ≠ .completed := fun hc => by cases hseed.symm.trans hc
  have hnew : ¬ (new g d).status ≠ .offline := not_not.mpr rfl
  unfold init
  simp only []
  rw [if_neg hoffline, if_neg hnew]
  split
  · exact ⟨.inr ⟨hseed, hrun, hdone⟩, rfl⟩
  · next hcard =>
      have hdrbg : (seed d m).drbg = d := rfl
      have hdrbg' : (new g d).drbg = d := rfl
      rw [hdrbg, hdrbg']
      cases d with
      | none => exact ⟨.inr ⟨rfl, by simp, by simp⟩, rfl⟩
      | some draw =>
          simp only []
          cases mkaSetPart (mkaInit g) nodes.card draw with
          | error e => exact ⟨.inr ⟨rfl, by simp, by simp⟩, rfl⟩
          | ok ctx =>
              simp only [cryptoBroadcast]
              cases mkaMakeBroadval ctx mkaBufsize with
              | error e => exact ⟨.inr ⟨rfl, by simp, by simp⟩, rfl⟩
              | ok res =>
                  have hlen (keys : List UInt8) :
                      (keys.take (mkaBufsize * (nodes.card - 1)) ++ List.replicate
                        (mkaBufsize * (nodes.card - 1) - keys.length) 0).length =
                      max (nodes.card - 1) 0 * mkaBufsize := by
                    rw [List.length_append, List.length_take, List.length_replicate,
                      Nat.max_eq_left (Nat.zero_le _), Nat.mul_comm]
                    omega
                  refine ⟨.inl {
                    status := rfl
                    nodes := rfl
                    step := rfl
                    users := rfl
                    ctx := rfl
                    points := ⟨hlen m.remoteKeys, hlen (new g (some draw)).remoteKeys, ?_⟩
                    aside := fun _ _ =>
                      ⟨m.nextStepValues, (List.append_nil _).symm, haside, .inr rfl⟩
                    key := fun hc => by cases hc }, rfl⟩
                  simp only [Finset.card_empty]
                  rw [Nat.zero_mul, List.take_zero, List.take_zero]

/-- With nothing aside for step 1 an object that is shut down is as good as new. -/
theorem independent {g : EcpGroup} {m : MkaKeyExchange} (hstatus : m.status = .offline)
    (haside : ∀ e ∈ m.nextStepValues, e.2.stepId ≠ 1) :
    (mkaKeyExchange g).Independent key seed (new g) m := by
  intro d nodes arrivals
  obtain ⟨hinit, hout⟩ := init_alike g hstatus haside d nodes
  refine KeyExchange.session_eq (R := Alike) (fun k k' h => ⟨h.status, h.key⟩)
    (fun k k' q h => h.update q) (fun k q h => update_idle q h) ?_ hout arrivals
  rcases hinit with h | ⟨h, hrun, hdone⟩
  · exact .inl h
  · exact .inr ⟨⟨h, fun hc => absurd hc hdone⟩, hrun⟩

end MkaKeyExchange

/-! ## BD1 -/

namespace Bd1KeyExchange

/-- The object with another random generator. -/
def seed (d : Option (Nat → Nat)) (b : Bd1KeyExchange) : Bd1KeyExchange :=
  { b with drbg := d }

theorem testBit_or (c d : UInt8) (i : Nat) :
    (c ||| d).toNat.testBit i = (c.toNat.testBit i || d.toNat.testBit i) := by
  rw [UInt8.toNat_or, Nat.testBit_or]

/-- An object and a new one that have been initialised anew. A half of `_Zi` is
only the same once a point has come. -/
structure Alike (b b' : Bd1KeyExchange) : Prop where
  status : b.status = b'.status
  nodes : b.nodes = b'.nodes
  ctx : b.ctx = b'.ctx
  keys : b.xKeys = b'.xKeys
  prev : b.prev = b'.prev
  next : b.next = b'.next
  count : b.recvZcnt = b'.recvZcnt
  length : b.zi.length = bd1Bufsize * 2
  length' : b'.zi.length = bd1Bufsize * 2
  first : b.recvZcnt.toNat.testBit 0 → b.zi.take bd1Bufsize = b'.zi.take bd1Bufsize
  second : b.recvZcnt.toNat.testBit 1 → b.zi.drop bd1Bufsize = b'.zi.drop bd1Bufsize
  key : b.status = .completed → b.key = b'.key

namespace Alike

variable {b b' : Bd1KeyExchange} (h : Alike b b')

include h

theorem pointFirst {data : List UInt8} (hdata : data.length = bd1Bufsize) :
    Alike { b with zi := memcpy b.zi 0 data, recvZcnt := b.recvZcnt ||| 1 }
      { b' with zi := memcpy b'.zi 0 data, recvZcnt := b'.recvZcnt ||| 1 } := by
  have hfirst := memcpy_first b.zi hdata
  have hfirst' := memcpy_first b'.zi hdata
  refine { h with
    count := congrArg (· ||| 1) h.count
    length := length_half h.length hdata (Nat.zero_le _)
    length' := length_half h.length' hdata (Nat.zero_le _)
    first := fun _ => hfirst.1.trans hfirst'.1.symm
    second := fun hbit => ?_
    key := h.key }
  rw [testBit_or] at hbit
  refine hfirst.2.trans ((h.second ?_).trans hfirst'.2.symm)
  rwa [Bool.or_eq_true_iff, or_iff_left (by decide)] at hbit

theorem pointSecond {data : List UInt8} (hdata : data.length = bd1Bufsize) :
    Alike { b with zi := memcpy b.zi bd1Bufsize data, recvZcnt := b.recvZcnt ||| 2 }
      { b' with zi := memcpy b'.zi bd1Bufsize data, recvZcnt := b'.recvZcnt ||| 2 } := by
  have hsecond := memcpy_second h.length hdata
  have hsecond' := memcpy_second h.length' hdata
  refine { h with
    count := congrArg (· ||| 2) h.count
    length := length_half h.length hdata (Nat.le_refl _)
    length' := length_half h.length' hdata (Nat.le_refl _)
    first := fun hbit => ?_
    second := fun _ => hsecond.2.trans hsecond'.2.symm
    key := h.key }
  rw [testBit_or] at hbit
  refine hsecond.1.trans ((h.first ?_).trans hsecond'.1.symm)
  rwa [Bool.or_eq_true_iff, or_iff_left (by decide)] at hbit

theorem place (p : Pkt) : Alike (place p b) (place p b') := by
  unfold Bd1KeyExchange.place
  split
  · exact h
  · next hdata =>
      have hdata := not_not.mp hdata
      split
      · by_cases hprev : p.src = b.prev
        · have hprev' : p.src = b'.prev := hprev.trans h.prev
          rw [if_pos hprev, if_pos hprev']
          by_cases hnext : p.src = b.next
          · have hnext' : p.src = b'.next := hnext.trans h.next
            simp only []
            rw [if_pos hnext, if_pos hnext']
            exact (h.pointFirst hdata).pointSecond hdata
          · have hnext' : p.src ≠ b'.next := fun hc => hnext (hc.trans h.next.symm)
            simp only []
            rw [if_neg hnext, if_neg hnext']
            exact h.pointFirst hdata
        · have hprev' : p.src ≠ b'.prev := fun hc => hprev (hc.trans h.prev.symm)
          rw [if_neg hprev, if_neg hprev']
          by_cases hnext : p.src = b.next
          · have hnext' : p.src = b'.next := hnext.trans h.next
            rw [if_pos hnext, if_pos hnext']
            exact h.pointSecond hdata
          · have hnext' : p.src ≠ b'.next := fun hc => hnext (hc.trans h.next.symm)
            rw [if_neg hnext, if_neg hnext']
            exact h
      · split
        · exact { h with keys := by simp only []; rw [h.keys], key := h.key }
        · exact h

omit h in
theorem readLoop (q : List Pkt) {b b' : Bd1KeyExchange} (h : Alike b b') :
    Alike (readLoop q b).1 (readLoop q b').1 ∧
    (readLoop q b).2 = (readLoop q b').2 := by
  induction q generalizing b b' with
  | nil => exact ⟨h, rfl⟩
  | cons p q ih =>
      rw [Bd1KeyExchange.readLoop, Bd1KeyExchange.readLoop, ← h.keys, ← h.nodes]
      split
      · exact ih (h.place p)
      · exact ⟨h, rfl⟩

/-- Both points are there once they are counted. -/
theorem zi_eq (h3 : b.recvZcnt = 3) : b.zi = b'.zi := by
  have hfirst := h.first (by rw [h3]; decide)
  have hsecond := h.second (by rw [h3]; decide)
  rw [← List.take_append_drop bd1Bufsize b.zi, hfirst, hsecond,
    List.take_append_drop]

theorem ownValue (id : UInt16) :
    Alike (ownValue id b).1 (ownValue id b').1 ∧
    (ownValue id b).2 = (ownValue id b').2 := by
  unfold Bd1KeyExchange.ownValue
  by_cases h3 : b.recvZcnt = 3
  · have h3' : b'.recvZcnt = 3 := h.count.symm.trans h3
    have hvalue : bd1GenValue b'.ctx b'.zi (2 * bd1Bufsize) bd1Bufsize =
        bd1GenValue b.ctx b.zi (2 * bd1Bufsize) bd1Bufsize := by
      rw [h.ctx, h.zi_eq h3]
    rw [if_pos h3, if_pos h3', hvalue]
    cases bd1GenValue b.ctx b.zi (2 * bd1Bufsize) bd1Bufsize with
    | error e => exact ⟨{ h with status := rfl, key := nofun }, rfl⟩
    | ok res =>
        exact ⟨{ h with
          ctx := rfl
          keys := by simp only []; rw [h.keys]
          count := rfl
          first := fun hbit => absurd (a := (4 : UInt8).toNat.testBit 0) hbit (by decide)
          second := fun hbit => absurd (a := (4 : UInt8).toNat.testBit 1) hbit (by decide)
          key := h.key }, rfl⟩
  · have h3' : b'.recvZcnt ≠ 3 := fun hc => h3 (h.count.trans hc)
    rw [if_neg h3, if_neg h3']
    exact ⟨h, rfl⟩

theorem finish (id : UInt16) :
    Alike (finish id b).1 (finish id b').1 ∧ (finish id b).2 = (finish id b').2 := by
  unfold Bd1KeyExchange.finish
  by_cases hall : b.xKeys.length = b.nodes.card
  · have hall' : b'.xKeys.length = b'.nodes.card := by rwa [← h.keys, ← h.nodes]
    have hkey : bd1ComputeKey b'.ctx
        (padded (bd1Bufsize * b'.nodes.card) (tempbuf id b'.xKeys))
          (bd1Bufsize * b'.nodes.card - 1) b'.nodes.card bd1Bufsize =
        bd1ComputeKey b.ctx (padded (bd1Bufsize * b.nodes.card) (tempbuf id b.xKeys))
          (bd1Bufsize * b.nodes.card - 1) b.nodes.card bd1Bufsize := by
      rw [h.ctx, h.nodes, h.keys]
    rw [if_pos hall, if_pos hall']
    simp only []
    rw [hkey]
    cases bd1ComputeKey b.ctx (padded (bd1Bufsize * b.nodes.card) (tempbuf id b.xKeys))
        (bd1Bufsize * b.nodes.card - 1) b.nodes.card bd1Bufsize with
    | error e => exact ⟨{ h with status := rfl, keys := rfl, key := nofun }, rfl⟩
    | ok key =>
        refine ⟨{ h with status := rfl, keys := rfl, key := fun _ => ?_ }, rfl⟩
        have htake := take_memcpy (Nat.zero_le b.keyBuffer.length) key
        have htake' := take_memcpy (Nat.zero_le b'.keyBuffer.length) key
        rw [Nat.zero_add] at htake htake'
        exact htake.trans htake'.symm
  · have hall' : ¬ b'.xKeys.length = b'.nodes.card := by rwa [← h.keys, ← h.nodes]
    rw [if_neg hall, if_neg hall']
    exact ⟨h, rfl⟩

theorem update (id : UInt16) (q : List Pkt) :
    Alike (update id q b).state (update id q b').state ∧
    (update id q b).rest = (update id q b').rest ∧
    (update id q b).wrote = (update id q b').wrote ∧
    (update id q b).ok = (update id q b').ok := by
  by_cases hrun : b.status = .running
  · have hrun' : b'.status = .running := h.status.symm.trans hrun
    have hread := readLoop q h
    unfold Bd1KeyExchange.update
    rw [if_neg (not_not.mpr hrun), if_neg (not_not.mpr hrun')]
    generalize Bd1KeyExchange.readLoop q b = r at hread ⊢
    generalize Bd1KeyExchange.readLoop q b' = r' at hread ⊢
    obtain ⟨s, rest⟩ := r
    obtain ⟨s', rest'⟩ := r'
    obtain ⟨halike, rfl⟩ := hread
    have hown := halike.ownValue id
    simp only []
    generalize Bd1KeyExchange.ownValue id s = o at hown ⊢
    generalize Bd1KeyExchange.ownValue id s' = o' at hown ⊢
    obtain ⟨t, w, ok⟩ := o
    obtain ⟨t', w', ok'⟩ := o'
    obtain ⟨halike, heq⟩ := hown
    cases heq
    simp only []
    have hfinish := halike.finish id
    generalize Bd1KeyExchange.finish id t = f at hfinish ⊢
    generalize Bd1KeyExchange.finish id t' = f' at hfinish ⊢
    obtain ⟨u, fin⟩ := f
    obtain ⟨u', fin'⟩ := f'
    obtain ⟨hdone, rfl⟩ := hfinish
    split
    · exact ⟨hdone, rfl, rfl, rfl⟩
    · exact ⟨halike, rfl, rfl, rfl⟩
  · have hrun' : b'.status ≠ .running := fun hc => hrun (h.status.trans hc)
    rw [update_idle id q hrun, update_idle id q hrun']
    exact ⟨h, rfl, rfl, rfl⟩

end Alike

/-- After `init` an object without differences is like a new one, or neither has
been started. -/
theorem init_alike (g : EcpGroup) (id : UInt16) {b : Bd1KeyExchange}
    (hstatus : b.status = .offline) (hlen : b.zi.length = bd1Bufsize * 2)
    (hkeys : b.xKeys = []) (d : Option (Nat → Nat)) (nodes : Finset UInt16) :
    (Alike (init g id nodes (seed d b)).1 (init g id nodes (new g d)).1 ∨
      ((init g id nodes (seed d b)).1.status =
          (init g id nodes (new g d)).1.status ∧
        (init g id nodes (seed d b)).1.status ≠ .running ∧
        (init g id nodes (seed d b)).1.status ≠ .completed)) ∧
    (init g id nodes (seed d b)).2 = (init g id nodes (new g d)).2 := by
  have hseed : (seed d b).status = .offline := hstatus
  have hoffline : ¬ (seed d b).status ≠ .offline := not_not.mpr hseed
  have hrun : (seed d b).status ≠ .running := fun hc => by cases hseed.symm.trans hc
  have hdone : (seed d b).status ≠ .completed := fun hc => by cases hseed.symm.trans hc
  have hnew : ¬ (new g d).status ≠ .offline := not_not.mpr rfl
  unfold init
  simp only []
  rw [if_neg hoffline, if_neg hnew]
  split
  · exact ⟨.inr ⟨hseed, hrun, hdone⟩, rfl⟩
  · next hcard =>
      have hdrbg : (seed d b).drbg = d := rfl
      have hdrbg' : (new g d).drbg = d := rfl
      rw [hdrbg, hdrbg']
      cases d with
      | none => exact ⟨.inr ⟨rfl, by simp, by simp⟩, rfl⟩
      | some draw =>
          simp only [getPrevNextNodes]
          cases bd1GenPoint (bd1Init g) bd1Bufsize draw with
          | error e => exact ⟨.inr ⟨rfl, by simp, by simp⟩, rfl⟩
          | ok res =>
              exact ⟨.inl {
                status := rfl
                nodes := rfl
                ctx := rfl
                keys := hkeys
                prev := rfl
                next := rfl
                count := rfl
                length := hlen
                length' := List.length_replicate
                first := fun hbit => absurd (a := (0 : UInt8).toNat.testBit 0) hbit (by decide)
                second := fun hbit => absurd (a := (0 : UInt8).toNat.testBit 1) hbit (by decide)
                key := fun hc => by cases hc }, rfl⟩

/-- Without differences an object that is shut down is as good as new. -/
theorem independent {g : EcpGroup} {id : UInt16} {b : Bd1KeyExchange}
    (hstatus : b.status = .offline) (hlen : b.zi.length = bd1Bufsize * 2)
    (hkeys : b.xKeys = []) :
    (bd1KeyExchange g id).Independent key seed (new g) b := by
  intro d nodes arrivals
  obtain ⟨hinit, hout⟩ := init_alike g id hstatus hlen hkeys d nodes
  refine KeyExchange.session_eq (R := Alike) (fun k k' h => ⟨h.status, h.key⟩)
    (fun k k' q h => h.update id q) (fun k q h => update_idle id q h) ?_ hout arrivals
  rcases hinit with h | ⟨h, hrun, hdone⟩
  · exact .inl h
  · exact .inr ⟨⟨h, fun hc => absurd hc hdone⟩, hrun⟩

end Bd1KeyExchange

end LibSmoke
