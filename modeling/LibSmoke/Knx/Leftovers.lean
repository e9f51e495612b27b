import LibSmoke.Knx.Sessions

/-!
# What is left of a session

The two things `Sessions` had to leave out are never harmless: there is a session
which shows them. A difference that `BD1KeyExchange` has kept makes the number of
differences wrong, so that it adds them up too soon or never, and a point that
`MKAKeyExchange` has put aside for step 1 makes the number of points in that step
wrong. With this an object is as good as new exactly if neither is there
(`Bd1KeyExchange.independent_iff`, `MkaKeyExchange.independent_iff`).
-/

namespace LibSmoke

open Runs

/-- As many nodes as an exchange may have. -/
theorem exists_nodes : ∃ nodes : Finset UInt16, nodes.card = 255 := by
  refine ⟨(Finset.range 255).image UInt16.ofNat, ?_⟩
  rw [Finset.card_image_of_injOn, Finset.card_range]
  intro x hx y hy hxy
  have hx := Finset.mem_range.mp (Finset.mem_coe.mp hx)
  have hy := Finset.mem_range.mp (Finset.mem_coe.mp hy)
  have hval := congrArg UInt16.toNat hxy
  rw [UInt16.toNat_ofNat', UInt16.toNat_ofNat'] at hval
  omega

theorem EcpGroup.drawScalar_one {g : EcpGroup} (h : 1 < g.N) :
    g.drawScalar (fun _ => 1) 30 0 = .ok 1 := by
  rw [EcpGroup.drawScalar, if_neg (by omega)]
  rfl

namespace Bd1KeyExchange

variable {g : EcpGroup} (id : UInt16) {b : Bd1KeyExchange}

/-- An object that has been started, the scalar being one. -/
def started (g : EcpGroup) (id : UInt16) (nodes : Finset UInt16) (b : Bd1KeyExchange) :
    Bd1KeyExchange :=
  { b with
    drbg := some fun _ => 1
    status := .running
    nodes := nodes
    ctx := ⟨g, 1, ⟨0, 0, 0⟩, ⟨0, 0, 0⟩⟩
    prev := (NetworkT.of id nodes).prev
    next := (NetworkT.of id nodes).next
    recvZcnt := 0 }

theorem init_started {pt : ZMod g.N → EcpPoint} (hE : g.Exact pt) (hplen : g.plen = 32)
    (hstatus : b.status = .offline) {nodes : Finset UInt16} (h2 : 2 ≤ nodes.card)
    (h255 : nodes.card ≤ 255) :
    (init g id nodes (seed (some fun _ => 1) b)).1 = started g id nodes b := by
  have hroom : 2 * g.plen + 2 ≤ bd1Bufsize := by
    rw [hplen]
    decide
  have hgen := bd1GenPoint_pt hE (EcpGroup.drawScalar_one hE.prime.one_lt) hroom
  have hoffline : ¬ (seed (some fun _ => 1) b).status ≠ .offline := not_not.mpr hstatus
  have hdrbg : (seed (some fun _ => 1) b).drbg = some fun _ => 1 := rfl
  unfold init
  simp only [getPrevNextNodes]
  rw [if_neg hoffline, if_neg (by omega), hdrbg]
  simp only []
  rw [hgen]
  rfl

/-- A packet with some difference, from `src`. -/
def someValue (src : UInt16) : Pkt := ⟨cmdBd1Xi, src, 0, List.replicate bd1Bufsize 0⟩

theorem place_someValue (src : UInt16) (b : Bd1KeyExchange) :
    place (someValue src) b =
      { b with xKeys := push (src, List.replicate bd1Bufsize 0) b.xKeys } := rfl

/-- As many differences as there is room for are all read. -/
theorem readLoop_values (src : UInt16) {k : Nat} (hk : b.xKeys.length + k ≤ b.nodes.card) :
    (readLoop (List.replicate k (someValue src)) b).1.xKeys.length = b.xKeys.length + k ∧
    (readLoop (List.replicate k (someValue src)) b).1.nodes = b.nodes ∧
    (readLoop (List.replicate k (someValue src)) b).1.recvZcnt = b.recvZcnt := by
  induction k generalizing b with
  | zero => exact ⟨rfl, rfl, rfl⟩
  | succ k ih =>
      have hpush := (push_perm (src, List.replicate bd1Bufsize 0) b.xKeys).length_eq
      rw [List.length_cons] at hpush
      rw [List.replicate_succ, readLoop, if_pos (by omega), place_someValue]
      obtain ⟨hlen, hnodes, hcount⟩ := ih (b := { b with
        xKeys := push (src, List.replicate bd1Bufsize 0) b.xKeys }) (by simp only []; omega)
      refine ⟨hlen.trans ?_, hnodes, hcount⟩
      simp only []
      omega

/-- Without both points `update` goes on as long as the differences are not as many
as the nodes. -/
theorem running_iff {q : List Pkt} (hrun : b.status = .running)
    (h3 : (readLoop q b).1.recvZcnt ≠ 3) :
    (update id q b).state.status = .running ↔
      (readLoop q b).1.xKeys.length ≠ (readLoop q b).1.nodes.card := by
  have hstatus := (readLoop_fields q b).1.trans hrun
  unfold update
  rw [if_neg (not_not.mpr hrun)]
  generalize readLoop q b = r at h3 hstatus ⊢
  obtain ⟨m, rest⟩ := r
  have hown : ownValue id m = (m, [], true) := if_neg h3
  simp only []
  rw [hown]
  simp only [if_true, finish]
  by_cases hall : m.xKeys.length = m.nodes.card
  · rw [if_pos hall]
    refine iff_of_false ?_ (not_not.mpr hall)
    split <;> simp
  · rw [if_neg hall]
    exact iff_of_true hstatus hall

/-- With more differences than nodes nothing is read and nothing is sent. -/
theorem update_stuck (hrun : b.status = .running) (h3 : b.recvZcnt ≠ 3)
    (hlen : b.nodes.card < b.xKeys.length) (q : List Pkt) :
    update id q b = ⟨b, q, [], true⟩ := by
  have hread : readLoop q b = (b, q) := by
    cases q with
    | nil => rfl
    | cons p q => rw [readLoop, if_neg (by omega)]
  have hown : ownValue id b = (b, [], true) := if_neg h3
  have hfinish : finish id b = (b, true) := if_neg (by omega)
  unfold update
  rw [if_neg (not_not.mpr hrun), hread]
  simp only []
  rw [hown]
  simp only [if_true]
  rw [hfinish]

/-- With both points a difference is sent, or the exchange fails. -/
theorem sent_or_error {q : List Pkt} (hrun : b.status = .running)
    (h3 : (readLoop q b).1.recvZcnt = 3) :
    (update id q b).state.status = .error ∨ (update id q b).wrote ≠ [] := by
  have hcase := update_cases id q hrun
  generalize update id q b = a at hcase ⊢
  cases hcase with
  | noValue => exact .inl rfl
  | noKey => exact .inl rfl
  | wait hown hlt =>
      cases hown with
      | none h => exact absurd h3 h
      | sent => exact .inr (List.cons_ne_nil _ _)
  | done hown =>
      cases hown with
      | none h => exact absurd h3 h
      | sent => exact .inr (List.cons_ne_nil _ _)

/-- A packet with a point, from `src`. -/
def somePoint (src : UInt16) : Pkt := ⟨cmdBd1Zi, src, 0, List.replicate bd1Bufsize 0⟩

theorem place_somePoint (src : UInt16) (b : Bd1KeyExchange) :
    (place (somePoint src) b).xKeys = b.xKeys ∧
    (place (somePoint src) b).recvZcnt =
      (b.recvZcnt ||| if src = b.prev then 1 else 0) ||| if src = b.next then 2 else 0 :=
  place_point List.length_replicate rfl

/-- The points of both neighbours are counted. -/
theorem readLoop_points (hkeys : b.xKeys = []) (hcard : 0 < b.nodes.card)
    (hcount : b.recvZcnt = 0) :
    (readLoop [somePoint b.prev, somePoint b.next] b).1.recvZcnt = 3 := by
  obtain ⟨hone, hfirst⟩ := place_somePoint b.prev b
  have htwo := (place_somePoint b.next (place (somePoint b.prev) b)).2
  obtain ⟨-, hnodes, -, hprev, hnext, -⟩ := place_fields (p := somePoint b.prev) (m := b)
  rw [readLoop, if_pos (by rw [hkeys]; exact hcard), readLoop,
    if_pos (by rw [hone, hnodes, hkeys]; exact hcard), readLoop, htwo, hfirst, hprev,
    hnext, hcount, if_pos rfl, if_pos rfl]
  split <;> split <;> decide

/-- A session that shows a difference which was kept. With at most 255 of them the
others are sent until there are as many as nodes; with more the session never
gets on. -/
theorem kept_seen {pt : ZMod g.N → EcpPoint} (hE : g.Exact pt) (hplen : g.plen = 32)
    (hstatus : b.status = .offline) (hkeys : b.xKeys ≠ []) :
    ¬ (bd1KeyExchange g id).Independent key seed (new g) b := by
  intro h
  obtain ⟨nodes, hnodes⟩ := exists_nodes
  have h2 : 2 ≤ nodes.card := by omega
  have h255 : nodes.card ≤ 255 := by omega
  have hold := init_started id hE hplen hstatus h2 h255
  have hnew : (init g id nodes (seed (some fun _ => 1) (new g none))).1 = _ :=
    init_started id hE hplen rfl h2 h255
  have hpos := List.length_pos_of_ne_nil hkeys
  have hseen : ∀ q, (update id q (started g id nodes b)).wrote =
        (update id q (started g id nodes (new g none))).wrote ∧
      (update id q (started g id nodes b)).state.status =
        (update id q (started g id nodes (new g none))).state.status := by
    intro q
    have hvisit := h.visit_eq (some fun _ => 1) nodes [] q
    rw [← hold, ← hnew]
    exact ⟨congrArg Seen.wrote hvisit, congrArg Seen.status hvisit⟩
  by_cases hlen : b.xKeys.length ≤ 255
  · have hread := readLoop_values (b := started g id nodes b) 0 (k := 255 - b.xKeys.length)
      (by simp only [started]; omega)
    have hread' := readLoop_values (b := started g id nodes (new g none)) 0
      (k := 255 - b.xKeys.length) (by simp only [started, new, List.length_nil]; omega)
    obtain ⟨-, hstat⟩ := hseen (List.replicate (255 - b.xKeys.length) (someValue 0))
    have hdone := running_iff id (rfl : (started g id nodes b).status = .running)
      (by rw [hread.2.2]; exact (by decide : (0 : UInt8) ≠ 3))
    have hrun := running_iff id (rfl : (started g id nodes (new g none)).status = .running)
      (by rw [hread'.2.2]; exact (by decide : (0 : UInt8) ≠ 3))
    rw [hread.1, hread.2.1, hstat] at hdone
    rw [hread'.1, hread'.2.1, hdone] at hrun
    simp only [started, new, List.length_nil] at hrun
    omega
  · have hstuck := update_stuck id (rfl : (started g id nodes b).status = .running)
      (by exact (by decide : (0 : UInt8) ≠ 3)) (by simp only [started]; omega)
      [somePoint (NetworkT.of id nodes).prev, somePoint (NetworkT.of id nodes).next]
    have hpoints := readLoop_points (b := started g id nodes (new g none)) rfl
      (by simp only [started]; omega) rfl
    obtain ⟨hwrote, hstat⟩ := hseen
      [somePoint (NetworkT.of id nodes).prev, somePoint (NetworkT.of id nodes).next]
    rw [hstuck] at hwrote hstat
    rcases sent_or_error id rfl hpoints with herr | hsent
    · exact absurd (hstat.trans herr) (by simp [started])
    · exact hsent hwrote.symm

/-- An object that is shut down is as good as new if no difference was kept, and
only then. -/
theorem independent_iff {pt : ZMod g.N → EcpPoint} (hE : g.Exact pt) (hplen : g.plen = 32)
    (hstatus : b.status = .offline) (hlen : b.zi.length = bd1Bufsize * 2) :
    (bd1KeyExchange g id).Independent key seed (new g) b ↔
      b.xKeys = [] :=
  ⟨fun h => not_not.mp fun hkeys => kept_seen id hE hplen hstatus hkeys h,
    independent hstatus hlen⟩

end Bd1KeyExchange

namespace MkaKeyExchange

variable {g : EcpGroup} {pt : ZMod g.N → EcpPoint} {m : MkaKeyExchange}

/-- The packet of a step with the base point. -/
def onePacket (g : EcpGroup) (step : UInt8) (src : UInt16) : Pkt :=
  ⟨cmdMkaPacket, src, 0, step :: g.record g.G⟩

theorem insertKey_keys {src : UInt16} (h : src ∉ m.remoteUsers) (point : List UInt8) :
    (insertKey src point m).remoteKeys =
      memcpy m.remoteKeys (m.remoteUsers.card * mkaBufsize) point := by
  rw [insertKey, if_neg h]

/-- Whoever has a point aside for the step is counted in. -/
theorem mem_useAside (mka : MkaStep) {e : UInt16 × MkaStep}
    (he : e ∈ m.nextStepValues) (hstep : e.2.stepId = m.currentStep) :
    e.1 ∈ (useAside mka m).remoteUsers := by
  have hfold : ∀ (aside : List (UInt16 × MkaStep)) (s : MkaKeyExchange),
      e.2.stepId = s.currentStep → (e ∈ aside ∨ e.1 ∈ s.remoteUsers) →
      e.1 ∈ (aside.foldl (fun m mks => if mks.2.stepId ≠ m.currentStep then m
        else insertKey mks.1 mka.key m) s).remoteUsers := by
    intro aside
    induction aside with
    | nil => exact fun s _ h => h.resolve_left List.not_mem_nil
    | cons mks aside ih =>
        intro s hs h
        rw [List.foldl_cons]
        split
        · next hother =>
            refine ih s hs (h.imp_left fun he => ?_)
            rcases List.mem_cons.mp he with rfl | he
            · exact absurd hs hother
            · exact he
        · refine ih _ (hs.trans (insertKey_fields ..).2.2.symm) ?_
          rw [insertKey_users, Finset.mem_insert]
          rcases h with he | hu
          · rcases List.mem_cons.mp he with rfl | he
            · exact .inr (.inl rfl)
            · exact .inl he
          · exact .inr (.inr hu)
  exact hfold m.nextStepValues { m with nextStepValues := [] } hstep (.inl he)

/-- One packet that is none of the queue's others. -/
theorem readLoop_last {p : Pkt} (hcmd : p.cmd = cmdMkaPacket) (hsrc : p.src ∈ m.nodes)
    (hlt : m.currentStep.toNat < m.nodes.card - 1) :
    (readLoop [p] m).state = (cryptoUpdate p m).1 ∧
    (readLoop [p] m).rest = [] ∧ (readLoop [p] m).ok = (cryptoUpdate p m).2.2 := by
  rw [readLoop, if_pos hlt, if_neg (not_not.mpr hcmd), if_neg (not_not.mpr hsrc)]
  simp only []
  split
  · next hok => exact ⟨rfl, rfl, hok.symm⟩
  · next hok => exact ⟨rfl, rfl, (Bool.eq_false_iff.mpr hok).symm⟩

theorem cryptoUpdate_onePacket (hplen : g.plen = 32) (u : UInt16) (m : MkaKeyExchange) :
    cryptoUpdate (onePacket g m.currentStep u) m =
      if (insert u m.remoteUsers).card = m.nodes.card - 1 then
        finishStep ⟨m.currentStep, g.record g.G⟩ (insertKey u (g.record g.G) m)
      else (insertKey u (g.record g.G) m, [], true) := by
  have hsize : ¬ (onePacket g m.currentStep u).data.length ≠ mkaStepSize := by
    rw [onePacket, List.length_cons, EcpGroup.record_length, hplen]
    decide
  have hplace : place u ⟨m.currentStep, g.record g.G⟩ m = insertKey u (g.record g.G) m :=
    if_pos rfl
  have hof : MkaStep.ofData (onePacket g m.currentStep u).data =
      ⟨m.currentStep, g.record g.G⟩ := rfl
  rw [cryptoUpdate, if_neg hsize]
  simp only []
  rw [hof, onePacket, hplace, insertKey_users, (insertKey_fields ..).2.1]

/-- A point that is not the last of its step. -/
theorem readLoop_wait (hplen : g.plen = 32) {u : UInt16} (hu : u ∈ m.nodes)
    (hlt : m.currentStep.toNat < m.nodes.card - 1)
    (hwait : (insert u m.remoteUsers).card ≠ m.nodes.card - 1) (q : List Pkt) :
    readLoop (onePacket g m.currentStep u :: q) m =
      readLoop q (insertKey u (g.record g.G) m) := by
  have hcmd : ¬ (onePacket g m.currentStep u).cmd ≠ cmdMkaPacket := not_not.mpr rfl
  have hsrc : ¬ (onePacket g m.currentStep u).src ∉ m.nodes := not_not.mpr hu
  rw [readLoop, if_pos hlt, if_neg hcmd, if_neg hsrc, cryptoUpdate_onePacket hplen,
    if_neg hwait]
  rfl

/-- In the second of two steps. -/
def InSecond (nodes : Finset UInt16) (m : MkaKeyExchange) : Prop :=
  m.status = .running ∧ m.nodes = nodes ∧ m.currentStep = 1

theorem InSecond.insertKey {nodes : Finset UInt16} (h : InSecond nodes m) (src : UInt16)
    (point : List UInt8) : InSecond nodes (insertKey src point m) := by
  obtain ⟨hrun, hnodes, hstep⟩ := insertKey_fields src point m
  exact ⟨hrun.trans h.1, hnodes.trans h.2.1, hstep.trans h.2.2⟩

/-- The point that makes the second of two steps complete. -/
theorem lastStep_full (hplen : g.plen = 32) {nodes : Finset UInt16} (h : InSecond nodes m)
    (hcard : nodes.card = 3) {u : UInt16} (hu : u ∈ nodes)
    (hfull : (insert u m.remoteUsers).card = 2) :
    (update [onePacket g 1 u] m).state.status ≠ .running := by
  obtain ⟨hrun, rfl, hstep⟩ := h
  obtain ⟨hstate, -, hok⟩ := readLoop_last (p := onePacket g 1 u) rfl hu
    (by rw [hstep, hcard]; decide)
  have hone := cryptoUpdate_onePacket hplen u m
  obtain ⟨-, hnodes', hstep'⟩ := insertKey_fields u (g.record g.G) m
  have hend : ((insertKey u (g.record g.G) m).currentStep + 1).toNat =
      (insertKey u (g.record g.G) m).nodes.card - 1 := by
    rw [hstep', hstep, hnodes', hcard]
    decide
  rw [hstep, hcard, if_pos hfull, finishStep_eq] at hone
  have hcase := (update_cases [onePacket g 1 u] hrun).2.2
  generalize update [onePacket g 1 u] m = a at hcase ⊢
  obtain ⟨s, rest, w, ok⟩ := a
  intro hgoes
  cases hcase with
  | failed herr => exact absurd (hgoes.symm.trans herr) (by decide)
  | completed => cases hgoes
  | running hloop hstatus hmore =>
      rw [hok, hone] at hloop
      rw [hstate, hone] at hmore
      generalize mkaAccBroadval (insertKey u (g.record g.G) m).ctx
        (insertKey u (g.record g.G) m).remoteKeys = acc at hloop hmore
      cases acc with
      | error e => cases hloop
      | ok ctx =>
          simp only [] at hmore
          rw [if_pos hend] at hmore
          exact hmore hend

/-- Another point in the second of two steps. -/
theorem lastStep_wait (hplen : g.plen = 32) {nodes : Finset UInt16} (h : InSecond nodes m)
    (hcard : nodes.card = 3) {u : UInt16} (hu : u ∈ nodes)
    (hwait : (insert u m.remoteUsers).card ≠ 2) :
    (update [onePacket g 1 u] m).rest = [] ∧
    (update [onePacket g 1 u] m).state = insertKey u (g.record g.G) m := by
  obtain ⟨hrun, rfl, hstep⟩ := h
  obtain ⟨-, hnodes', hstep'⟩ := insertKey_fields u (g.record g.G) m
  have hread := readLoop_wait hplen hu (by rw [hstep, hcard]; decide)
    (by rw [hcard]; exact hwait) []
  have hgoes : ¬ (insertKey u (g.record g.G) m).currentStep.toNat =
      (insertKey u (g.record g.G) m).nodes.card - 1 := by
    rw [hstep', hstep, hnodes', hcard]
    decide
  rw [hstep] at hread
  rw [update, if_neg (not_not.mpr hrun), hread, readLoop]
  simp only []
  rw [if_neg Bool.true_eq_false.mp, if_neg hgoes]
  exact ⟨rfl, rfl⟩

/-- An object that has been started, the scalar being one. -/
def started (g : EcpGroup) (nodes : Finset UInt16) (m : MkaKeyExchange) : MkaKeyExchange :=
  { m with
    drbg := some fun _ => 1
    status := .running
    nodes := nodes
    ctx := ⟨g, 1, g.G, 0, nodes.card, 0⟩
    remoteKeys := m.remoteKeys.take (mkaBufsize * (nodes.card - 1)) ++
      List.replicate (mkaBufsize * (nodes.card - 1) - m.remoteKeys.length) 0
    remoteUsers := ∅
    currentStep := 0 }

theorem init_started (hE : g.Exact pt) (hplen : g.plen = 32) (hstatus : m.status = .offline)
    {nodes : Finset UInt16} (h2 : 2 ≤ nodes.card) (h255 : nodes.card ≤ 255) :
    (init g nodes (seed (some fun _ => 1) m)).1 = started g nodes m := by
  have hprime := Fact.mk hE.prime
  have hoffline : ¬ (seed (some fun _ => 1) m).status ≠ .offline := not_not.mpr hstatus
  have hdrbg : (seed (some fun _ => 1) m).drbg = some fun _ => 1 := rfl
  have hset := mkaSetPart_pt hE h2 (EcpGroup.drawScalar_one hE.prime.one_lt)
  rw [Int.cast_one] at hset
  have hroom : 2 * g.plen + 2 ≤ mkaBufsize := by
    rw [hplen]
    decide
  have hmake : mkaMakeBroadval ⟨g, 1, pt 1, 0, nodes.card, 0⟩ mkaBufsize = _ :=
    mkaMakeBroadval_pt hE Int.one_pos (Nat.one_lt_cast.mpr hE.prime.one_lt) one_ne_zero
      h2 hroom
  rw [sends, if_pos rfl] at hmake
  unfold init
  simp only []
  rw [if_neg hoffline, if_neg (by omega), hdrbg]
  simp only []
  rw [hset]
  simp only [cryptoBroadcast]
  rw [hmake]
  simp only [started]
  rw [hE.base]
  rfl

/-- Two points fill the array of three nodes. -/
theorem two_points {keys point : List UInt8} (hkeys : keys.length = 2 * mkaBufsize)
    (hpoint : point.length = mkaBufsize) :
    memcpy (memcpy keys (0 * mkaBufsize) point) (1 * mkaBufsize) point =
      point ++ point := by
  have hfirst : memcpy keys (0 * mkaBufsize) point = point ++ keys.drop point.length := by
    rw [Nat.zero_mul, memcpy, List.take_zero, List.nil_append, Nat.zero_add]
  have hdrop : (point ++ keys.drop point.length).drop (1 * mkaBufsize + point.length) =
      [] := by
    refine List.drop_eq_nil_of_le ?_
    rw [List.length_append, List.length_drop]
    omega
  rw [hfirst, memcpy, hdrop, Nat.one_mul, ← hpoint, List.take_left, List.append_nil]

/-- What two points in the first of two steps come to. -/
theorem finishFirst (hE : g.Exact pt) (hplen : g.plen = 32) (hN : 3 < g.N)
    (hcard : m.nodes.card = 3) (hstep : m.currentStep = 0)
    (hctx : m.ctx = ⟨g, 1, g.G, 0, 3, 0⟩)
    (hkeys : m.remoteKeys = g.record g.G ++ g.record g.G) (mka : MkaStep) :
    ∃ ctx w, finishStep mka m = (useAside mka { m with
      ctx := ctx, remoteUsers := ∅, currentStep := 1 }, w, true) := by
  have hprime := Fact.mk hE.prime
  have htwo : (2 : ZMod g.N) ≠ 0 := by
    have := EcpGroup.Exact.cast_ne_zero (g := g) (m := 2) (by omega) (by omega)
    rwa [Int.cast_ofNat] at this
  have hacc : mkaAccBroadval m.ctx m.remoteKeys = .ok ⟨g, 1, pt 2, 0, 3, 1⟩ := by
    have hsum : mkaAccBroadval ⟨g, 1, pt 1, 0, 3, 0⟩ (recordsOf g pt [1, 1]) =
        if (2 : ZMod g.N) = 0 then .error .ecpBadInputData
        else .ok ⟨g, 1, pt 2, 0, 3, 1⟩ :=
      mkaAccBroadval_pt hE one_ne_zero (by simp) rfl (Nat.le_succ 2) hN
        ⟨Nat.le_refl _, by rw [hplen]; decide⟩ (by norm_num)
    rw [if_neg htwo] at hsum
    rw [hctx, hkeys, ← hsum, recordsOf, ← hE.base]
    simp
  have hroom : 2 * g.plen + 2 ≤ mkaBufsize := by
    rw [hplen]
    decide
  have hmake : mkaMakeBroadval ⟨g, 1, pt 2, 0, 3, 1⟩ mkaBufsize = _ :=
    mkaMakeBroadval_pt hE Int.one_pos (Nat.one_lt_cast.mpr hE.prime.one_lt) htwo
      (Nat.le_refl 3) hroom
  have hnext : ¬ (m.currentStep + 1).toNat = m.nodes.card - 1 := by
    rw [hstep, hcard]
    decide
  rw [finishStep_eq, hacc]
  simp only []
  rw [if_neg hnext, hmake, hstep]
  exact ⟨_, _, rfl⟩

/-- The first of two steps, with the points of two others. -/
theorem firstStep (hE : g.Exact pt) (hplen : g.plen = 32) (hN : 3 < g.N)
    {nodes : Finset UInt16} (hcard : nodes.card = 3) {u₁ u₂ : UInt16} (hne : u₁ ≠ u₂)
    (h₁ : u₁ ∈ nodes) (h₂ : u₂ ∈ nodes) :
    (update [onePacket g 0 u₁, onePacket g 0 u₂] (started g nodes m)).rest = [] ∧
    ∃ x : MkaKeyExchange, x.status = .running ∧ x.nodes = nodes ∧ x.currentStep = 1 ∧
      x.remoteUsers = ∅ ∧ x.nextStepValues = m.nextStepValues ∧
      (update [onePacket g 0 u₁, onePacket g 0 u₂] (started g nodes m)).state =
        useAside ⟨0, g.record g.G⟩ x := by
  have hpoint : (g.record g.G).length = mkaBufsize := by
    rw [EcpGroup.record_length, hplen]
    rfl
  have hkeys : (started g nodes m).remoteKeys.length = 2 * mkaBufsize := by
    simp only [started, hcard, List.length_append, List.length_take, List.length_replicate]
    omega
  have hread := readLoop_wait (m := started g nodes m) hplen h₁
    (show 0 < nodes.card - 1 by omega)
    (show (insert u₁ ∅ : Finset UInt16).card ≠ nodes.card - 1 by
      rw [insert_empty_eq, Finset.card_singleton]; omega) [onePacket g 0 u₂]
  obtain ⟨hrun, hnodes, hstep⟩ := insertKey_fields u₁ (g.record g.G) (started g nodes m)
  obtain ⟨hctx, haside⟩ := insertKey_kept u₁ (g.record g.G) (started g nodes m)
  have husers := insertKey_users u₁ (g.record g.G) (started g nodes m)
  have hkeys₁ := insertKey_keys (m := started g nodes m) (Finset.notMem_empty u₁)
    (g.record g.G)
  generalize insertKey u₁ (g.record g.G) (started g nodes m) = x at *
  obtain ⟨hrun', hnodes', hstep'⟩ := insertKey_fields u₂ (g.record g.G) x
  obtain ⟨hctx', haside'⟩ := insertKey_kept u₂ (g.record g.G) x
  have hout : u₂ ∉ x.remoteUsers := by
    rw [husers]
    exact fun hc => hne (Finset.mem_singleton.mp hc).symm
  have hkeys₂ := insertKey_keys hout (g.record g.G)
  have htwo := cryptoUpdate_onePacket hplen u₂ x
  obtain ⟨hstate, hrest, hok⟩ := readLoop_last (m := x) (p := onePacket g 0 u₂) rfl
    (by rw [hnodes]; exact h₂) (by rw [hstep, hnodes]; exact (by omega : 0 < nodes.card - 1))
  generalize insertKey u₂ (g.record g.G) x = y at *
  have husers₁ : x.remoteUsers = {u₁} := husers
  have hfull : (insert u₂ x.remoteUsers).card = x.nodes.card - 1 := by
    rw [Finset.card_insert_of_notMem hout, husers₁, Finset.card_singleton, hnodes]
    exact (by omega : 2 = nodes.card - 1)
  rw [husers₁, Finset.card_singleton, hkeys₁] at hkeys₂
  have hboth := two_points hkeys hpoint
  obtain ⟨ctx, w, hfinish⟩ := finishFirst (m := y) hE hplen hN
    (by rw [hnodes', hnodes]; exact hcard) (by rw [hstep', hstep]; rfl)
    (by rw [hctx', hctx, started, hcard]) (hkeys₂.trans hboth) ⟨0, g.record g.G⟩
  have hzero : x.currentStep = 0 := hstep
  rw [if_pos hfull, hzero, hfinish] at htwo
  rw [htwo] at hstate hok
  have hgoes : ¬ (readLoop [onePacket g 0 u₂] x).state.currentStep.toNat =
      (readLoop [onePacket g 0 u₂] x).state.nodes.card - 1 := by
    obtain ⟨-, hn, hs⟩ := useAside_fields ⟨0, g.record g.G⟩ { y with
      ctx := ctx, remoteUsers := ∅, currentStep := 1 }
    have hthree : y.nodes.card = 3 := by rw [hnodes', hnodes]; exact hcard
    rw [hstate, hn, hs, hthree]
    exact (by decide : ¬ (1 : UInt8).toNat = 3 - 1)
  have hzero' : (started g nodes m).currentStep = 0 := rfl
  rw [hzero'] at hread
  rw [update, if_neg (by exact not_not.mpr rfl), hread]
  simp only []
  rw [hok, if_neg Bool.true_eq_false.mp, if_neg hgoes]
  exact ⟨hrest, { y with ctx := ctx, remoteUsers := ∅, currentStep := 1 },
    hrun'.trans hrun, hnodes'.trans hnodes, rfl, rfl, haside'.trans haside, hstate⟩

/-- Two objects that differ in whether a third has a point in the second of two
steps. One of the next two calls tells them apart. -/
theorem counted_seen (hplen : g.plen = 32) {m m' : MkaKeyExchange} {nodes : Finset UInt16}
    (hcard : nodes.card = 3) {u₁ u₂ u₃ : UInt16} (hne : u₁ ≠ u₂) (h₁ : u₁ ∈ nodes)
    (h₂ : u₂ ∈ nodes) (hne₁ : u₃ ≠ u₁) (hne₂ : u₃ ≠ u₂) (hm : InSecond nodes m)
    (hm' : InSecond nodes m') (hthird : u₃ ∈ m.remoteUsers) (hnone : m'.remoteUsers = ∅)
    (hfirst : (update [onePacket g 1 u₁] m).state.status =
      (update [onePacket g 1 u₁] m').state.status)
    (hsecond :
      (update ((update [onePacket g 1 u₁] m).rest ++ [onePacket g 1 u₂])
        (update [onePacket g 1 u₁] m).state).state.status =
      (update ((update [onePacket g 1 u₁] m').rest ++ [onePacket g 1 u₂])
        (update [onePacket g 1 u₁] m').state).state.status) : False := by
  have hone : (insert u₁ m'.remoteUsers).card = 1 := by
    rw [hnone, insert_empty_eq, Finset.card_singleton]
  have hnew := hm'.insertKey u₁ (g.record g.G)
  obtain ⟨hrest', hstate'⟩ := lastStep_wait hplen hm' hcard h₁ (by omega)
  rw [hstate'] at hfirst
  by_cases htwo : (insert u₁ m.remoteUsers).card = 2
  · exact lastStep_full hplen hm hcard h₁ htwo (hfirst.trans hnew.1)
  · obtain ⟨hrest, hstate⟩ := lastStep_wait hplen hm hcard h₁ htwo
    have hthree : ({u₁, u₂, u₃} : Finset UInt16) ⊆ insert u₂ (insert u₁ m.remoteUsers) := by
      intro u hu
      simp only [Finset.mem_insert, Finset.mem_singleton] at hu ⊢
      rcases hu with rfl | rfl | rfl
      · exact .inr (.inl rfl)
      · exact .inl rfl
      · exact .inr (.inr hthird)
    have hcard₃ : ({u₁, u₂, u₃} : Finset UInt16).card = 3 :=
      Finset.card_eq_three.mpr ⟨u₁, u₂, u₃, hne, hne₁.symm, hne₂.symm, rfl⟩
    have hmore := Finset.card_le_card hthree
    have hold := hm.insertKey u₁ (g.record g.G)
    have hrun := (lastStep_wait hplen hold hcard h₂
      (by rw [insertKey_users]; omega)).2
    have hfull := lastStep_full hplen hnew hcard h₂ (by
      rw [insertKey_users, hnone, insert_empty_eq, Finset.card_insert_of_notMem
        (fun hc => hne (Finset.mem_singleton.mp hc).symm), Finset.card_singleton])
    rw [hrest, hstate, hrest', hstate', List.nil_append, hrun] at hsecond
    exact hfull (hsecond.symm.trans (hold.insertKey u₂ (g.record g.G)).1)

/-- A session that shows a point which was put aside for step 1: that of three nodes
whose sender is none of them. -/
theorem aside_seen (hE : g.Exact pt) (hplen : g.plen = 32) (hN : 3 < g.N)
    (hstatus : m.status = .offline) {e : UInt16 × MkaStep} (he : e ∈ m.nextStepValues)
    (hone : e.2.stepId = 1) :
    ¬ (mkaKeyExchange g).Independent key seed (new g) m := by
  intro h
  obtain ⟨src, mka⟩ := e
  have hne {x y : UInt16} (hxy : x ≠ y) : src + x ≠ src + y :=
    fun hc => hxy ((UInt16.add_right_inj src).mp hc)
  have hself {x : UInt16} (hx : x ≠ 0) : src ≠ src + x :=
    fun hc => hx (UInt16.left_eq_add.mp hc)
  have h₁ : src + 1 ∈ ({src + 1, src + 2, src + 3} : Finset UInt16) :=
    Finset.mem_insert_self ..
  have h₂ : src + 2 ∈ ({src + 1, src + 2, src + 3} : Finset UInt16) :=
    Finset.mem_insert_of_mem (Finset.mem_insert_self ..)
  have hcard : ({src + 1, src + 2, src + 3} : Finset UInt16).card = 3 :=
    Finset.card_eq_three.mpr ⟨_, _, _, hne (by decide), hne (by decide), hne (by decide), rfl⟩
  generalize ({src + 1, src + 2, src + 3} : Finset UInt16) = nodes at h₁ h₂ hcard
  have h2 : 2 ≤ nodes.card := by omega
  have h255 : nodes.card ≤ 255 := by omega
  have hinit := init_started hE hplen hstatus h2 h255
  have hinit' := init_started (m := new g none) hE hplen rfl h2 h255
  have htwo : (1 : UInt16) ≠ 2 := by decide
  obtain ⟨hrest, x, hxrun, hxnodes, hxstep, -, hxaside, hx⟩ :=
    firstStep (m := m) hE hplen hN hcard (hne htwo) h₁ h₂
  obtain ⟨hrest', y, hyrun, hynodes, hystep, hyusers, hyaside, hy⟩ :=
    firstStep (m := new g none) hE hplen hN hcard (hne htwo) h₁ h₂
  rw [← hinit] at hrest hx
  rw [← hinit'] at hrest' hy
  have hstart : (mkaKeyExchange g).during key nodes
        [[onePacket g 0 (src + 1), onePacket g 0 (src + 2)]]
        (seed (some fun _ => 1) m) = (useAside ⟨0, g.record g.G⟩ x, []) :=
    Prod.ext hx hrest
  have hstart' : (mkaKeyExchange g).during key nodes
        [[onePacket g 0 (src + 1), onePacket g 0 (src + 2)]]
        (new g (some fun _ => 1)) = (useAside ⟨0, g.record g.G⟩ y, []) :=
    Prod.ext hy hrest'
  have hvisit := h.visit_eq (some fun _ => 1) nodes
    [[onePacket g 0 (src + 1), onePacket g 0 (src + 2)]] [onePacket g 1 (src + 1)]
  have hvisit' := h.visit_eq (some fun _ => 1) nodes
    ([[onePacket g 0 (src + 1), onePacket g 0 (src + 2)]] ++ [[onePacket g 1 (src + 1)]])
    [onePacket g 1 (src + 2)]
  simp only [KeyExchange.during, run_append] at hstart hstart' hvisit hvisit'
  rw [hstart, hstart'] at hvisit hvisit'
  have hsecond : InSecond nodes (useAside ⟨0, g.record g.G⟩ x) := by
    obtain ⟨h1, h2, h3⟩ := useAside_fields ⟨0, g.record g.G⟩ x
    exact ⟨h1.trans hxrun, h2.trans hxnodes, h3.trans hxstep⟩
  have hthird : src ∈ (useAside ⟨0, g.record g.G⟩ x).remoteUsers :=
    mem_useAside ⟨0, g.record g.G⟩ (e := (src, mka)) (hxaside ▸ he) (hone.trans hxstep.symm)
  rw [useAside_nil _ hyaside] at hvisit hvisit'
  exact counted_seen hplen hcard (hne htwo) h₁ h₂ (hself (by decide)) (hself (by decide))
    hsecond ⟨hyrun, hynodes, hystep⟩ hthird hyusers (congrArg Seen.status hvisit)
    (congrArg Seen.status hvisit')

/-- An object that is shut down is as good as new if nothing for step 1 was put
aside, and only then. -/
theorem independent_iff (hE : g.Exact pt) (hplen : g.plen = 32) (hN : 3 < g.N)
    (hstatus : m.status = .offline) :
    (mkaKeyExchange g).Independent key seed (new g) m ↔
      ∀ e ∈ m.nextStepValues, e.2.stepId ≠ 1 :=
  ⟨fun h _ he hone => aside_seen hE hplen hN hstatus he hone h, independent hstatus⟩

end MkaKeyExchange

/-! ## After any history -/

namespace Bd1KeyExchange

theorem zi_place (p : Pkt) {b : Bd1KeyExchange} (h : b.zi.length = bd1Bufsize * 2) :
    (place p b).zi.length = bd1Bufsize * 2 := by
  unfold place
  split
  · exact h
  · next hdata =>
      have hdata := not_not.mp hdata
      split
      · have hfirst := length_half h hdata (Nat.zero_le _)
        simp only []
        split
        · split
          · exact length_half hfirst hdata (Nat.le_refl _)
          · exact hfirst
        · split
          · exact length_half h hdata (Nat.le_refl _)
          · exact h
      · split
        · exact h
        · exact h

theorem zi_update (id : UInt16) (q : List Pkt) {b : Bd1KeyExchange}
    (h : b.zi.length = bd1Bufsize * 2) :
    (update id q b).state.zi.length = bd1Bufsize * 2 := by
  by_cases hrun : b.status = .running
  · have hread := readLoop_rule (I := fun _ m => m.zi.length = bd1Bufsize * 2)
      (C := fun _ => True) (fun _ _ p hm _ _ => zi_place p hm) (q := q)
      (fun _ _ => trivial) (t := []) h
    have hown : ∀ {m w ok}, Own id (readLoop q b).1 (m, w, ok) →
        m.zi.length = bd1Bufsize * 2 := by
      intro m w ok hown
      cases hown with
      | none => exact hread
      | fail => exact hread
      | sent => exact hread
    have hcase := update_cases id q hrun
    generalize update id q b = a at hcase ⊢
    cases hcase with
    | noValue => exact hread
    | noKey h =>
        have hzi := hown h
        exact hzi
    | wait h => exact hown h
    | done h =>
        have hzi := hown h
        exact hzi
  · rw [update_idle id q hrun]
    exact h

end Bd1KeyExchange

section Past

variable (d : Option (Nat → Nat)) (calls : List (Earlier (Option (Nat → Nat))))

/-- `MKAKeyExchange` after earlier sessions, shut down. -/
def MkaKeyExchange.left (g : EcpGroup) : MkaKeyExchange :=
  (mkaKeyExchange g).shutdown
    ((mkaKeyExchange g).past MkaKeyExchange.seed (MkaKeyExchange.new g d) calls)

/-- `BD1KeyExchange` after earlier sessions, shut down. -/
def Bd1KeyExchange.left (g : EcpGroup) (id : UInt16) : Bd1KeyExchange :=
  (bd1KeyExchange g id).shutdown
    ((bd1KeyExchange g id).past Bd1KeyExchange.seed (Bd1KeyExchange.new g d) calls)

theorem Bd1KeyExchange.zi_left (g : EcpGroup) (id : UInt16) :
    (left d calls g id).zi.length = bd1Bufsize * 2 := by
  refine run_inv (I := fun b : Bd1KeyExchange => b.zi.length = bd1Bufsize * 2)
    (fun b call h => ?_) List.length_replicate calls
  cases call with
  | seed d => exact h
  | init nodes => exact (congrArg List.length (init_fields g id nodes b).1).trans h
  | update q => exact zi_update id q h
  | shutdown => exact h

/-- Whatever the earlier sessions were, a session after them is that of a new
object exactly if they left no point aside for step 1, or no difference. -/
theorem sessions_independent_iff {g : EcpGroup} {pt : ZMod g.N → EcpPoint}
    (hE : g.Exact pt) (hplen : g.plen = 32) (hN : 3 < g.N) (id : UInt16) :
    ((mkaKeyExchange g).Independent MkaKeyExchange.key MkaKeyExchange.seed
        (MkaKeyExchange.new g) (MkaKeyExchange.left d calls g) ↔
      ∀ e ∈ (MkaKeyExchange.left d calls g).nextStepValues, e.2.stepId ≠ 1) ∧
    ((bd1KeyExchange g id).Independent Bd1KeyExchange.key Bd1KeyExchange.seed
        (Bd1KeyExchange.new g) (Bd1KeyExchange.left d calls g id) ↔
      (Bd1KeyExchange.left d calls g id).xKeys = []) :=
  ⟨MkaKeyExchange.independent_iff hE hplen hN rfl,
    Bd1KeyExchange.independent_iff id hE hplen rfl
      (Bd1KeyExchange.zi_left d calls g id)⟩

end Past

/-- A session of two or three nodes that was given up with one packet in. -/
def givenUp (nodes : Finset UInt16) (p : Pkt) : List (Earlier (Option (Nat → Nat))) :=
  [.init nodes, .update [p]]

/-- After a packet of step 0 both objects are as good as new. -/
theorem sessions_independent_of_points :
    (mkaKeyExchange sevenPoints).Independent MkaKeyExchange.key MkaKeyExchange.seed
      (MkaKeyExchange.new sevenPoints) (MkaKeyExchange.left (some fun _ => 1)
        (givenUp {1, 2, 3} (MkaKeyExchange.onePacket sevenPoints 0 2)) sevenPoints) ∧
    (bd1KeyExchange sevenPoints 1).Independent Bd1KeyExchange.key Bd1KeyExchange.seed
      (Bd1KeyExchange.new sevenPoints) (Bd1KeyExchange.left (some fun _ => 1)
        (givenUp {1, 2} (Bd1KeyExchange.somePoint 2)) sevenPoints 1) :=
  ⟨(sessions_independent_iff _ _ sevenPoints_exact (by decide) (by decide) 1).1.mpr
      (by decide +kernel),
    (sessions_independent_iff _ _ sevenPoints_exact (by decide) (by decide) 1).2.mpr
      (by decide +kernel)⟩

/-- The points for step 0 and one for step 1. -/
def pointsIn : List (List Pkt) :=
  [[MkaKeyExchange.onePacket sevenPoints 0 2, MkaKeyExchange.onePacket sevenPoints 0 3],
    [MkaKeyExchange.onePacket sevenPoints 1 3]]

/-- A point for step 1, or a difference, that came in a session which was given up
shows in the next one. -/
theorem leftovers_seen :
    (mkaKeyExchange sevenPoints).session MkaKeyExchange.key {1, 2, 3} pointsIn
        (MkaKeyExchange.seed (some fun _ => 1) (MkaKeyExchange.left (some fun _ => 1)
          (givenUp {1, 2, 3} (MkaKeyExchange.onePacket sevenPoints 1 2)) sevenPoints)) ≠
      (mkaKeyExchange sevenPoints).session MkaKeyExchange.key {1, 2, 3} pointsIn
        (MkaKeyExchange.new sevenPoints (some fun _ => 1)) ∧
    (bd1KeyExchange sevenPoints 1).session Bd1KeyExchange.key {1, 2}
        [[Bd1KeyExchange.someValue 2]]
        (Bd1KeyExchange.seed (some fun _ => 1) (Bd1KeyExchange.left (some fun _ => 1)
          (givenUp {1, 2} (Bd1KeyExchange.someValue 2)) sevenPoints 1)) ≠
      (bd1KeyExchange sevenPoints 1).session Bd1KeyExchange.key {1, 2}
        [[Bd1KeyExchange.someValue 2]]
        (Bd1KeyExchange.new sevenPoints (some fun _ => 1)) := by
  constructor
  · intro h
    have hstatus := congrArg (List.map Seen.status) h
    revert hstatus
    decide +kernel
  · intro h
    have hstatus := congrArg (List.map Seen.status) h
    revert hstatus
    decide +kernel

end LibSmoke
