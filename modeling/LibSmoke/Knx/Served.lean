import LibSmoke.Lib.Runs
import LibSmoke.Knx.Bd2KeyExchange
import Mathlib.Data.Finset.Card

/-!
# Whom the chair serves

The chair of `BD2KeyExchange` serves its queue as soon as there is one entry less in
it than there are nodes, whoever the entries are from. So it serves all others and
nobody else as long as the queue has one entry of each then (`Whole`), and in a run in
which no call fails only then (`chair_sound`).
-/

namespace LibSmoke

open Runs

namespace Bd2Behavior

open Bd1KeyExchange (push)

/-- A chair and what it has written. -/
structure Chair where
  b : Bd2Behavior
  sent : List Outgoing

variable (nodes : Finset UInt16) (id : UInt16) (draw : Nat → Nat → Nat)

/-- A chair that has been initialised. -/
def Chair.begun (g : EcpGroup) : Chair :=
  let res := (Bd2Behavior.new g (.chair nodes [])).initChair draw
  ⟨res.state, res.wrote⟩

/-- The chair receives a packet, whatever the calls before came to. -/
def Chair.recv (s : Chair) (p : Pkt) : Chair :=
  let res := s.b.onRecv id draw p
  ⟨res.state, s.sent ++ res.wrote⟩

/-- Once it has completed the chair has served every other node, and it has served
nobody who is none of the nodes. -/
def Chair.Sound (s : Chair) : Prop :=
  (s.b.completed = true →
    ∀ i ∈ nodes.erase id, ∃ o ∈ s.sent, o.cmd = cmdBd2ChairXi ∧ o.dest = i) ∧
  ∀ o ∈ s.sent, o.cmd = cmdBd2ChairXi → o.dest ∈ nodes

def nodesQueue (b : Bd2Behavior) : List (UInt16 × List UInt8) :=
  match b.role with
  | .chair _ nodesQueue => nodesQueue
  | .node _ => []

/-- The queue once the packet has been looked at. -/
def queued (b : Bd2Behavior) (p : Pkt) : List (UInt16 × List UInt8) :=
  if p.cmd = cmdBd2NodeZi then push (p.src, p.data) b.nodesQueue else b.nodesQueue

/-- The packet makes the chair serve its queue. -/
def Serves (b : Bd2Behavior) (p : Pkt) : Prop :=
  p.data.length = bd2Bufsize ∧ p.dest = id ∧ (b.queued p).length = nodes.card - 1

instance (b : Bd2Behavior) (p : Pkt) : Decidable (Serves nodes id b p) :=
  inferInstanceAs (Decidable (_ ∧ _ ∧ _))

/-- A queue that is served has entries of the nodes only, and if it is served for the
first time one of each other node. -/
def Chair.Whole (s : Chair) (p : Pkt) : Prop :=
  Serves nodes id s.b p → (∀ i ∈ (s.b.queued p).map Prod.fst, i ∈ nodes) ∧
    (s.b.completed = false →
      ((s.b.queued p).map Prod.fst).Nodup ∧ id ∉ (s.b.queued p).map Prod.fst)

instance Chair.Whole.decidable (s : Chair) (p : Pkt) : Decidable (s.Whole nodes id p) :=
  have : Decidable (∀ i ∈ (s.b.queued p).map Prod.fst, i ∈ nodes) := List.decidableBAll ..
  inferInstanceAs (Decidable (_ → _ ∧ _))

/-! ## One packet -/

section Packet

variable {nodes id} {b : Bd2Behavior} {q : List (UInt16 × List UInt8)}

/-- The loop serves the entries from the front on, and where it comes to the end all of
them. -/
theorem serve_dests (q : List (UInt16 × List UInt8)) (ctx : Bd2Context) :
    (serve q ctx).2.2.1.map Outgoing.dest <+: q.map Prod.fst ∧
    (∀ o ∈ (serve q ctx).2.2.1, o.cmd = cmdBd2ChairXi) ∧
    ((serve q ctx).2.2.2 = true →
      (serve q ctx).2.2.1.map Outgoing.dest = q.map Prod.fst) := by
  induction q generalizing ctx with
  | nil => exact ⟨List.nil_prefix, fun o ho => (by cases ho), fun _ => rfl⟩
  | cons k q ih =>
      rw [serve]
      split
      · exact ⟨List.nil_prefix, fun o ho => (by cases ho), fun h => (by cases h)⟩
      · split
        · exact ⟨List.nil_prefix, fun o ho => (by cases ho), fun h => (by cases h)⟩
        · next ctx' temp _ =>
            obtain ⟨hpre, hcmd, hall⟩ := ih ctx'
            refine ⟨?_, ?_, ?_⟩
            · exact List.cons_prefix_cons.mpr ⟨rfl, hpre⟩
            · intro o ho
              rcases List.mem_cons.mp ho with rfl | ho
              · rfl
              · exact hcmd o ho
            · intro hok
              exact congrArg (k.1 :: ·) (hall hok)

/-- A packet that does not make the chair serve leaves it as it was, save for the
queue. -/
theorem onRecv_waits (hrole : b.role = .chair nodes q) {p : Pkt}
    (h : ¬ Serves nodes id b p) :
    (b.onRecv id draw p).wrote = [] ∧
    (b.onRecv id draw p).state.completed = b.completed ∧
    ∃ q', (b.onRecv id draw p).state.role = .chair nodes q' := by
  have hqueue : b.nodesQueue = q := by rw [nodesQueue, hrole]
  rw [Serves, queued, hqueue] at h
  rw [onRecv, hrole]
  simp only [chairRecv]
  generalize (if p.cmd = cmdBd2NodeZi then push (p.src, p.data) q else q) = q' at h ⊢
  split
  · exact ⟨rfl, rfl, q, hrole⟩
  · next hdata =>
      split
      · exact ⟨rfl, rfl, q, hrole⟩
      · next hdest =>
          split
          · next hlen => exact absurd ⟨not_not.mp hdata, not_not.mp hdest, hlen⟩ h
          · exact ⟨rfl, rfl, q', rfl⟩

theorem onRecv_serves (hrole : b.role = .chair nodes q) {p : Pkt}
    (h : Serves nodes id b p) :
    (b.onRecv id draw p).wrote = (serve (b.queued p) b.ctx).2.2.1 ∧
    (b.onRecv id draw p).ok = (serve (b.queued p) b.ctx).2.2.2 ∧
    (b.onRecv id draw p).state.completed =
      (b.completed || (serve (b.queued p) b.ctx).2.2.2) ∧
    ∃ q', (b.onRecv id draw p).state.role = .chair nodes q' := by
  obtain ⟨hdata, hdest, hlen⟩ := h
  have hqueue : b.nodesQueue = q := by rw [nodesQueue, hrole]
  rw [queued, hqueue] at hlen ⊢
  rw [onRecv, hrole]
  simp only [chairRecv]
  generalize (if p.cmd = cmdBd2NodeZi then push (p.src, p.data) q else q) = q' at hlen ⊢
  rw [if_neg (not_not.mpr hdata), if_neg (not_not.mpr hdest), if_pos hlen]
  exact ⟨rfl, rfl, rfl, _, rfl⟩

end Packet

/-! ## A run -/

section Run

variable {nodes id}

/-- Keys of nodes, as many as there are other nodes, have all other nodes among them
exactly if they are those of the other nodes, each once. -/
theorem keys_full (hid : id ∈ nodes) {keys : List UInt16}
    (hlen : keys.length = nodes.card - 1) (hkeys : ∀ i ∈ keys, i ∈ nodes) :
    (∀ i ∈ nodes.erase id, i ∈ keys) ↔ keys.Nodup ∧ id ∉ keys := by
  have hcard : (nodes.erase id).card = keys.length := by
    rw [Finset.card_erase_of_mem hid, hlen]
  constructor
  · intro h
    have hsub : nodes.erase id ⊆ keys.toFinset := fun i hi => List.mem_toFinset.mpr (h i hi)
    have hle : keys.toFinset.card ≤ (nodes.erase id).card :=
      hcard ▸ List.toFinset_card_le keys
    have heq := Finset.eq_of_subset_of_card_le hsub hle
    refine ⟨?_, fun hmem => ?_⟩
    · rw [← List.dedup_eq_self]
      refine (List.dedup_sublist keys).eq_of_length ?_
      rw [← List.card_toFinset, ← heq, hcard]
    · rw [← List.mem_toFinset, ← heq] at hmem
      exact Finset.notMem_erase id nodes hmem
  · rintro ⟨hnodup, hown⟩ i hi
    have hsub : keys.toFinset ⊆ nodes.erase id := by
      intro j hj
      rw [List.mem_toFinset] at hj
      exact Finset.mem_erase.mpr ⟨fun h => hown (h ▸ hj), hkeys j hj⟩
    have hle : (nodes.erase id).card ≤ keys.toFinset.card := by
      rw [List.toFinset_card_of_nodup hnodup, hcard]
    exact List.mem_toFinset.mp (Finset.eq_of_subset_of_card_le hsub hle ▸ hi)

/-- What holds of a chair as long as what it serves is whole. -/
structure Chair.Kept (nodes : Finset UInt16) (id : UInt16) (s : Chair) : Prop where
  role : ∃ q, s.b.role = .chair nodes q
  sound : s.Sound nodes id

/-- What moreover holds as long as no call fails: what is served is served at once. -/
structure Chair.KeptOk (nodes : Finset UInt16) (id : UInt16) (s : Chair) : Prop
    extends s.Kept nodes id where
  waits : s.b.completed = false → ∀ o ∈ s.sent, o.cmd ≠ cmdBd2ChairXi

theorem begun_kept (g : EcpGroup) : (Chair.begun nodes draw g).KeptOk nodes id := by
  have hnew : ∀ (ctx : Bd2Context) (key : List UInt8) (n : Nat) (o : List Outgoing),
      (∀ x ∈ o, x.cmd ≠ cmdBd2ChairXi) →
      (⟨⟨n, key, false, ctx, .chair nodes []⟩, o⟩ : Chair).KeptOk nodes id :=
    fun ctx key n o ho => ⟨⟨⟨[], rfl⟩, fun h => (by cases h), fun x hx h => absurd h (ho x hx)⟩,
      fun _ => ho⟩
  have hz0 : ∀ pub : List UInt8, ∀ x ∈ [bufferPacket broadcastAddr cmdBd2ChairZ0 pub],
      x.cmd ≠ cmdBd2ChairXi := by
    intro pub x hx
    rw [List.mem_singleton.mp hx]
    show cmdBd2ChairZ0 ≠ cmdBd2ChairXi
    decide
  simp only [Chair.begun, initChair, new]
  split
  · exact hnew _ _ _ _ fun x hx => (by cases hx)
  · split
    · exact hnew _ _ _ _ (hz0 _)
    · split
      · exact hnew _ _ _ _ (hz0 _)
      · exact hnew _ _ _ _ (hz0 _)

theorem recv_kept (hid : id ∈ nodes) {s : Chair} (h : s.Kept nodes id) {p : Pkt}
    (hp : s.Whole nodes id p) : (s.recv id draw p).Kept nodes id := by
  obtain ⟨⟨q, hrole⟩, hdone, hinside⟩ := h
  by_cases hserves : Serves nodes id s.b p
  · obtain ⟨hkeys, honce⟩ := hp hserves
    obtain ⟨hwrote, -, hcompleted, hrole'⟩ := onRecv_serves draw hrole hserves
    obtain ⟨hpre, -, hall⟩ := serve_dests (s.b.queued p) s.b.ctx
    rw [← hwrote] at hpre hall
    refine ⟨hrole', fun hend i hi => ?_, fun o ho hcmd => ?_⟩
    · cases hnow : s.b.completed with
      | true =>
          obtain ⟨o, ho, hto⟩ := hdone hnow i hi
          exact ⟨o, List.mem_append_left _ ho, hto⟩
      | false =>
          have hok : (serve (s.b.queued p) s.b.ctx).2.2.2 = true := by
            have := hcompleted.symm.trans hend
            rwa [hnow, Bool.false_or] at this
          have hmem := (keys_full hid ((List.length_map _).trans hserves.2.2) hkeys).mpr
            (honce hnow) i hi
          rw [← hall hok] at hmem
          obtain ⟨o, ho, hto⟩ := List.mem_map.mp hmem
          refine ⟨o, List.mem_append_right _ ho, ?_, hto⟩
          exact (serve_dests (s.b.queued p) s.b.ctx).2.1 o (hwrote ▸ ho)
    · rcases List.mem_append.mp ho with ho | ho
      · exact hinside o ho hcmd
      · exact hkeys _ (hpre.subset (List.mem_map_of_mem ho))
  · obtain ⟨hwrote, hcompleted, hrole'⟩ := onRecv_waits draw hrole hserves
    have hsent : (s.recv id draw p).sent = s.sent := by
      rw [Chair.recv, hwrote, List.append_nil]
    refine ⟨hrole', fun hend => ?_, ?_⟩
    · rw [hsent]
      exact hdone (hcompleted.symm.trans hend)
    · rw [hsent]
      exact hinside

/-- A chair that has served to the end is done. -/
theorem recv_completed {s : Chair} {q : List (UInt16 × List UInt8)}
    (hrole : s.b.role = .chair nodes q) {p : Pkt} (hserves : Serves nodes id s.b p)
    (hok : (s.b.onRecv id draw p).ok = true) : (s.recv id draw p).b.completed = true := by
  obtain ⟨-, hres, hcompleted, -⟩ := onRecv_serves draw hrole hserves
  rw [Chair.recv, hcompleted, ← hres, hok, Bool.or_true]

theorem recv_keptOk (hid : id ∈ nodes) {s : Chair} (h : s.KeptOk nodes id) {p : Pkt}
    (hok : (s.b.onRecv id draw p).ok = true) (hp : s.Whole nodes id p) :
    (s.recv id draw p).KeptOk nodes id := by
  refine ⟨recv_kept draw hid h.toKept hp, fun hend => ?_⟩
  obtain ⟨q, hrole⟩ := h.role
  by_cases hserves : Serves nodes id s.b p
  · rw [recv_completed draw hrole hserves hok] at hend
    cases hend
  · obtain ⟨hwrote, hcompleted, -⟩ := onRecv_waits draw hrole hserves
    rw [Chair.recv, hwrote, List.append_nil]
    exact h.waits (hcompleted.symm.trans hend)

/-- A chair that serves what is not whole, and does so to the end, has served somebody
outside or left a node out. -/
theorem recv_unsound (hid : id ∈ nodes) {s : Chair} (h : s.KeptOk nodes id) {p : Pkt}
    (hok : (s.b.onRecv id draw p).ok = true) (hp : ¬ s.Whole nodes id p) :
    ¬ (s.recv id draw p).Sound nodes id := by
  rintro ⟨hdone, hinside⟩
  refine hp fun hserves => ?_
  obtain ⟨q, hrole⟩ := h.role
  obtain ⟨hwrote, hres, -⟩ := onRecv_serves draw hrole hserves
  obtain ⟨-, hcmd, hall⟩ := serve_dests (s.b.queued p) s.b.ctx
  have hdests := hall (hres.symm.trans hok)
  rw [← hwrote] at hcmd hdests
  have hkeys : ∀ i ∈ (s.b.queued p).map Prod.fst, i ∈ nodes := by
    intro i hi
    rw [← hdests] at hi
    obtain ⟨o, ho, rfl⟩ := List.mem_map.mp hi
    exact hinside o (List.mem_append_right _ ho) (hcmd o ho)
  refine ⟨hkeys, fun hnow => ?_⟩
  refine (keys_full hid ((List.length_map _).trans hserves.2.2) hkeys).mp fun i hi => ?_
  obtain ⟨o, ho, hxi, rfl⟩ := hdone (recv_completed draw hrole hserves hok) i hi
  rw [← hdests]
  rcases List.mem_append.mp ho with ho | ho
  · exact absurd hxi (h.waits hnow o ho)
  · exact List.mem_map_of_mem ho

/-- In every run a chair whose queue is whole whenever it is served completes for the
whole group only and serves the group only; and where no call fails, only such a chair
does. -/
theorem chair_sound (g : EcpGroup) (hid : id ∈ nodes) (ps : List Pkt) :
    (Meets (Chair.recv id draw) (Chair.Whole nodes id) (Chair.begun nodes draw g) ps →
      ∀ n, (run (Chair.recv id draw) (Chair.begun nodes draw g) (ps.take n)).Sound
        nodes id) ∧
    (Meets (Chair.recv id draw) (fun s p => (s.b.onRecv id draw p).ok = true)
        (Chair.begun nodes draw g) ps →
      (∀ n, (run (Chair.recv id draw) (Chair.begun nodes draw g) (ps.take n)).Sound
        nodes id) →
      Meets (Chair.recv id draw) (Chair.Whole nodes id) (Chair.begun nodes draw g) ps) := by
  have hbegun : (Chair.begun nodes draw g).KeptOk nodes id := begun_kept draw g
  refine ⟨fun hwhole n => ?_, fun hok => ?_⟩
  · refine (Meets.inv (I := Chair.Kept nodes id) ?_ hbegun.toKept (hwhole.take n)).sound
    exact fun s p hs hp => recv_kept draw hid hs hp
  · refine Meets.of_always (I := Chair.KeptOk nodes id) ?_ ?_ hbegun hok
    · exact fun s p hs hp hw => recv_keptOk draw hid hs hp hw
    · exact fun s p hs hp hw => recv_unsound draw hid hs hp hw

/-- What the reading loop of an exchange does with the packets it takes is such a run. -/
theorem readLoop_chair (ps : List Pkt) {m : Bd2KeyExchange} {s : Chair}
    (hb : m.behavior = some s.b) (h : ∃ q, s.b.role = .chair nodes q) :
    ∃ taken, ps = taken ++ (Bd2KeyExchange.readLoop id ps m).rest ∧
      (Bd2KeyExchange.readLoop id ps m).state.behavior =
        some (run (Chair.recv id m.draw) s taken).b ∧
      s.sent ++ (Bd2KeyExchange.readLoop id ps m).wrote =
        (run (Chair.recv id m.draw) s taken).sent := by
  induction ps generalizing m s with
  | nil => exact ⟨[], rfl, hb, List.append_nil _⟩
  | cons p ps ih =>
      obtain ⟨q, hrole⟩ := h
      have hdrawn : (s.b.onRecv id m.draw p).drawn = 0 := by
        rw [onRecv, hrole]
        simp only [chairRecv, apply_ite Result.drawn, ite_self]
      have hdraw : (m.behave (s.b.onRecv id m.draw p)).draw = m.draw := by
        rw [Bd2KeyExchange.behave, hdrawn]
        rfl
      have hnext : ∃ q, (s.recv id m.draw p).b.role = .chair nodes q := by
        by_cases hserves : Serves nodes id s.b p
        · exact (onRecv_serves m.draw hrole hserves).2.2.2
        · exact (onRecv_waits m.draw hrole hserves).2.2
      rw [Bd2KeyExchange.readLoop_some id p ps hb]
      split
      · obtain ⟨taken, htaken, hstate, hsent⟩ :=
          ih (m := m.behave (s.b.onRecv id m.draw p)) (s := s.recv id m.draw p) rfl hnext
        rw [hdraw] at hstate hsent
        refine ⟨p :: taken, congrArg (p :: ·) htaken, hstate, ?_⟩
        rw [← List.append_assoc]
        exact hsent
      · exact ⟨[p], rfl, rfl, rfl⟩

end Run

/-! ## Two packets of one node -/

/-- A point from `src` for node 1. -/
def nodePoint (src : UInt16) : Pkt := ⟨cmdBd2NodeZi, src, 1, sevenPoints.record sevenPoints.G⟩

/-- Node 1 is the chair of three nodes, and gets points of `a` and `b`. -/
def servedFrom (a b : UInt16) : Chair :=
  run (Chair.recv 1 fun _ _ => 1) (Chair.begun {1, 2, 3} (fun _ _ => 1) sevenPoints)
    [nodePoint a, nodePoint b]

theorem chair_sound_three : (servedFrom 2 3).Sound {1, 2, 3} 1 :=
  (chair_sound (fun _ _ => 1) sevenPoints (show (1 : UInt16) ∈ ({1, 2, 3} : Finset UInt16) by
    decide) [nodePoint 2, nodePoint 3]).1 (by decide +kernel) 2

theorem node_served_twice :
    ¬ ∀ ps, (run (Chair.recv 1 fun _ _ => 1)
        (Chair.begun {1, 2, 3} (fun _ _ => 1) sevenPoints) ps).Sound {1, 2, 3} 1 := by
  intro h
  have hdone : (servedFrom 2 2).b.completed = true := by decide +kernel
  obtain ⟨o, ho, -, hto⟩ := (h [nodePoint 2, nodePoint 2]).1 hdone 3 (by decide)
  have hnone : (servedFrom 2 2).sent.all (·.dest != 3) = true := by decide +kernel
  exact bne_iff_ne.mp (List.all_eq_true.mp hnone o ho) hto

end Bd2Behavior

end LibSmoke
