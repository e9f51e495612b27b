import LibSmoke.Knx.Passing
import LibSmoke.Knx.Progress
import LibSmoke.Knx.Refinement

/-!
# The nodes online

Two of the exchanges do not fail on a curve of prime order: the one along the chain
and the one with a chair. Behind the handshake this carries over to the nodes. In
every run over the relay no node goes offline again, all that are online hold one
key, and when nothing is left to do, everybody holds it (`gdh2_online`,
`bd2_online`).
-/

namespace LibSmoke

namespace Refinement

open Counting

variable {κ : Type} {N : UInt8} {n : Nat}

/-- The bus of `n` nodes after a run; each was told to expect as many. -/
def busOf (K : Fin n → KeyExchange κ) (hN : N.toNat = n) (ids : Fin n → UInt16)
    (key : Fin n → κ) (acts : List (Counting.Action N.toNat)) : Bus (Fin n × κ) N.toNat :=
  Counting.run (KeyExchange.each K) N (fun i => ids (Fin.cast hN i))
    (Counting.start N (fun i => ids (Fin.cast hN i)) fun i => (Fin.cast hN i, key (Fin.cast hN i)))
    acts

theorem busOf_agrees {K : Fin n → KeyExchange κ} {own : UInt8 → Bool} {ids : Fin n → UInt16}
    {key : Fin n → κ} {P : Fin n → κ → List Pkt → List Outgoing → Prop}
    (hS : Sturdy K own ids key P) (hids : Function.Injective ids) (status : κ → KeyStatus)
    (hstatus : ∀ i, (K i).status = status) (hN : N.toNat = n)
    (acts : List (Counting.Action N.toNat)) :
    let seat := fun i => (busOf K hN ids key acts).seat (Fin.cast hN.symm i)
    (∀ i, Up K key i (seat i).node) ∧
    ∃ c : Network.Net κ n,
      c.Carried (Network.route ids) (Network.ofNode own ids) (Network.spare own) ∧
      c.Each P ∧ (∀ i, Matches K i (seat i) (c.node i)) ∧
      (Still (KeyExchange.each K) (busOf K hN ids key acts) → Network.Quiet status c) := by
  subst hN
  exact bus_agrees hS hids hstatus acts

end Refinement

open Refinement

/-! ## Along the chain -/

namespace Chain

variable {g : EcpGroup} {pt : ZMod g.N → EcpPoint} {m : Nat} {ids : Fin (m + 2) → UInt16}
  {r : Nat → Int} {draw : Nat → Nat → Nat}

theorem sturdy (hE : g.Exact pt) (hplen : g.plen = 32) (hids : ∀ i j, i < j → ids i < ids j)
    (hsmall : m + 2 ≤ 255) (hdraw : ∀ k < m + 2, g.drawScalar (draw k) 30 0 = .ok (r k)) :
    Sturdy (fun i => gdh2KeyExchange g (ids i)) Gdh2KeyExchange.own ids
      (fun i => .new (some (draw i))) (NodeOk g pt ids r draw) where
  speaks := speaks g ids
  counted := rfl
  drains := fun _ _ _ hok => Gdh2KeyExchange.update_drains hok
  start := NodeOk.ofNew
  init := fun _ _ _ _ h => h.init hE hplen hids hsmall hdraw
  update := fun _ _ _ _ _ h hq => h.update hE hplen hids hsmall hdraw hq
  begins := by
    intro i
    have hstart := start_eq hE hplen hids hdraw hsmall i.isLt
    rw [start, idOf_val] at hstart
    change (Gdh2KeyExchange.init g (ids i) (Agreement.nodeset ids) _).2.2 = true ∧
      (Gdh2KeyExchange.init g (ids i) (Agreement.nodeset ids) _).1.status ≠ .offline
    rw [hstart]
    exact ⟨rfl, fun hs => by cases hs⟩
  goes := fun _ _ _ _ _ h hq hrun => h.goes hE hplen hids hsmall hdraw hq hrun
  noError := fun _ _ _ _ h => h.noError

/-- Nodes with this exchange behind the handshake, in every run over the relay: no node
goes offline again; one that is online, or about to be, has the key of the product of all
scalars, and the exchange of every node has then sent its one packet; and when nothing
is left to do, every exchange has that key. -/
theorem gdh2_online (hE : g.Exact pt) (hplen : g.plen = 32)
    (hids : ∀ i j, i < j → ids i < ids j)
    (hdraw : ∀ k < m + 2, g.drawScalar (draw k) 30 0 = .ok (r k)) {N : UInt8}
    (hN : N.toNat = m + 2) (acts : List (Counting.Action N.toNat)) :
    let b := busOf (fun i => gdh2KeyExchange g (ids i)) hN ids (fun i => .new (some (draw i)))
      acts
    let seat := fun i => b.seat (Fin.cast hN.symm i)
    let theKey := keyOf g (pt (∏ k ∈ Finset.range (m + 2), (r k : ZMod g.N)))
    (∀ i, (seat i).node.status ≠ .offline) ∧
    (∀ i, (seat i).node.status = .finalizing ∨ (seat i).node.status = .online →
      (seat i).node.key.2.key = theKey ∧
      ∀ k : Fin (m + 2), (seat k).keySent = [valOf ids k (bytesOf g pt r m k)]) ∧
    (Still (KeyExchange.each fun i => gdh2KeyExchange g (ids i)) b → ∀ i,
      (seat i).node.key.2.status = .completed ∧ (seat i).node.key.2.key = theKey) := by
  have hsmall : m + 2 ≤ 255 := hN ▸ Nat.le_of_lt_succ N.toNat_lt
  intro b seat theKey
  obtain ⟨hup, c, hcarried, heach, hmatch, hquiet⟩ :=
    busOf_agrees (sturdy hE hplen hids hsmall hdraw) (ids_injective hids)
      Gdh2KeyExchange.status (fun _ => rfl) hN acts
  have hkey (i : Fin (m + 2)) (hdone : (c.node i).state.status = .completed) :
      (seat i).node.key.2.key = theKey := by
    rw [(hmatch i).key (hup i).up]
    exact key_of_completed (heach i) hdone
  refine ⟨fun i => (hup i).up, fun i hi => ?_, fun hstill i => ?_⟩
  · have hdone := (hmatch i).done hi
    refine ⟨hkey i hdone, fun k => ?_⟩
    rw [(hmatch k).wrote]
    exact wrote_of_completed hcarried heach hdone k
  · have hdone := quiet_completed hids hcarried heach (hquiet hstill) i
    refine ⟨?_, hkey i hdone⟩
    rw [(hmatch i).key (hup i).up]
    exact hdone

end Chain

/-! ## With a chair -/

namespace Chair

variable {g : EcpGroup} {pt : ZMod g.N → EcpPoint} {m : Nat} {ids : Fin (m + 2) → UInt16}
  {r : Fin (m + 2) → Int} {c : Int} {draw : Fin (m + 2) → Nat → Nat → Nat}

theorem sturdy (hE : g.Exact pt) (hplen : g.plen = 32) (hids : ∀ i j, i < j → ids i < ids j)
    (hsmall : m + 2 ≤ 255) (hdraw : ∀ k, g.drawScalar (draw k 0) 30 0 = .ok (r k))
    (hkey : g.drawScalar (draw 0 1) 30 0 = .ok c) :
    Sturdy (fun i => bd2KeyExchange g (ids i)) Bd2KeyExchange.own ids
      (fun i => .new (some (draw i)))
      fun i x t w => NodeOk g pt ids r c draw i x t w ∧ Waits x where
  speaks := speaks g ids
  counted := rfl
  drains := fun i _ _ hok => Bd2KeyExchange.update_drains (ids i) hok
  start := fun i => ⟨NodeOk.ofNew i, fun hs => by cases hs⟩
  init := fun _ _ _ _ h => ⟨h.1.init hE hplen hids hdraw hkey,
    h.2.init hE hplen hids hdraw hkey h.1⟩
  update := fun _ _ _ _ _ h hq => by
    have hq' := hq.mono fun _ _ _ _ hP => hP.1
    exact ⟨h.1.update hE hplen hids hdraw hkey hq', h.2.update hE hplen hids hdraw hkey h.1 hq'⟩
  begins := by
    intro i
    change (Bd2KeyExchange.init g (ids i) (Agreement.nodeset ids) _).2.2 = true ∧
      (Bd2KeyExchange.init g (ids i) (Agreement.nodeset ids) _).1.status ≠ .offline
    have hcase := Bd2KeyExchange.init_cases g (ids i) (Agreement.nodeset ids) (.new (some (draw i)))
    generalize Bd2KeyExchange.init g (ids i) (Agreement.nodeset ids) _ = a at hcase ⊢
    cases hcase with
    | refused h =>
        have hcard := h rfl
        rw [Agreement.card_nodeset (ids_injective hids)] at hcard
        omega
    | noDrbg _ hnone => cases hnone
    | chair _ _ hid hres =>
        rw [lowestIdNode_nodeset hids] at hid
        obtain rfl : i = 0 := ids_injective hids hid
        obtain ⟨b, hinit, -⟩ := initChair_eq hE hplen hdraw hkey (Agreement.nodeset ids)
        obtain rfl := hres.symm.trans hinit
        exact ⟨rfl, fun hs => by cases hs⟩
    | node => exact ⟨rfl, fun hs => by cases hs⟩
  goes := fun _ _ _ _ _ h hq hrun =>
    h.1.goes hE hplen hids hdraw hkey (hq.mono fun _ _ _ _ hP => hP.1) hrun
  noError := fun _ _ _ _ h => h.1.noError

/-- Nodes with this exchange behind the handshake, in every run over the relay: no node
goes offline again; one that is online, or about to be, has the key the chair drew; and
when nothing is left to do, every exchange has that key. -/
theorem bd2_online (hE : g.Exact pt) (hplen : g.plen = 32) (hids : ∀ i j, i < j → ids i < ids j)
    (hdraw : ∀ k, g.drawScalar (draw k 0) 30 0 = .ok (r k))
    (hkey : g.drawScalar (draw 0 1) 30 0 = .ok c) {N : UInt8} (hN : N.toNat = m + 2)
    (acts : List (Counting.Action N.toNat)) :
    let b := busOf (fun i => bd2KeyExchange g (ids i)) hN ids (fun i => .new (some (draw i)))
      acts
    let seat := fun i => b.seat (Fin.cast hN.symm i)
    (∀ i, (seat i).node.status ≠ .offline) ∧
    (∀ i, (seat i).node.status = .finalizing ∨ (seat i).node.status = .online →
      (seat i).node.key.2.key = keyOf g (pt c)) ∧
    (Still (KeyExchange.each fun i => bd2KeyExchange g (ids i)) b → ∀ i,
      (seat i).node.key.2.status = .completed ∧
      (seat i).node.key.2.key = keyOf g (pt c)) := by
  have hsmall : m + 2 ≤ 255 := hN ▸ Nat.le_of_lt_succ N.toNat_lt
  intro b seat
  obtain ⟨hup, net, hcarried, heach, hmatch, hquiet⟩ :=
    busOf_agrees (sturdy hE hplen hids hsmall hdraw hkey) (ids_injective hids)
      Bd2KeyExchange.status (fun _ => rfl) hN acts
  have hagreed (i : Fin (m + 2)) (hdone : (net.node i).state.status = .completed) :
      (seat i).node.key.2.key = keyOf g (pt c) := by
    rw [(hmatch i).key (hup i).up]
    by_cases hi : i = 0
    · subst hi
      exact ((heach 0).1.going (by rw [hdone]; decide)).chair_key
    · exact ((heach i).1.node_completed hi hdone).1
  refine ⟨fun i => (hup i).up, fun i hi => hagreed i ((hmatch i).done hi), fun hstill i => ?_⟩
  have hdone := quiet_completed hcarried heach (hquiet hstill) hids i
  refine ⟨?_, hagreed i hdone⟩
  rw [(hmatch i).key (hup i).up]
  exact hdone

end Chair

/-! ## Three nodes -/

local instance (priority := 2001) three_neZero : @NeZero Nat Zero.ofOfNat0 3 := neZero_three

/-- Every node is given what there is and makes a turn, and the relay takes a packet of
each; as often as it takes to come online. -/
@[irreducible] def rounds : List (Counting.Action (3 : UInt8).toNat) :=
  (List.replicate 76 [.update (0 : Fin 3) 9 false, .relay (0 : Fin 3), .update (1 : Fin 3) 9 false,
    .relay (1 : Fin 3), .update (2 : Fin 3) 9 false, .relay (2 : Fin 3)]).flatten

def gdh2Bus : Counting.Bus (Fin (1 + 2) × Gdh2KeyExchange) (3 : UInt8).toNat :=
  busOf (fun i => gdh2KeyExchange sevenPoints (Agreement.threeIds i)) rfl Agreement.threeIds
    (fun i => .new (some fun _ => [4, 2, 1].getD i 0)) rounds

theorem gdh2_online_three :
    (gdh2Bus.seat (0 : Fin 3)).node.status = .online ∧
    (gdh2Bus.seat (0 : Fin 3)).node.key.2.key = keyOf sevenPoints (sevenPt 1) ∧
    (gdh2Bus.seat (1 : Fin 3)).node.key.2.key = keyOf sevenPoints (sevenPt 1) := by
  have hdraw : ∀ k < 3, sevenPoints.drawScalar (fun _ => [4, 2, 1].getD k 0) 30 0 =
      .ok ([4, 2, 1].getD k 0) := by
    decide
  have hrun : (gdh2Bus.seat (0 : Fin 3)).node.status = .online ∧
      (∀ i, (gdh2Bus.seat i).node.status ≠ .counting ∧ (gdh2Bus.seat i).up = [] ∧
        (gdh2Bus.seat i).outQ = [] ∧ (gdh2Bus.seat i).got = gdh2Bus.log.length ∧
        (gdh2Bus.seat i).inQ = []) := by
    decide +kernel
  obtain ⟨honline, hall⟩ := hrun
  have hstill : Still (KeyExchange.each fun i : Fin (1 + 2) =>
      gdh2KeyExchange sevenPoints (Agreement.threeIds i)) gdh2Bus :=
    ⟨fun i => (hall i).1, fun i => ⟨(hall i).2.1, (hall i).2.2.1⟩,
      fun i => (hall i).2.2.2.1, fun i _ => (hall i).2.2.2.2⟩
  have hprod : keyOf sevenPoints (sevenPt (∏ k ∈ Finset.range (1 + 2),
      ((([4, 2, 1].getD k 0 : Nat) : Int) : ZMod sevenPoints.N))) =
        keyOf sevenPoints (sevenPt 1) := by
    congr 2
  obtain ⟨-, hkey, hend⟩ := Chain.gdh2_online (m := 1) sevenPoints_exact (by decide)
    (show ∀ i j, i < j → Agreement.threeIds i < Agreement.threeIds j by decide) hdraw
    (N := 3) rfl rounds
  exact ⟨honline, (hkey 0 (.inr honline)).1.trans hprod, (hend hstill 1).2.trans hprod⟩

def bd2Bus : Counting.Bus (Fin (1 + 2) × Bd2KeyExchange) (3 : UInt8).toNat :=
  busOf (fun i => bd2KeyExchange sevenPoints (Agreement.threeIds i)) rfl Agreement.threeIds
    (fun i => .new (some (Chair.threeDraw i))) rounds

theorem bd2_online_three :
    (bd2Bus.seat (2 : Fin 3)).node.status = .online ∧
    (bd2Bus.seat (2 : Fin 3)).node.key.2.key = keyOf sevenPoints (sevenPt (5 : Int)) ∧
    (bd2Bus.seat (0 : Fin 3)).node.key.2.key = keyOf sevenPoints (sevenPt (5 : Int)) := by
  have hdraw : ∀ i : Fin 3, sevenPoints.drawScalar (Chair.threeDraw i 0) 30 0 =
      .ok (Agreement.fourTwoOne i) := by
    decide
  have hrun : (bd2Bus.seat (2 : Fin 3)).node.status = .online ∧
      (∀ i, (bd2Bus.seat i).node.status ≠ .counting ∧ (bd2Bus.seat i).up = [] ∧
        (bd2Bus.seat i).outQ = [] ∧ (bd2Bus.seat i).got = bd2Bus.log.length ∧
        (bd2Bus.seat i).inQ = []) := by
    decide +kernel
  obtain ⟨honline, hall⟩ := hrun
  have hstill : Still (KeyExchange.each fun i : Fin (1 + 2) =>
      bd2KeyExchange sevenPoints (Agreement.threeIds i)) bd2Bus :=
    ⟨fun i => (hall i).1, fun i => ⟨(hall i).2.1, (hall i).2.2.1⟩,
      fun i => (hall i).2.2.2.1, fun i _ => (hall i).2.2.2.2⟩
  obtain ⟨-, hkey, hend⟩ := Chair.bd2_online (m := 1) sevenPoints_exact (by decide)
    (show ∀ i j, i < j → Agreement.threeIds i < Agreement.threeIds j by decide) hdraw
    (by decide : sevenPoints.drawScalar (Chair.threeDraw 0 1) 30 0 = .ok 5) (N := 3) rfl rounds
  exact ⟨honline, hkey 2 (.inr honline), (hend hstill 0).2⟩

end LibSmoke
