import LibSmoke.Knx.Device

/-!
# Starting again after a failure

A node that is offline can be initialised again, and counts again. When it then
hands its nodes to the key exchange, this one refuses unless it is offline
itself. `_update_handshaking` shuts the exchange down on every way back to
`SKNX_OFFLINE`; `_update_counter` does not when `KeyExchange::init` fails, and
what it leaves is an exchange that has failed, or one that runs without a
behaviour, and refuses for good.
-/

namespace LibSmoke

open Runs

namespace Sknx

variable {κ : Type} {K : KeyExchange κ} {C : Finset UInt16 → κ → Prop} (N : UInt8)

/-- The exchange is offline whenever the node has not begun with it. -/
def Unbegun (K : KeyExchange κ) (s : Sknx κ) : Prop :=
  s.status = .offline ∨ s.status = .counting → K.status s.key = .offline

/-- The turn hands a set to the exchange that it takes. -/
def Hands (s : Sknx κ) : Prop :=
  s.status = .counting ∧ s.counter.status = .completed ∧ Counted s.counter.nodes

theorem Unbegun.turn (hK : K.Opening C) {s : Sknx κ} (h : s.Unbegun K)
    (hopens : s.Hands → C s.counter.nodes s.key) (mustUpdate : Bool) (q : List Pkt) :
    (turn K N mustUpdate q s).state.Unbegun K := by
  unfold Sknx.turn
  split
  · exact h
  · next hs =>
      have hoff := h (.inr hs)
      unfold updateCounter
      split
      · exact fun _ => hoff
      · simp only []
        split <;> exact fun _ => hoff
      · next hdone =>
          simp only []
          by_cases hcount : Counted s.counter.nodes
          · rw [if_pos ((hK.opens _ _ hoff hcount).1.mpr (hopens ⟨hs, hdone, hcount⟩))]
            intro hc
            rcases hc with hc | hc <;> cases hc
          · have hinit := hK.refuses s.counter.nodes s.key hcount
            have hfail : ¬ (K.init s.counter.nodes s.key).2.2 = true := by
              rw [hinit]
              exact Bool.false_ne_true
            have hkey : K.status (K.init s.counter.nodes s.key).1 = .offline := by
              rw [hinit]
              exact hoff
            rw [if_neg hfail]
            exact fun _ => hkey
  · next hs =>
      unfold updateHandshaking
      split
      · next hkey => exact fun _ => hkey
      · exact fun _ => hK.shutdown _
      · simp only []
        split
        · intro hc
          rcases hc with hc | hc <;> cases hs.symm.trans hc
        · exact fun _ => hK.shutdown _
      · intro hc
        rcases hc with hc | hc <;> cases hc
  · next hs =>
      split
      · intro hc
        rcases hc with hc | hc <;> cases hs.symm.trans hc
      · intro hc
        rcases hc with hc | hc <;> cases hc
  · next hs =>
      intro hc
      rcases hc with hc | hc <;> cases hs.symm.trans hc

/-- A turn that hands over a set and finds that the exchange does not open leaves
the node offline and the exchange not. -/
theorem turn_stuck (hK : K.Opening C) {s : Sknx κ} (h : s.Unbegun K) (hhands : s.Hands)
    (hno : ¬ C s.counter.nodes s.key) (mustUpdate : Bool) (q : List Pkt) :
    (turn K N mustUpdate q s).state.status = .offline ∧
    K.status (turn K N mustUpdate q s).state.key ≠ .offline := by
  obtain ⟨hs, hdone, hcount⟩ := hhands
  obtain ⟨hopens, hleft⟩ := hK.opens s.counter.nodes s.key (h (.inr hs)) hcount
  have hfail : ¬ (K.init s.counter.nodes s.key).2.2 = true := mt hopens.mp hno
  rw [turn, hs]
  simp only []
  rw [updateCounter, hdone]
  simp only []
  rw [if_neg hfail]
  exact ⟨rfl, hleft⟩

end Sknx

namespace Device

variable {κ β ε : Type} (K : KeyExchange κ) (C : Finset UInt16 → κ → Prop) (N : UInt8)
  (B : Backend β ε) (mustUpdate : β → Bool) (id : UInt16)

/-- A node that is offline has an exchange that is. -/
def Restartable (d : Device κ β) : Prop :=
  d.sknx.status = .offline → K.status d.sknx.key = .offline

/-- An update that returns and hands a set to the exchange finds that the
exchange opens. -/
def OpensAll (d : Device κ β) : DeviceOp K ε → Prop
  | .update e _ => d.hung = false → d.Returns B id e → d.sknx.Hands →
      C d.sknx.counter.nodes d.sknx.key
  | _ => True

variable {K C} (hK : K.Opening C)

include hK

theorem unbegun_step {d : Device κ β} (h : d.sknx.Unbegun K) (op : DeviceOp K ε)
    (hop : OpensAll K C B id d op) :
    (d.step K N B mustUpdate id op).sknx.Unbegun K := by
  unfold step
  split
  · exact h
  · next hhung =>
      rw [Bool.not_eq_true] at hhung
      cases op with
      | init =>
          simp only [Sknx.init]
          split
          · exact h
          · next hs => exact fun _ => h (.inl (not_not.mp hs))
      | update e final =>
          rcases update_cases K N B mustUpdate id e final d with
            ⟨-, b, hupd⟩ | ⟨hreturns, must, q, a, ha, hsknx, -⟩
          · simp only [hupd]
            exact h
          · have hturn := h.turn N hK (hop hhung hreturns) must q
            rw [← ha] at hturn
            rw [← hsknx] at hturn
            exact hturn
      | crypto f hf => exact fun hs => (hf _).trans (h hs)

/-- An update that finds that the exchange does not open ends the matter. -/
theorem stuck_step {d : Device κ β} (h : d.sknx.Unbegun K) (op : DeviceOp K ε)
    (hop : ¬ OpensAll K C B id d op) :
    ¬ (d.step K N B mustUpdate id op).Restartable K := by
  cases op with
  | init => exact absurd trivial hop
  | crypto f hf => exact absurd trivial hop
  | update e final =>
      simp only [OpensAll, Classical.not_imp] at hop
      obtain ⟨hhung, hreturns, hhands, hno⟩ := hop
      intro hrestart
      unfold step at hrestart
      rw [if_neg (by rw [hhung]; exact Bool.false_ne_true)] at hrestart
      rcases update_cases K N B mustUpdate id e final d with
        ⟨hnever, -⟩ | ⟨-, must, q, a, ha, hsknx, -⟩
      · exact hnever hreturns
      · obtain ⟨hoff, hkey⟩ := Sknx.turn_stuck N hK h hhands hno must q
        rw [← ha, ← hsknx] at hoff hkey
        exact hkey (hrestart hoff)

omit hK in
/-- With any of the four key exchanges a run keeps the exchange offline whenever
the node is exactly if every update that hands a set of 2 to 255 nodes to it
finds that it opens: the generator is there, and its first crypto calls succeed.
In such a run an exchange that is to begin is always offline. -/
theorem restartable_iff (g : EcpGroup) (a : KeyAlgorithm) (drbg : Option a.Numbers)
    (w : PktWrapper) (b : β) (ops : List (DeviceOp (a.exchange g id) ε)) :
    ((∀ n, (runOf N B mustUpdate id g a drbg w b (ops.take n)).Restartable
        (a.exchange g id)) ↔
      Meets (step (a.exchange g id) N B mustUpdate id)
        (OpensAll (a.exchange g id) (fun nodes k => a.Opens g id nodes k) B id)
        (new (a.new g drbg) w b) ops) ∧
    (Meets (step (a.exchange g id) N B mustUpdate id)
        (OpensAll (a.exchange g id) (fun nodes k => a.Opens g id nodes k) B id)
        (new (a.new g drbg) w b) ops →
      ∀ n, (runOf N B mustUpdate id g a drbg w b (ops.take n)).sknx.status = .counting →
        (a.exchange g id).status
          (runOf N B mustUpdate id g a drbg w b (ops.take n)).sknx.key = .offline) := by
  have hK := a.opening g id
  have hnew : (new (a.new g drbg) w b).sknx.Unbegun (a.exchange g id) := by
    intro _
    cases a <;> rfl
  refine ⟨Meets.always_iff (I := fun d => d.sknx.Unbegun (a.exchange g id))
    (fun d h hoff => h (.inl hoff))
    (fun d op h hop => unbegun_step N B mustUpdate id hK h op hop)
    (fun d op h hop => stuck_step N B mustUpdate id hK h op hop) hnew ops, ?_⟩
  intro hmeets n hcounting
  have hunbegun : (runOf N B mustUpdate id g a drbg w b (ops.take n)).sknx.Unbegun
      (a.exchange g id) :=
    Meets.inv (I := fun d => d.sknx.Unbegun (a.exchange g id))
      (fun d op h hop => unbegun_step N B mustUpdate id hK h op hop) hnew (hmeets.take n)
  exact hunbegun (.inr hcounting)

omit hK in
/-- Without a generator the node counts two nodes and is offline again, and its
exchange has failed. -/
theorem noDrbg_not_restartable :
    ¬ ∀ n, (runOf 2 mailbox (fun _ => false) 1 sevenPoints .mka none
      (.new 2 (by decide)) ([], []) (pairOps.take n)).Restartable
        (KeyAlgorithm.exchange sevenPoints 1 .mka) := by
  intro hall
  have hkey := hall 67 (by decide +kernel)
  revert hkey
  decide +kernel

end Device

end LibSmoke
