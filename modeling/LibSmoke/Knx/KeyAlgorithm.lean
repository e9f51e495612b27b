import LibSmoke.Knx.Bd2KeyExchange
import LibSmoke.Knx.Gdh2KeyExchange
import LibSmoke.Knx.MkaKeyExchange

/-!
# The four key exchanges

`SKNX` is a template over the class of its key exchange. Here that is a name,
with the type of its objects (`State`), what the generator gives it (`Numbers`)
and the interface (`exchange`).

Every class opens in the same way. It refuses while it is not offline, and a set
that is too small or too large; from there on it is no longer offline, whether
its first calls succeed or not (`Opening`).
-/

namespace LibSmoke

/-- `KeyAlgorithm`. -/
inductive KeyAlgorithm
  | mka
  | bd1
  | bd2
  | gdh2
  deriving DecidableEq

namespace KeyAlgorithm

def State : KeyAlgorithm → Type
  | .mka => MkaKeyExchange
  | .bd1 => Bd1KeyExchange
  | .bd2 => Bd2KeyExchange
  | .gdh2 => Gdh2KeyExchange

/-- What a generator gives: the numbers of one scalar, or of one after the
other. -/
def Numbers : KeyAlgorithm → Type
  | .bd2 => Nat → Nat → Nat
  | .mka | .bd1 | .gdh2 => Nat → Nat

def exchange (g : EcpGroup) (id : UInt16) : (a : KeyAlgorithm) → KeyExchange a.State
  | .mka => mkaKeyExchange g
  | .bd1 => bd1KeyExchange g id
  | .bd2 => bd2KeyExchange g id
  | .gdh2 => gdh2KeyExchange g id

def new (g : EcpGroup) : (a : KeyAlgorithm) → Option a.Numbers → a.State
  | .mka => MkaKeyExchange.new g
  | .bd1 => Bd1KeyExchange.new g
  | .bd2 => Bd2KeyExchange.new
  | .gdh2 => Gdh2KeyExchange.new

/-- The generator is there, and the crypto calls with which the exchange opens
succeed. -/
def Opens (g : EcpGroup) (id : UInt16) (nodes : Finset UInt16) :
    (a : KeyAlgorithm) → a.State → Prop
  | .mka, (m : MkaKeyExchange) => ∃ draw, m.drbg = some draw ∧
      ∃ ctx, mkaSetPart (mkaInit g) nodes.card draw = .ok ctx ∧
      ∃ res, mkaMakeBroadval ctx mkaBufsize = .ok res
  | .bd1, (m : Bd1KeyExchange) => ∃ draw, m.drbg = some draw ∧
      ∃ res, bd1GenPoint (bd1Init g) bd1Bufsize draw = .ok res
  | .bd2, (m : Bd2KeyExchange) => m.drbg ≠ none ∧ (id = lowestIdNode nodes →
      ∃ ctx pub, bd2MakePublic (bd2Init g) bd2Bufsize (m.draw 0) = .ok (ctx, pub) ∧
      ∃ ctx', bd2MakeKey ctx (m.draw 1) = .ok ctx' ∧
      ∃ key, bd2ExportKey ctx' bd2Bufsize = .ok key)
  | .gdh2, (m : Gdh2KeyExchange) => ∃ draw, m.drbg = some draw ∧
      ∃ ctx, gdh2Init g nodes.card draw = .ok ctx ∧
      ((NetworkT.of id nodes).id = (NetworkT.of id nodes).first →
        ∃ obuf, gdh2MakeFirstval ctx (gdh2Bufsize * (nodes.card + 1)) = .ok obuf)

end KeyAlgorithm

/-- A set that a key exchange takes. -/
def Counted (nodes : Finset UInt16) : Prop := 2 ≤ nodes.card ∧ nodes.card ≤ 255

/-- How a key exchange opens; `C` says whether its first calls succeed. -/
structure KeyExchange.Opening {κ : Type} (K : KeyExchange κ)
    (C : Finset UInt16 → κ → Prop) : Prop where
  shutdown : ∀ k, K.status (K.shutdown k) = .offline
  refuses : ∀ nodes k, ¬ Counted nodes → K.init nodes k = (k, [], false)
  opens : ∀ nodes k, K.status k = .offline → Counted nodes →
    ((K.init nodes k).2.2 = true ↔ C nodes k) ∧
    K.status (K.init nodes k).1 ≠ .offline

theorem counted_iff {nodes : Finset UInt16} :
    ¬ (nodes.card > 255 ∨ nodes.card < 2) ↔ Counted nodes := by
  unfold Counted
  omega

namespace KeyAlgorithm

variable (g : EcpGroup) (id : UInt16)

section Refuses

variable {nodes : Finset UInt16} (hcard : ¬ Counted nodes)

include hcard

theorem refuses_mka (k : MkaKeyExchange) : k.init g nodes = (k, [], false) := by
  rw [MkaKeyExchange.init, if_pos (not_not.mp (mt counted_iff.mp hcard)), ite_self]

theorem refuses_bd1 (k : Bd1KeyExchange) : k.init g id nodes = (k, [], false) := by
  rw [Bd1KeyExchange.init, if_pos (not_not.mp (mt counted_iff.mp hcard)), ite_self]

theorem refuses_bd2 (k : Bd2KeyExchange) : k.init g id nodes = (k, [], false) := by
  rw [Bd2KeyExchange.init, if_pos (not_not.mp (mt counted_iff.mp hcard)), ite_self]

theorem refuses_gdh2 (k : Gdh2KeyExchange) : k.init g id nodes = (k, [], false) := by
  rw [Gdh2KeyExchange.init, if_pos (not_not.mp (mt counted_iff.mp hcard)), ite_self]

end Refuses

section Opens

variable {nodes : Finset UInt16} (hcard : Counted nodes)

include hcard

theorem opens_mka {k : MkaKeyExchange} (hoff : k.status = .offline) :
    ((k.init g nodes).2.2 = true ↔ Opens g id nodes .mka k) ∧
    (k.init g nodes).1.status ≠ .offline := by
  rw [MkaKeyExchange.init, if_neg (not_not.mpr hoff), if_neg (counted_iff.mpr hcard)]
  simp only [Opens]
  cases hdrbg : k.drbg with
  | none => simp
  | some draw =>
      cases hset : mkaSetPart (mkaInit g) nodes.card draw with
      | error e => simp [hset]
      | ok ctx =>
          cases hmake : mkaMakeBroadval ctx mkaBufsize with
          | error e => simp [hset, hmake, MkaKeyExchange.cryptoBroadcast]
          | ok res =>
              obtain ⟨ctx', point⟩ := res
              simp [hset, hmake, MkaKeyExchange.cryptoBroadcast]

theorem opens_bd1 {k : Bd1KeyExchange} (hoff : k.status = .offline) :
    ((k.init g id nodes).2.2 = true ↔ Opens g id nodes .bd1 k) ∧
    (k.init g id nodes).1.status ≠ .offline := by
  rw [Bd1KeyExchange.init, if_neg (not_not.mpr hoff), if_neg (counted_iff.mpr hcard)]
  simp only [Opens]
  cases hdrbg : k.drbg with
  | none => simp
  | some draw =>
      cases hgen : bd1GenPoint (bd1Init g) bd1Bufsize draw with
      | error e => simp [hgen, Bd1KeyExchange.getPrevNextNodes]
      | ok res =>
          obtain ⟨ctx, mykey⟩ := res
          simp [hgen, Bd1KeyExchange.getPrevNextNodes]

theorem opens_bd2 {k : Bd2KeyExchange} (hoff : k.status = .offline) :
    ((k.init g id nodes).2.2 = true ↔ Opens g id nodes .bd2 k) ∧
    (k.init g id nodes).1.status ≠ .offline := by
  rw [Bd2KeyExchange.init, if_neg (not_not.mpr hoff), if_neg (counted_iff.mpr hcard)]
  simp only [Opens]
  by_cases hdrbg : k.drbg = none
  · simp [hdrbg]
  · by_cases hid : id = lowestIdNode nodes
    · simp only [if_neg hdrbg, if_pos hid, Bd2Behavior.initChair, Bd2Behavior.new]
      cases hpub : bd2MakePublic (bd2Init g) bd2Bufsize (k.draw 0) with
      | error e => simp [hid]
      | ok res =>
          obtain ⟨ctx, pub⟩ := res
          cases hkey : bd2MakeKey ctx (k.draw 1) with
          | error e => simp [hid, hkey]
          | ok ctx' =>
              cases hexport : bd2ExportKey ctx' bd2Bufsize with
              | error e => simp [hid, hkey, hexport]
              | ok key => simp [hdrbg, hkey, hexport]
    · simp [hdrbg, hid]

theorem opens_gdh2 {k : Gdh2KeyExchange} (hoff : k.status = .offline) :
    ((k.init g id nodes).2.2 = true ↔ Opens g id nodes .gdh2 k) ∧
    (k.init g id nodes).1.status ≠ .offline := by
  rw [Gdh2KeyExchange.init, if_neg (not_not.mpr hoff), if_neg (counted_iff.mpr hcard)]
  simp only [Opens]
  cases hdrbg : k.drbg with
  | none => simp
  | some draw =>
      simp only [Gdh2Behavior.new]
      cases hinit : gdh2Init g nodes.card draw with
      | error e => simp [Gdh2Behavior.init, hinit]
      | ok ctx =>
          simp only [Gdh2Behavior.init, Gdh2KeyExchange.roleOf]
          by_cases hfirst : (NetworkT.of id nodes).id = (NetworkT.of id nodes).first
          · cases hval : gdh2MakeFirstval ctx (gdh2Bufsize * (nodes.card + 1)) with
            | error e => simp [hfirst, hinit, hval]
            | ok obuf => simp [hfirst, hinit, hval]
          · have hrole : (if (NetworkT.of id nodes).id = (NetworkT.of id nodes).last
                then Gdh2Role.last else .simple) ≠ .first := by
              split <;> decide
            simp [hfirst, hinit, hrole]

end Opens

/-- All four open so. -/
theorem opening (a : KeyAlgorithm) :
    (exchange g id a).Opening fun nodes k => Opens g id nodes a k := by
  cases a with
  | mka => exact ⟨fun _ => rfl, fun _ k h => refuses_mka g h k,
      fun _ _ hoff hcard => opens_mka g id hcard hoff⟩
  | bd1 => exact ⟨fun _ => rfl, fun _ k h => refuses_bd1 g id h k,
      fun _ _ hoff hcard => opens_bd1 g id hcard hoff⟩
  | bd2 => exact ⟨fun _ => rfl, fun _ k h => refuses_bd2 g id h k,
      fun _ _ hoff hcard => opens_bd2 g id hcard hoff⟩
  | gdh2 => exact ⟨fun _ => rfl, fun _ k h => refuses_gdh2 g id h k,
      fun _ _ hoff hcard => opens_gdh2 g id hcard hoff⟩

end KeyAlgorithm

end LibSmoke
