import LibSmoke.Knx.Delivery
import LibSmoke.Knx.KeyAlgorithm
import LibSmoke.Knx.Sending

/-!
# A node until it is online

`SKNX` with its packet layer over a backend, in any run of calls. An update
hands over what the update before it wrote, so what has been written is ahead of
what has been passed to the backend by what is in `_out`. A node only leaves
`SKNX_HANDSHAKING` in an update that finds the exchange completed, and this one
has handed over everything and writes nothing.
-/

namespace LibSmoke

open Runs

/-- A backend that remembers the telegrams it is passed. -/
def Backend.logged {β ε : Type} (B : Backend β ε) : Backend (β × List Telegram) ε where
  update := fun e b => (((B.update e b.1).1, b.2), (B.update e b.1).2)
  broadcast := fun b t =>
    (((B.broadcast b.1 t).1, b.2 ++ [t]), (B.broadcast b.1 t).2)
  read := fun b => (((B.read b.1).1, b.2), (B.read b.1).2)
  count := fun b => B.count b.1

theorem Backend.logged_flush {β ε : Type} (B : Backend β ε) (ts : List Telegram)
    (b : β × List Telegram) : (B.logged.flush ts b).2 = b.2 ++ ts := by
  induction ts generalizing b with
  | nil => exact (List.append_nil _).symm
  | cons t ts ih =>
      rw [Backend.flush, ih]
      exact List.append_assoc b.2 [t] ts

theorem Backend.logged_recvLoop {β ε : Type} (B : Backend β ε) (id : UInt16)
    {fuel : Nat} {b b' : β × List Telegram} {w w' : PktWrapper}
    (h : PktWrapper.recvLoop B.logged id fuel b w = some (b', w')) : b'.2 = b.2 := by
  induction fuel generalizing b w with
  | zero => cases h
  | succ fuel ih =>
      rw [PktWrapper.recvLoop] at h
      split at h
      · split at h
        · next b₁ t hread =>
            have hlog : b₁.2 = b.2 := congrArg (fun x => x.1.2) hread.symm
            exact (ih h).trans hlog
        · next b₁ hread =>
            have hlog : b₁.2 = b.2 := congrArg (fun x => x.1.2) hread.symm
            exact (ih h).trans hlog
      · cases h
        rfl

/-- `SKNX` over a backend. The telegrams that the counter and the exchange wrote
are kept as history; once an update does not return nothing happens any more. -/
structure Device (κ β : Type) where
  sknx : Sknx κ
  pktwrapper : PktWrapper
  backend : β × List Telegram
  written : List Telegram
  hung : Bool

/-- What can be done to a device. An update may make the backend update twice.
Between two calls anything may happen to what the exchange works with, its
generator and its numbers, but not to its status. -/
inductive DeviceOp {κ : Type} (K : KeyExchange κ) (ε : Type)
  | init
  | update (e final : ε)
  | crypto (f : κ → κ) (hf : ∀ k, K.status (f k) = K.status k)

namespace Device

variable {κ β ε : Type} (K : KeyExchange κ) (N : UInt8) (B : Backend β ε)
  (mustUpdate : β → Bool) (id : UInt16)

/-- The telegrams passed to `broadcast`. -/
def passed (d : Device κ β) : List Telegram := d.backend.2

def new (key : κ) (w : PktWrapper) (b : β) : Device κ β :=
  ⟨.new key, { w with outQ := [] }, (b, []), [], false⟩

/-- `SKNX::update`. -/
def update (e final : ε) (d : Device κ β) : Device κ β :=
  match PktWrapper.update B.logged id e d.backend d.pktwrapper with
  | none =>
      { d with
        backend := B.logged.flush d.pktwrapper.outQ (B.logged.update e d.backend).1
        pktwrapper := { d.pktwrapper with outQ := [] }
        hung := true }
  | some (b, w) =>
      let a := Sknx.turn K N (mustUpdate b.1) w.inQ d.sknx
      { sknx := a.state
        pktwrapper := a.wrote.foldl (fun w p => (PktWrapper.write id w p).1)
          { w with inQ := a.rest }
        backend := if d.sknx.status = .finalizing ∧ mustUpdate b.1 = true
          then (B.logged.update final b).1 else b
        written := d.written ++ a.wrote.flatMap (PktWrapper.telegramsOf id)
        hung := false }

def step (d : Device κ β) (op : DeviceOp K ε) : Device κ β :=
  if d.hung then d
  else
    match op with
    | .init => { d with sknx := (d.sknx.init id).1 }
    | .update e final => d.update K N B mustUpdate id e final
    | .crypto f _ => { d with sknx := { d.sknx with key := f d.sknx.key } }

/-- The exchange is through. -/
def Done (d : Device κ β) : Prop :=
  d.sknx.status = .finalizing ∨ d.sknx.status = .online

/-- The packet layer comes back from an update. -/
def Returns (e : ε) (d : Device κ β) : Prop :=
  PktWrapper.update B.logged id e d.backend d.pktwrapper ≠ none

/-- What an update does, whether or not it returns. -/
theorem update_cases (e final : ε) (d : Device κ β) :
    (¬ d.Returns B id e ∧ ∃ b, d.update K N B mustUpdate id e final = { d with
      backend := (b, d.passed ++ d.pktwrapper.outQ)
      pktwrapper := { d.pktwrapper with outQ := [] }
      hung := true }) ∨
    d.Returns B id e ∧ ∃ must q, ∃ a, a = Sknx.turn K N must q d.sknx ∧
      (d.update K N B mustUpdate id e final).sknx = a.state ∧
      (d.update K N B mustUpdate id e final).passed = d.passed ++ d.pktwrapper.outQ ∧
      (d.update K N B mustUpdate id e final).pktwrapper.outQ =
        a.wrote.flatMap (PktWrapper.telegramsOf id) ∧
      (d.update K N B mustUpdate id e final).written =
        d.written ++ a.wrote.flatMap (PktWrapper.telegramsOf id) := by
  have hflush : (B.logged.flush d.pktwrapper.outQ (B.logged.update e d.backend).1).2 =
      d.passed ++ d.pktwrapper.outQ := B.logged_flush _ _
  rw [update, Returns]
  cases hupd : PktWrapper.update B.logged id e d.backend d.pktwrapper with
  | none =>
      refine .inl ⟨fun hc => hc rfl, (B.logged.flush d.pktwrapper.outQ (B.logged.update e d.backend).1).1, ?_⟩
      simp only []
      rw [← hflush]
  | some res =>
      obtain ⟨b, w⟩ := res
      have hlog : b.2 = d.passed ++ d.pktwrapper.outQ :=
        (B.logged_recvLoop id hupd).trans hflush
      have hout : w.outQ = [] := Sender.outQ_recvLoop id hupd
      refine .inr ⟨fun hc => (by cases hc), mustUpdate b.1, w.inQ, _, rfl, rfl, ?_, ?_, rfl⟩
      · rw [passed]
        simp only []
        split
        · exact hlog
        · exact hlog
      · simp only [PktWrapper.foldl_write, hout, List.nil_append]

/-- A device with the key exchange `a` after a run, started with nothing in
`_out`. -/
def runOf (g : EcpGroup) (a : KeyAlgorithm) (drbg : Option a.Numbers) (w : PktWrapper)
    (b : β) (ops : List (DeviceOp (a.exchange g id) ε)) : Device a.State β :=
  run (step (a.exchange g id) N B mustUpdate id) (new (a.new g drbg) w b) ops

/-- What holds of a device at any time. -/
structure Ok (d : Device κ β) : Prop where
  account : d.written = d.passed ++ d.pktwrapper.outQ
  done : d.Done → K.status d.sknx.key = .completed ∧ d.pktwrapper.outQ = []

theorem Ok.update {d : Device κ β} (h : d.Ok K) (e final : ε) :
    (d.update K N B mustUpdate id e final).Ok K := by
  rcases update_cases K N B mustUpdate id e final d with
    ⟨-, b, hhung⟩ | ⟨-, must, q, a, ha, hsknx, hpassed, hout, hwritten⟩
  · rw [hhung]
    refine ⟨?_, fun hdone => ⟨(h.done hdone).1, rfl⟩⟩
    rw [passed, List.append_nil]
    exact h.account
  · refine ⟨?_, fun hdone => ?_⟩
    · rw [hwritten, hpassed, hout, h.account]
    · rw [Done, hsknx, ha] at hdone
      obtain ⟨hwrote, hkey, hwas⟩ := Sknx.turn_done hdone
      rw [hout, hsknx, ha, hwrote, hkey]
      refine ⟨?_, rfl⟩
      rcases hwas with hcompleted | hwas
      · exact hcompleted
      · exact (h.done hwas).1

theorem Ok.init {d : Device κ β} (h : d.Ok K) :
    Ok K { d with sknx := (d.sknx.init id).1 } := by
  unfold Sknx.init
  split
  · exact h
  · refine ⟨h.account, fun hdone => ?_⟩
    rcases hdone with hdone | hdone <;> cases hdone

theorem Ok.crypto {d : Device κ β} (h : d.Ok K) {f : κ → κ}
    (hf : ∀ k, K.status (f k) = K.status k) :
    Ok K { d with sknx := { d.sknx with key := f d.sknx.key } } :=
  ⟨h.account, fun hdone => ⟨(hf _).trans (h.done hdone).1, (h.done hdone).2⟩⟩

theorem Ok.step {d : Device κ β} (h : d.Ok K) (op : DeviceOp K ε) :
    (d.step K N B mustUpdate id op).Ok K := by
  unfold Device.step
  split
  · exact h
  · cases op with
    | init => exact h.init K id
    | update e final => exact h.update K N B mustUpdate id e final
    | crypto f hf => exact h.crypto K hf

theorem Ok.ofNew (key : κ) (w : PktWrapper) (b : β) : (new key w b).Ok K :=
  ⟨rfl, fun hdone => by rcases hdone with hdone | hdone <;> cases hdone⟩

/-- In every run of a node with any of the four key exchanges, over any backend
and whatever the generator and the curve do: once it is finalizing or online its
exchange has completed, and every telegram it ever wrote has been passed to the
backend, once and in this order. -/
theorem online_flushed (g : EcpGroup) (a : KeyAlgorithm) (drbg : Option a.Numbers)
    (w : PktWrapper) (b : β) (ops : List (DeviceOp (a.exchange g id) ε))
    (hdone : (runOf N B mustUpdate id g a drbg w b ops).Done) :
    (a.exchange g id).status (runOf N B mustUpdate id g a drbg w b ops).sknx.key =
      .completed ∧
    (runOf N B mustUpdate id g a drbg w b ops).passed =
      (runOf N B mustUpdate id g a drbg w b ops).written ∧
    (runOf N B mustUpdate id g a drbg w b ops).pktwrapper.outQ = [] := by
  have hok : (runOf N B mustUpdate id g a drbg w b ops).Ok (a.exchange g id) :=
    run_inv (fun d op h => h.step _ N B mustUpdate id op)
      (Ok.ofNew _ (a.new g drbg) w b) ops
  obtain ⟨hkey, hout⟩ := hok.done hdone
  refine ⟨hkey, ?_, hout⟩
  rw [hok.account, hout, List.append_nil]

/-- A node counts itself and the node with the id 2, exchanges points with it and
goes online. -/
def pairOps : List (DeviceOp (KeyAlgorithm.exchange sevenPoints 1 .mka)
    (List Telegram)) :=
  .init :: .update (PktWrapper.telegramsOf 2 (.bare thatsMe)) [] ::
    List.replicate 66 (.update [] []) ++
    [.update (PktWrapper.telegramsOf 2
      (MkaKeyExchange.stepPacket 0 (sevenPoints.record (sevenPt 2)))) [],
      .update [] [], .update [] []]

theorem online_flushed_pair :
    (runOf 2 mailbox (fun _ => false) 1 sevenPoints .mka (some fun _ => 4)
      (.new 2 (by decide)) ([], []) pairOps).passed =
    (runOf 2 mailbox (fun _ => false) 1 sevenPoints .mka (some fun _ => 4)
      (.new 2 (by decide)) ([], []) pairOps).written :=
  (online_flushed 2 mailbox (fun _ => false) 1 sevenPoints .mka (some fun _ => 4)
    (.new 2 (by decide)) ([], []) pairOps (.inr (by decide +kernel))).2.1

end Device

end LibSmoke
