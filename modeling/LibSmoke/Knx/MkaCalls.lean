import LibSmoke.Knx.Contexts
import LibSmoke.Knx.MkaKeyExchange

/-!
# The key exchange over its library

`MKAKeyExchange` again, with `mka.h` left open: any context, and any calls on it.
Every call is put down with the step it was made in, and so is every free. A context
can carry what all calls to come return, so any of them may succeed or fail at any
time.

With the calls of `mka.c` (`mkaCalls`) this is the exchange as it was
(`Alike.run`), apart from the context of one that has failed,
which nobody looks at any more.
-/

namespace LibSmoke

open Lifetimes

/-- What an exchange calls. A call leaves a context also when it fails. -/
structure MkaCalls (D C ε : Type) where
  init : C → C × Except ε Unit
  setPart : Nat → D → C → C × Except ε Unit
  makeBroadval : Nat → C → C × Except ε (List UInt8)
  accBroadval : List UInt8 → C → C × Except ε Unit
  computeKey : Nat → C → C × Except ε (List UInt8)
  free : C → C

/-- The uses of a context; `makeBroadval` with the step it is for. -/
inductive MkaOp
  | setPart
  | makeBroadval (step : UInt8)
  | accBroadval
  | computeKey
  deriving DecidableEq

structure MkaSession (C ε : Type) where
  status : KeyStatus
  nodes : Finset UInt16
  currentStep : UInt8
  keyBuffer : List UInt8
  keylen : Nat
  nextStepValues : List (UInt16 × MkaStep)
  remoteKeys : List UInt8
  remoteUsers : Finset UInt16
  handle : Handle MkaOp C ε

namespace MkaSession

variable {D C ε : Type} (lib : MkaCalls D C ε)

/-- The constructor; the context is what was there. -/
def new (ctx : C) : MkaSession C ε :=
  ⟨.offline, ∅, 0, List.replicate mkaBufsize 0, 0, [], [], ∅, ⟨ctx, []⟩⟩

def cryptoBroadcast (s : MkaSession C ε) : MkaSession C ε × List Outgoing × Bool :=
  match s.handle.use (.makeBroadval s.currentStep) (lib.makeBroadval mkaBufsize) with
  | (h, .error _) => ({ s with handle := h.free lib.free, status := .error }, [], false)
  | (h, .ok point) =>
      ({ s with handle := h }, [MkaKeyExchange.stepPacket s.currentStep point], true)

def init (drbg : Option D) (nodes : Finset UInt16) (s : MkaSession C ε) :
    MkaSession C ε × List Outgoing × Bool :=
  if s.status ≠ .offline then (s, [], false)
  else if nodes.card > 255 ∨ nodes.card < 2 then (s, [], false)
  else
    let s := { s with status := .running, nodes := nodes }
    match drbg with
    | none => ({ s with status := .error }, [], false)
    | some draw =>
        match s.handle.init lib.init with
        | (h, .error _) => ({ s with handle := h, status := .error }, [], false)
        | (h, .ok _) =>
            match h.use .setPart (lib.setPart nodes.card draw) with
            | (h, .error _) =>
                ({ s with handle := h.free lib.free, status := .error }, [], false)
            | (h, .ok _) =>
                let size := mkaBufsize * (nodes.card - 1)
                cryptoBroadcast lib { s with
                  handle := h
                  remoteKeys := s.remoteKeys.take size ++
                    List.replicate (size - s.remoteKeys.length) 0
                  remoteUsers := ∅
                  currentStep := 0 }

/-- `shutdown`, which is also all the destructor does. -/
def shutdown (s : MkaSession C ε) : MkaSession C ε :=
  { s with
    handle := if s.status ≠ .offline ∧ s.status ≠ .error then s.handle.free lib.free
      else s.handle
    status := .offline
    keyBuffer := List.replicate mkaBufsize 0 }

def insertKey (src : UInt16) (point : List UInt8) (s : MkaSession C ε) : MkaSession C ε :=
  if src ∈ s.remoteUsers then s
  else
    { s with
      remoteKeys := memcpy s.remoteKeys (s.remoteUsers.card * mkaBufsize) point
      remoteUsers := insert src s.remoteUsers }

def useAside (mka : MkaStep) (s : MkaSession C ε) : MkaSession C ε :=
  s.nextStepValues.foldl
    (fun s mks =>
      if mks.2.stepId ≠ s.currentStep then s else insertKey mks.1 mka.key s)
    { s with nextStepValues := [] }

def place (src : UInt16) (mka : MkaStep) (s : MkaSession C ε) : MkaSession C ε :=
  if mka.stepId = s.currentStep then insertKey src mka.key s
  else if mka.stepId.toNat = s.currentStep.toNat + 1 then
    { s with nextStepValues := s.nextStepValues ++ [(src, mka)] }
  else s

def finishStep (mka : MkaStep) (s : MkaSession C ε) :
    MkaSession C ε × List Outgoing × Bool :=
  match s.handle.use .accBroadval (lib.accBroadval s.remoteKeys) with
  | (h, .error _) => ({ s with handle := h.free lib.free, status := .error }, [], false)
  | (h, .ok _) =>
      let s := { s with
        handle := h
        remoteUsers := ∅
        currentStep := s.currentStep + 1 }
      if s.currentStep.toNat = s.nodes.card - 1 then (s, [], true)
      else
        let (s, wrote, ok) := cryptoBroadcast lib s
        if ok then (useAside mka s, wrote, true) else (s, wrote, false)

def cryptoUpdate (packet : Pkt) (s : MkaSession C ε) :
    MkaSession C ε × List Outgoing × Bool :=
  if packet.data.length ≠ mkaStepSize then (s, [], true)
  else
    let mka := MkaStep.ofData packet.data
    let s := place packet.src mka s
    if s.remoteUsers.card = s.nodes.card - 1 then finishStep lib mka s
    else (s, [], true)

def readLoop : List Pkt → MkaSession C ε → Act (MkaSession C ε)
  | [], s => ⟨s, [], [], true⟩
  | p :: q, s =>
      if s.currentStep.toNat < s.nodes.card - 1 then
        if p.cmd ≠ cmdMkaPacket then readLoop q s
        else if p.src ∉ s.nodes then readLoop q s
        else
          let (s, wrote, ok) := cryptoUpdate lib p s
          if ok then
            let a := readLoop q s
            { a with wrote := wrote ++ a.wrote }
          else ⟨s, q, wrote, false⟩
      else ⟨s, p :: q, [], true⟩

/-- The end of `update`, where all steps have been taken. -/
def finish (s : MkaSession C ε) : MkaSession C ε × Bool :=
  match s.handle.use .computeKey (lib.computeKey mkaBufsize) with
  | (h, .error _) => ({ s with status := .error, handle := h.free lib.free }, false)
  | (h, .ok key) =>
      ({ s with
          handle := h
          keyBuffer := memcpy s.keyBuffer 0 key
          keylen := key.length
          status := .completed }, true)

def update (q : List Pkt) (s : MkaSession C ε) : Act (MkaSession C ε) :=
  if s.status ≠ .running then ⟨s, q, [], false⟩
  else
    let a := readLoop lib q s
    if a.ok = false then a
    else if a.state.currentStep.toNat = a.state.nodes.card - 1 then
      let (s, ok) := finish lib a.state
      { a with state := s, ok := ok }
    else a

def call (s : MkaSession C ε) : KeyCall D → MkaSession C ε
  | .init drbg nodes => (init lib drbg nodes s).1
  | .update packets => (update lib packets s).state
  | .shutdown => shutdown lib s

def run (s : MkaSession C ε) (calls : List (KeyCall D)) : MkaSession C ε :=
  Runs.run (call lib) s calls

end MkaSession

/-! ## What the exchange can do -/

namespace MkaSession

/-- How far an exchange of `n` nodes has come. -/
structure Progress (C ε : Type) where
  status : KeyStatus
  n : Nat
  step : UInt8
  handle : Handle MkaOp C ε

def progress {C ε : Type} (s : MkaSession C ε) : Progress C ε :=
  ⟨s.status, s.nodes.card, s.currentStep, s.handle⟩

variable {D C ε : Type} (lib : MkaCalls D C ε)

inductive Advance : Progress C ε → Progress C ε → Prop
  | denied {n n' : Nat} {t : UInt8} {h : Handle MkaOp C ε} :
      Advance ⟨.offline, n, t, h⟩ ⟨.error, n', t, h⟩
  | notInited {n n' : Nat} {t : UInt8} {h h' : Handle MkaOp C ε} {e : ε}
      (hinit : h.init lib.init = (h', .error e)) :
      Advance ⟨.offline, n, t, h⟩ ⟨.error, n', t, h'⟩
  | noPart {n n' : Nat} {t : UInt8} {h h' h'' : Handle MkaOp C ε} {draw : D} {e : ε}
      (hinit : h.init lib.init = (h', .ok ()))
      (hpart : h'.use .setPart (lib.setPart n' draw) = (h'', .error e)) :
      Advance ⟨.offline, n, t, h⟩ ⟨.error, n', t, h''.free lib.free⟩
  | started {n n' : Nat} {t : UInt8} {h h' h'' : Handle MkaOp C ε} {draw : D}
      (htwo : 2 ≤ n') (hbyte : n' ≤ 255) (hinit : h.init lib.init = (h', .ok ()))
      (hpart : h'.use .setPart (lib.setPart n' draw) = (h'', .ok ())) :
      Advance ⟨.offline, n, t, h⟩ ⟨.running, n', 0, h''⟩
  | broadcast {n : Nat} {t : UInt8} {h h' : Handle MkaOp C ε} {point : List UInt8}
      (ht : t.toNat ≠ n - 1)
      (hmake : h.use (.makeBroadval t) (lib.makeBroadval mkaBufsize) = (h', .ok point)) :
      Advance ⟨.running, n, t, h⟩ ⟨.running, n, t, h'⟩
  | noBroadcast {n : Nat} {t : UInt8} {h h' : Handle MkaOp C ε} {e : ε}
      (ht : t.toNat ≠ n - 1)
      (hmake : h.use (.makeBroadval t) (lib.makeBroadval mkaBufsize) = (h', .error e)) :
      Advance ⟨.running, n, t, h⟩ ⟨.error, n, t, h'.free lib.free⟩
  | accumulated {n : Nat} {t : UInt8} {h h' : Handle MkaOp C ε} {keys : List UInt8}
      (ht : t.toNat < n - 1)
      (hacc : h.use .accBroadval (lib.accBroadval keys) = (h', .ok ())) :
      Advance ⟨.running, n, t, h⟩ ⟨.running, n, t + 1, h'⟩
  | notAccumulated {n : Nat} {t : UInt8} {h h' : Handle MkaOp C ε} {keys : List UInt8}
      {e : ε} (ht : t.toNat < n - 1)
      (hacc : h.use .accBroadval (lib.accBroadval keys) = (h', .error e)) :
      Advance ⟨.running, n, t, h⟩ ⟨.error, n, t, h'.free lib.free⟩
  | computed {n : Nat} {t : UInt8} {h h' : Handle MkaOp C ε} {key : List UInt8}
      (ht : t.toNat = n - 1)
      (hkey : h.use .computeKey (lib.computeKey mkaBufsize) = (h', .ok key)) :
      Advance ⟨.running, n, t, h⟩ ⟨.completed, n, t, h'⟩
  | notComputed {n : Nat} {t : UInt8} {h h' : Handle MkaOp C ε} {e : ε}
      (ht : t.toNat = n - 1)
      (hkey : h.use .computeKey (lib.computeKey mkaBufsize) = (h', .error e)) :
      Advance ⟨.running, n, t, h⟩ ⟨.error, n, t, h'.free lib.free⟩
  | shut {st : KeyStatus} {n : Nat} {t : UInt8} {h : Handle MkaOp C ε} :
      Advance ⟨st, n, t, h⟩ ⟨.offline, n, t,
        if st ≠ .offline ∧ st ≠ .error then h.free lib.free else h⟩

/-- Some of these, one after the other. -/
abbrev Advances : Progress C ε → Progress C ε → Prop := Relation.ReflTransGen (Advance lib)

variable {lib}

theorem Advance.turns {p q : Progress C ε} (h : Advance lib p q) :
    Turns (p.status, p.handle) (q.status, q.handle) := by
  cases h with
  | denied => exact .single (.denied _)
  | notInited hinit => exact .single (.of_init_error hinit)
  | noPart hinit hpart => exact .head (Turn.of_init hinit) (Turns.failed hpart lib.free)
  | started _ _ hinit hpart => exact .tail (.single (Turn.of_init hinit)) (Turn.of_use hpart)
  | broadcast _ hmake => exact .single (Turn.of_use hmake)
  | noBroadcast _ hmake => exact Turns.failed hmake lib.free
  | accumulated _ hacc => exact .single (Turn.of_use hacc)
  | notAccumulated _ hacc => exact Turns.failed hacc lib.free
  | computed _ hkey => exact .tail (.single (Turn.of_use hkey)) (.completed _)
  | notComputed _ hkey => exact Turns.failed hkey lib.free
  | shut => exact .single (.shutdown ..)

theorem Advances.turns {p q : Progress C ε} (h : Advances lib p q) :
    Turns (p.status, p.handle) (q.status, q.handle) := by
  induction h with
  | refl => exact .refl
  | tail _ hlast ih => exact ih.trans hlast.turns

/-! ## The calls advance -/

@[simp] theorem progress_insertKey (src : UInt16) (point : List UInt8)
    (s : MkaSession C ε) : (insertKey src point s).progress = s.progress := by
  unfold insertKey
  split <;> rfl

@[simp] theorem progress_place (src : UInt16) (mka : MkaStep) (s : MkaSession C ε) :
    (place src mka s).progress = s.progress := by
  unfold place
  split
  · exact progress_insertKey src mka.key s
  · split <;> rfl

@[simp] theorem progress_useAside (mka : MkaStep) (s : MkaSession C ε) :
    (useAside mka s).progress = s.progress := by
  have hloop : ∀ (aside : List (UInt16 × MkaStep)) (s₀ : MkaSession C ε),
      (aside.foldl (fun s mks =>
        if mks.2.stepId ≠ s.currentStep then s else insertKey mks.1 mka.key s)
        s₀).progress = s₀.progress := by
    intro aside
    induction aside with
    | nil => exact fun _ => rfl
    | cons mks aside ih =>
        intro s₀
        rw [List.foldl_cons, ih]
        split
        · rfl
        · exact progress_insertKey mks.1 mka.key s₀
  exact hloop s.nextStepValues { s with nextStepValues := [] }

theorem progress_running {s : MkaSession C ε} (hrun : s.status = .running) :
    s.progress = ⟨.running, s.nodes.card, s.currentStep, s.handle⟩ := by
  rw [progress, hrun]

theorem status_cryptoBroadcast {s : MkaSession C ε}
    (hok : (cryptoBroadcast lib s).2.2 = true) :
    (cryptoBroadcast lib s).1.status = s.status := by
  unfold cryptoBroadcast at hok ⊢
  split
  · next h e hmake =>
      rw [hmake] at hok
      cases hok
  · rfl

theorem cryptoBroadcast_advance {s : MkaSession C ε} {n : Nat} {t : UInt8}
    {h : Handle MkaOp C ε} (hs : s.progress = ⟨.running, n, t, h⟩) (ht : t.toNat ≠ n - 1) :
    Advance lib ⟨.running, n, t, h⟩ (cryptoBroadcast lib s).1.progress := by
  obtain ⟨hrun, rfl, rfl, rfl⟩ := Progress.mk.inj hs
  unfold cryptoBroadcast
  split
  · next h e hmake => exact .noBroadcast ht hmake
  · next h point hmake =>
      rw [progress_running (by exact hrun)]
      exact .broadcast ht hmake

theorem finishStep_advances (mka : MkaStep) {s : MkaSession C ε} (hrun : s.status = .running)
    (ht : s.currentStep.toNat < s.nodes.card - 1) :
    Advances lib s.progress (finishStep lib mka s).1.progress ∧
      ((finishStep lib mka s).2.2 = true → (finishStep lib mka s).1.status = .running) := by
  rw [progress_running hrun]
  unfold finishStep
  split
  · next h e hacc => exact ⟨.single (.notAccumulated ht hacc), fun hok => by cases hok⟩
  · next h u hacc =>
      have hacc' := Advance.accumulated (n := s.nodes.card) ht hacc
      simp only []
      split
      · refine ⟨.single ?_, fun _ => hrun⟩
        rw [progress_running (by exact hrun)]
        exact hacc'
      · next hmore =>
          let s' : MkaSession C ε := { s with
            handle := h, remoteUsers := ∅, currentStep := s.currentStep + 1 }
          have hs' : s'.progress = ⟨.running, s.nodes.card, s.currentStep + 1, h⟩ :=
            progress_running hrun
          have hboth := Relation.ReflTransGen.tail (.single hacc')
            (cryptoBroadcast_advance hs' hmore)
          have hstatus : (cryptoBroadcast lib s').2.2 = true →
              (cryptoBroadcast lib s').1.status = .running :=
            fun hok => (status_cryptoBroadcast hok).trans hrun
          split
          · next hok =>
              rw [progress_useAside]
              exact ⟨hboth, fun _ => (congrArg Progress.status
                (progress_useAside mka _)).trans (hstatus hok)⟩
          · exact ⟨hboth, fun hok => by cases hok⟩

theorem cryptoUpdate_advances (p : Pkt) {s : MkaSession C ε} (hrun : s.status = .running)
    (ht : s.currentStep.toNat < s.nodes.card - 1) :
    Advances lib s.progress (cryptoUpdate lib p s).1.progress ∧
      ((cryptoUpdate lib p s).2.2 = true → (cryptoUpdate lib p s).1.status = .running) := by
  unfold cryptoUpdate
  split
  · exact ⟨.refl, fun _ => hrun⟩
  · have hplace := progress_place p.src (.ofData p.data) s
    have hrun' := (congrArg Progress.status hplace).trans hrun
    have ht' : (place p.src (.ofData p.data) s).currentStep.toNat <
        (place p.src (.ofData p.data) s).nodes.card - 1 := by
      rwa [show (place p.src (.ofData p.data) s).currentStep = s.currentStep from
        congrArg Progress.step hplace, show (place p.src (.ofData p.data) s).nodes.card =
        s.nodes.card from congrArg Progress.n hplace]
    simp only []
    split
    · rw [← hplace]
      exact finishStep_advances _ hrun' ht'
    · rw [hplace]
      exact ⟨.refl, fun _ => hrun'⟩

/-- By induction on the packets; each is taken before the last step only. -/
theorem readLoop_advances (q : List Pkt) {s : MkaSession C ε} (hrun : s.status = .running) :
    Advances lib s.progress (readLoop lib q s).state.progress ∧
      ((readLoop lib q s).ok = true → (readLoop lib q s).state.status = .running) := by
  induction q generalizing s with
  | nil => exact ⟨.refl, fun _ => hrun⟩
  | cons p q ih =>
      rw [readLoop]
      split
      · next ht =>
          split
          · exact ih hrun
          · split
            · exact ih hrun
            · obtain ⟨hadv, hstatus⟩ := cryptoUpdate_advances p hrun ht
              simp only []
              split
              · next hok =>
                  obtain ⟨hrest, hstatus'⟩ := ih (hstatus hok)
                  exact ⟨hadv.trans hrest, hstatus'⟩
              · exact ⟨hadv, fun hok => by cases hok⟩
      · exact ⟨.refl, fun _ => hrun⟩

theorem finish_advance {s : MkaSession C ε} (hrun : s.status = .running)
    (ht : s.currentStep.toNat = s.nodes.card - 1) :
    Advance lib s.progress (finish lib s).1.progress := by
  rw [progress_running hrun]
  unfold finish
  split
  · next h e hkey => exact .notComputed ht hkey
  · next h key hkey => exact .computed ht hkey

theorem update_advances (q : List Pkt) (s : MkaSession C ε) :
    Advances lib s.progress (update lib q s).state.progress := by
  unfold update
  split
  · exact .refl
  · next hrun =>
      obtain ⟨hadv, hstatus⟩ := readLoop_advances q (not_not.mp hrun)
      simp only []
      split
      · exact hadv
      · next hok =>
          split
          · next ht =>
              exact hadv.tail (finish_advance (hstatus (Bool.eq_true_of_not_eq_false hok)) ht)
          · exact hadv

theorem init_advances (drbg : Option D) (nodes : Finset UInt16) (s : MkaSession C ε) :
    Advances lib s.progress (init lib drbg nodes s).1.progress := by
  unfold init
  split
  · exact .refl
  · next hoff =>
      split
      · exact .refl
      · next hcard =>
          rw [progress, not_not.mp hoff]
          simp only []
          split
          · exact .single .denied
          · next draw =>
              split
              · next h e hinit => exact .single (.notInited hinit)
              · next h u hinit =>
                  split
                  · next h' e hpart => exact .single (.noPart hinit hpart)
                  · next h' u' hpart =>
                      have hstart := Advance.started (n := s.nodes.card)
                        (t := s.currentStep) (by omega) (by omega) hinit hpart
                      have hfirst : (0 : UInt8).toNat ≠ nodes.card - 1 := by
                        rw [UInt8.toNat_zero]
                        omega
                      exact .tail (.single hstart) (cryptoBroadcast_advance rfl hfirst)

theorem call_advances (s : MkaSession C ε) (c : KeyCall D) :
    Advances lib s.progress (call lib s c).progress := by
  cases c with
  | init drbg nodes => exact init_advances drbg nodes s
  | update packets => exact update_advances packets s
  | shutdown => exact .single .shut

theorem run_advances (s : MkaSession C ε) (calls : List (KeyCall D)) :
    Advances lib s.progress (run lib s calls).progress :=
  Runs.run_inv (I := fun s' => Advances lib s.progress s'.progress)
    (fun s' c h => h.trans (call_advances s' c)) .refl calls

/-- The calls of an exchange that was destroyed after some calls. -/
theorem run_wellUsed (ctx : C) (calls : List (KeyCall D)) :
    WellUsed (shutdown lib (run lib (new ctx) calls)).handle.calls := by
  have hrun : Advances lib (new ctx).progress (run lib (new ctx) calls).progress :=
    run_advances (new ctx) calls
  exact Turns.wellUsed (Advances.turns (hrun.tail .shut))

end MkaSession

/-! ## With the calls of `mka.c` -/

/-- A context after a call of `mka.c`. Where the call fails it is shown as it was, since
all that follows is `mka_free`. -/
def mkaLeft {β : Type} (ctx : MkaContext) :
    Except SbanError (MkaContext × β) → MkaContext × Except SbanError β
  | .error e => (ctx, .error e)
  | .ok (ctx, b) => (ctx, .ok b)

def mkaCalls (g : EcpGroup) : MkaCalls (Nat → Nat) MkaContext SbanError where
  init ctx := ({ mkaInit g with n := ctx.n, r := ctx.r }, .ok ())
  setPart n draw ctx := mkaLeft ctx ((mkaSetPart ctx n draw).map (·, ()))
  makeBroadval buflen ctx := mkaLeft ctx (mkaMakeBroadval ctx buflen)
  accBroadval buf ctx := mkaLeft ctx ((mkaAccBroadval ctx buf).map (·, ()))
  computeKey buflen ctx := mkaLeft ctx (mkaComputeKey ctx buflen)
  free ctx := { ctx with
    grp := { ctx.grp with P := 0, A := none, B := 0, G := ⟨0, 0, 0⟩, N := 0 }
    a := 0
    k := ⟨0, 0, 0⟩
    key := 0 }

namespace MkaSession

variable {g : EcpGroup} {d : Option (Nat → Nat)}

/-- The exchange without the list of its calls. -/
def exchange (d : Option (Nat → Nat)) (s : MkaSession MkaContext SbanError) :
    MkaKeyExchange :=
  ⟨s.status, s.nodes, d, s.currentStep, s.keyBuffer, s.keylen, s.nextStepValues,
    s.remoteKeys, s.remoteUsers, s.handle.ctx⟩

/-- The same, except for a context that is not live. -/
structure Alike (d : Option (Nat → Nat)) (s : MkaSession MkaContext SbanError)
    (m : MkaKeyExchange) : Prop where
  fields : { m with ctx := s.handle.ctx } = s.exchange d
  ctx : s.status.holds = true → m.ctx = s.handle.ctx

theorem Alike.of_exchange (s : MkaSession MkaContext SbanError) :
    Alike d s (s.exchange d) := ⟨rfl, fun _ => rfl⟩

theorem Alike.exchange {s : MkaSession MkaContext SbanError} {m : MkaKeyExchange}
    (h : Alike d s m) (hlive : s.status.holds = true) : s.exchange d = m := by
  rw [← h.fields, ← h.ctx hlive]

theorem use_left {β : Type} {h : Handle MkaOp MkaContext SbanError} {op : MkaOp}
    {f : MkaContext → Except SbanError (MkaContext × β)}
    {r : Except SbanError (MkaContext × β)} (hr : f h.ctx = r) :
    h.use op (fun ctx => mkaLeft ctx (f ctx)) =
      (⟨(mkaLeft h.ctx r).1,
        h.calls ++ [.use ⟨op, h.ctx, failure (mkaLeft h.ctx r).2⟩]⟩,
        (mkaLeft h.ctx r).2) := by
  rw [Handle.use, hr]

variable (s : MkaSession MkaContext SbanError)

theorem exchange_insertKey (src : UInt16) (point : List UInt8) :
    (insertKey src point s).exchange d = (s.exchange d).insertKey src point :=
  apply_ite (exchange d) ..

theorem exchange_place (src : UInt16) (mka : MkaStep) :
    (place src mka s).exchange d = (s.exchange d).place src mka := by
  rw [place, apply_ite (exchange d), apply_ite (exchange d), exchange_insertKey]
  rfl

theorem exchange_useAside (mka : MkaStep) :
    (useAside mka s).exchange d = (s.exchange d).useAside mka := by
  unfold useAside MkaKeyExchange.useAside
  show _ = s.nextStepValues.foldl _ (exchange d { s with nextStepValues := [] })
  generalize ({ s with nextStepValues := [] } : MkaSession MkaContext SbanError) = s₀
  induction s.nextStepValues generalizing s₀ with
  | nil => rfl
  | cons mks aside ih =>
      rw [List.foldl_cons, List.foldl_cons, ih, apply_ite (exchange d), exchange_insertKey]
      rfl

theorem tallies_cryptoBroadcast :
    Tallies (exchange d) (Alike d) (cryptoBroadcast (mkaCalls g) s) (s.exchange d).cryptoBroadcast := by
  have huse : s.handle.use (.makeBroadval s.currentStep)
      ((mkaCalls g).makeBroadval mkaBufsize) = _ := use_left rfl
  rw [cryptoBroadcast, MkaKeyExchange.cryptoBroadcast, huse,
    show (s.exchange d).ctx = s.handle.ctx from rfl]
  cases mkaMakeBroadval s.handle.ctx mkaBufsize with
  | error e => exact ⟨rfl, rfl, fun h => by cases h⟩
  | ok res => exact ⟨rfl, rfl⟩

theorem tallies_finishStep (mka : MkaStep) :
    Tallies (exchange d) (Alike d) (finishStep (mkaCalls g) mka s) ((s.exchange d).finishStep mka) := by
  have huse : s.handle.use .accBroadval ((mkaCalls g).accBroadval s.remoteKeys) = _ :=
    use_left rfl
  rw [finishStep, MkaKeyExchange.finishStep, huse,
    show (s.exchange d).ctx = s.handle.ctx from rfl,
    show (s.exchange d).remoteKeys = s.remoteKeys from rfl]
  cases mkaAccBroadval s.handle.ctx s.remoteKeys with
  | error e => exact ⟨rfl, rfl, fun h => by cases h⟩
  | ok ctx =>
      refine rel_ite (fun _ => ⟨rfl, rfl⟩) fun _ => ?_
      exact (tallies_cryptoBroadcast _).andThen fun s => exchange_useAside s mka

theorem tallies_cryptoUpdate (p : Pkt) :
    Tallies (exchange d) (Alike d) (cryptoUpdate (mkaCalls g) p s) ((s.exchange d).cryptoUpdate p) := by
  rw [cryptoUpdate, MkaKeyExchange.cryptoUpdate]
  refine rel_ite (fun _ => ⟨rfl, rfl⟩) fun _ => ?_
  simp only [← exchange_place]
  exact rel_ite (fun _ => tallies_finishStep ..) fun _ => ⟨rfl, rfl⟩

/-- As `Tallies`, and the same packets are left. -/
def ActTallies (d : Option (Nat → Nat)) (a : Act (MkaSession MkaContext SbanError))
    (b : Act MkaKeyExchange) : Prop :=
  a.rest = b.rest ∧
    Tallies (exchange d) (Alike d) (a.state, a.wrote, a.ok) (b.state, b.wrote, b.ok)

theorem tallies_readLoop (q : List Pkt) :
    ActTallies d (readLoop (mkaCalls g) q s) (MkaKeyExchange.readLoop q (s.exchange d)) := by
  induction q generalizing s with
  | nil => exact ⟨rfl, rfl, rfl⟩
  | cons p q ih =>
      rw [readLoop, MkaKeyExchange.readLoop]
      refine rel_ite (fun _ => ?_) fun _ => ⟨rfl, rfl, rfl⟩
      refine rel_ite (fun _ => ih s) fun _ => ?_
      refine rel_ite (fun _ => ih s) fun _ => ?_
      obtain ⟨hout, hleft⟩ := tallies_cryptoUpdate (g := g) (d := d) s p
      generalize cryptoUpdate (mkaCalls g) p s = r at hout hleft ⊢
      generalize (s.exchange d).cryptoUpdate p = r' at hout hleft ⊢
      obtain ⟨s', wrote, ok⟩ := r
      obtain ⟨m', wrote', ok'⟩ := r'
      cases hout
      cases ok with
      | false => exact ⟨rfl, rfl, hleft⟩
      | true =>
          obtain rfl : s'.exchange d = m' := hleft
          obtain ⟨hrest, hwrote, hleft'⟩ := ih s'
          refine ⟨hrest, ?_, hleft'⟩
          exact congrArg (fun o => (wrote ++ o.1, o.2)) hwrote

variable {s} {m : MkaKeyExchange}

/-- The part of `update` after the reading loop. -/
theorem answers_finish {a : Act (MkaSession MkaContext SbanError)} {b : Act MkaKeyExchange}
    (h : ActTallies d a b) :
    ActAnswers (Alike d)
      (if a.ok = false then a
      else if a.state.currentStep.toNat = a.state.nodes.card - 1 then
        { a with state := (finish (mkaCalls g) a.state).1, ok := (finish (mkaCalls g) a.state).2 }
      else a)
      (if b.ok = false then b
      else if b.state.currentStep.toNat = b.state.nodes.card - 1 then
        match mkaComputeKey b.state.ctx mkaBufsize with
        | .error _ => { b with state := { b.state with status := .error }, ok := false }
        | .ok (ctx, key) =>
            { b with state := { b.state with
                ctx := ctx
                keyBuffer := memcpy b.state.keyBuffer 0 key
                keylen := key.length
                status := .completed } }
      else b) := by
  obtain ⟨s, rest, wrote, ok⟩ := a
  obtain ⟨m, rest', wrote', ok'⟩ := b
  obtain ⟨rfl, hout, hleft⟩ := h
  cases hout
  cases ok with
  | false => exact ⟨rfl, rfl, hleft⟩
  | true =>
      obtain rfl : s.exchange d = m := hleft
      refine rel_ite (R := ActAnswers (Alike d)) (fun h => by cases h) fun _ => ?_
      refine rel_ite (R := ActAnswers (Alike d)) (fun _ => ?_) fun _ => ⟨rfl, rfl, .of_exchange s⟩
      have huse : s.handle.use .computeKey ((mkaCalls g).computeKey mkaBufsize) = _ :=
        use_left rfl
      rw [finish, huse, show (s.exchange d).ctx = s.handle.ctx from rfl]
      cases mkaComputeKey s.handle.ctx mkaBufsize with
      | error e => exact ⟨rfl, rfl, rfl, fun h => by cases h⟩
      | ok res => exact ⟨rfl, rfl, .of_exchange _⟩

/-- Alike exchanges take the same packets, write the same and stay alike. -/
theorem Alike.update (h : Alike d s m) (q : List Pkt) :
    ActAnswers (Alike d) (s.update (mkaCalls g) q) (m.update q) := by
  have hstatus : m.status = s.status := congrArg MkaKeyExchange.status h.fields
  rw [MkaSession.update, MkaKeyExchange.update, hstatus]
  refine rel_ite (fun _ => ⟨rfl, rfl, h⟩) fun hrun => ?_
  have hlive : s.status.holds = true := by
    rw [not_not.mp hrun]
    rfl
  rw [← h.exchange hlive]
  exact answers_finish (tallies_readLoop s q)

/-- An exchange that is alike, with a context of its own. -/
theorem Alike.eq (h : Alike d s m) : m = { s.exchange d with ctx := m.ctx } := by
  rw [← h.fields]

theorem mkaSetPart_rounds (n r k : Nat) (draw : Nat → Nat) :
    mkaSetPart { mkaInit g with n := n, r := r } k draw = mkaSetPart (mkaInit g) k draw :=
  rfl

theorem Alike.init (h : Alike d s m) (nodes : Finset UInt16) :
    Answers (Alike d) (s.init (mkaCalls g) d nodes) (m.init g nodes) := by
  have hown := h.eq
  generalize m.ctx = ctx at hown
  subst hown
  rw [MkaSession.init, MkaKeyExchange.init]
  refine rel_ite (fun _ => ⟨rfl, h⟩) fun _ => ?_
  refine rel_ite (fun _ => ⟨rfl, h⟩) fun _ => ?_
  cases d with
  | none => exact ⟨rfl, rfl, fun h => by cases h⟩
  | some draw =>
      let h' : Handle MkaOp MkaContext SbanError :=
        ⟨{ mkaInit g with n := s.handle.ctx.n, r := s.handle.ctx.r },
          s.handle.calls ++ [.init true]⟩
      have hinit : s.handle.init (mkaCalls g).init = (h', .ok ()) := rfl
      have huse : h'.use .setPart ((mkaCalls g).setPart nodes.card draw) = _ := use_left rfl
      simp only [hinit, huse]
      rw [show h'.ctx = { mkaInit g with n := s.handle.ctx.n, r := s.handle.ctx.r } from rfl,
        mkaSetPart_rounds, show (s.exchange (some draw)).drbg = some draw from rfl]
      simp only []
      cases mkaSetPart (mkaInit g) nodes.card draw with
      | error e => exact ⟨rfl, rfl, fun h => by cases h⟩
      | ok ctx' => exact (tallies_cryptoBroadcast _).answers .of_exchange

theorem Alike.shutdown (h : Alike d s m) : Alike d (s.shutdown (mkaCalls g)) m.shutdown := by
  rw [h.eq]
  exact ⟨rfl, fun h => by cases h⟩

/-- Along every run the two stay alike. -/
theorem Alike.run (h : Alike d s m) {calls : List (KeyCall (Nat → Nat))}
    (hd : ∀ drbg nodes, KeyCall.init drbg nodes ∈ calls → drbg = d) :
    Alike d (s.run (mkaCalls g) calls) (Runs.run (mkaKeyExchange g).call m calls) :=
  run_related (fun _ _ nodes h => (h.init nodes).2) (fun _ _ q h => (h.update q).2.2)
    (fun _ _ h => h.shutdown) h hd

end MkaSession

end LibSmoke
