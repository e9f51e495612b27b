import LibSmoke.Knx.MkaCalls

/-!
# Two round counters

The exchange counts the steps it has finished, up to one less than there are nodes,
and `mka.c` counts rounds, up to two less; in the last round it leaves its counter.
So the counter of `mka.c` is that of the exchange, except at the end
(`Rounds.agree`), and no call is made in the wrong round.

What else `mka.c` returns comes from the curve, and is none of the two codes of the
rounds (`Plain`).
-/

namespace LibSmoke

/-! ## Errors -/

/-- The codes that speak of rounds. -/
def SbanError.ofRound : SbanError → Bool
  | .maxRoundNumberExceeded | .roundNotCompleted => true
  | _ => false

/-- What this returns has the property; if it fails, it is not about a round. -/
structure Gives {α : Type} (P : α → Prop) (x : Except SbanError α) : Prop where
  not_ofRound : ∀ e, x = .error e → e.ofRound = false
  returns : ∀ a, x = .ok a → P a

/-- If this fails, it is not about a round. -/
abbrev Plain {α : Type} (x : Except SbanError α) : Prop := Gives (fun _ => True) x

namespace Gives

variable {α β : Type} {P : α → Prop}

theorem ok {a : α} (h : P a) : Gives P (.ok a) where
  not_ofRound := fun e he => by cases he
  returns := by
    rintro a' ⟨⟩
    exact h

theorem error {e : SbanError} (he : e.ofRound = false) : Gives P (.error e) where
  not_ofRound := by
    rintro e' ⟨⟩
    exact he
  returns := fun a h => by cases h

theorem bind {x : Except SbanError β} {f : β → Except SbanError α} (hx : Plain x)
    (hf : ∀ b, Gives P (f b)) : Gives P (x >>= f) := by
  cases x with
  | error e => exact error (hx.not_ofRound e rfl)
  | ok b => exact hf b

theorem ite {c : Prop} [Decidable c] {x y : Except SbanError α} (hx : Gives P x)
    (hy : Gives P y) : Gives P (if c then x else y) := by
  split
  · exact hx
  · exact hy

theorem map {x : Except SbanError β} {f : β → α} (hx : Gives (fun b => P (f b)) x) :
    Gives P (x.map f) := by
  cases x with
  | error e => exact error (hx.not_ofRound e rfl)
  | ok b => exact ok (hx.returns b rfl)

end Gives

variable (g : EcpGroup)

theorem plain_mpiInvMod (a n : Int) : Plain (mpiInvMod a n) :=
  .ite (.error rfl) (.ite (.error rfl) (.ok trivial))

theorem plain_mpiWriteBinary (x : Int) (len : Nat) : Plain (mpiWriteBinary x len) :=
  .ite (.error rfl) (.ok trivial)

theorem plain_modMul (x : Int) : Plain (g.modMul x) := .ite (.error rfl) (.ok trivial)

theorem plain_ecpNormalizeJac (p : EcpPoint) : Plain (g.ecpNormalizeJac p) :=
  .ite (.ok trivial) (.bind (plain_mpiInvMod ..) fun _ => .bind (plain_modMul ..) fun _ =>
    .bind (plain_modMul ..) fun _ => .bind (plain_modMul ..) fun _ =>
    .bind (plain_modMul ..) fun _ => .ok trivial)

theorem plain_ecpAddMixed (p q : EcpPoint) : Plain (g.ecpAddMixed p q) := by
  have hmul := plain_modMul g
  refine .ite (.ok trivial) (.ite (.ok trivial) (.ite (.error rfl) ?_))
  refine .bind (hmul _) fun _ => .bind (hmul _) fun _ => .bind (hmul _) fun _ =>
    .bind (hmul _) fun _ => .ite (.ite (.ok trivial) (.ok trivial)) ?_
  exact .bind (hmul _) fun _ => .bind (hmul _) fun _ => .bind (hmul _) fun _ =>
    .bind (hmul _) fun _ => .bind (hmul _) fun _ => .bind (hmul _) fun _ =>
    .bind (hmul _) fun _ => .ok trivial

theorem plain_ecpAdd (p q : EcpPoint) : Plain (g.ecpAdd p q) :=
  .bind (plain_ecpAddMixed g p q) (plain_ecpNormalizeJac g)

theorem plain_ecpCheckPubkey (p : EcpPoint) : Plain (g.ecpCheckPubkey p) :=
  .ite (.error rfl) (.ite (.error rfl) (.ite (.error rfl) (.ok trivial)))

theorem plain_ecpCheckPrivkey (m : Int) : Plain (g.ecpCheckPrivkey m) :=
  .ite (.error rfl) (.ok trivial)

theorem plain_ecpMul (m : Int) (p : EcpPoint) : Plain (g.ecpMul m p) :=
  .ite (.error rfl) (.bind (plain_ecpCheckPrivkey g m) fun _ =>
    .bind (plain_ecpCheckPubkey g p) fun _ => .ok trivial)

theorem plain_drawScalar (draw : Nat → Nat) (count i : Nat) :
    Plain (g.drawScalar draw count i) := by
  induction count generalizing i with
  | zero => exact .error rfl
  | succ count ih => exact .ite (ih (i + 1)) (.ok trivial)

theorem plain_ecpGenKeypair (draw : Nat → Nat) : Plain (g.ecpGenKeypair draw) :=
  .bind (plain_drawScalar g draw 30 0) fun d => .bind (plain_ecpMul g d g.G) fun _ => .ok trivial

theorem plain_ecpPointWriteBinary (p : EcpPoint) (buflen : Nat) :
    Plain (g.ecpPointWriteBinary p buflen) :=
  .ite (.ite (.error rfl) (.ok trivial)) (.ite (.error rfl) (.bind (plain_mpiWriteBinary ..)
    fun _ => .bind (plain_mpiWriteBinary ..) fun _ => .ok trivial))

theorem plain_ecpTlsWritePoint (p : EcpPoint) (blen : Nat) :
    Plain (g.ecpTlsWritePoint p blen) :=
  .ite (.error rfl) (.bind (plain_ecpPointWriteBinary ..) fun _ => .ok trivial)

theorem plain_ecpPointReadBinary (buf : List UInt8) : Plain (g.ecpPointReadBinary buf) :=
  .ite (.ite (.ok trivial) (.error rfl)) (.ite (.error rfl) (.ite (.error rfl) (.ok trivial)))

theorem plain_ecpTlsReadPoint (buf : List UInt8) (len : Nat) :
    Plain (g.ecpTlsReadPoint buf len) := by
  refine .ite (.error rfl) ?_
  cases buf with
  | nil => exact .error rfl
  | cons dataLen rest =>
      exact .ite (.error rfl) (.ite (.error rfl) (.bind (plain_ecpPointReadBinary ..)
        fun _ => .ok trivial))

/-! ## The calls in a round -/

variable {g}

theorem plain_sumLoop (len i : Nat) (p : List UInt8) (sum : EcpPoint) :
    Plain (sumLoop g len i p sum) := by
  induction i generalizing p sum with
  | zero => exact .ok trivial
  | succ i ih =>
      exact .bind (plain_ecpTlsReadPoint g p len) fun read =>
        .bind (plain_ecpAdd g sum read.1) fun sum' => ih read.2 sum'

theorem plain_ownPartOff (ctx : MkaContext) (sum : EcpPoint) : Plain (ownPartOff ctx sum) :=
  .ite (.bind (plain_ecpMul ..) fun _ => plain_ecpAdd ..) (.ok trivial)

theorem mkaSetPart_gives (ctx : MkaContext) (n : Nat) (draw : Nat → Nat) :
    Gives (fun ctx' => ctx'.n = n ∧ ctx'.r = 0) (mkaSetPart ctx n draw) :=
  .ite (.error rfl) (.bind (plain_ecpGenKeypair ..) fun _ => .ok ⟨rfl, rfl⟩)

section Rounds

variable {ctx : MkaContext} (hround : ctx.r + 2 ≤ ctx.n)

include hround

theorem mkaMakeBroadval_gives (buflen : Nat) :
    Gives (fun res => res.1.n = ctx.n ∧ res.1.r = ctx.r) (mkaMakeBroadval ctx buflen) := by
  rw [mkaMakeBroadval, if_neg (Nat.not_lt.mpr hround)]
  exact .ite (.bind (plain_ecpTlsWritePoint ..) fun _ => .ok ⟨rfl, rfl⟩)
    (.bind (plain_ecpMul ..) fun _ => .bind (plain_ecpTlsWritePoint ..) fun _ =>
      .ok ⟨rfl, rfl⟩)

theorem mkaAccBroadval_gives (buf : List UInt8) :
    Gives (fun ctx' => ctx'.n = ctx.n ∧
      ctx'.r = if ctx.r + 2 < ctx.n then ctx.r + 1 else ctx.r) (mkaAccBroadval ctx buf) := by
  rw [mkaAccBroadval, if_neg (Nat.not_lt.mpr hround)]
  exact .bind (plain_sumLoop ..) fun _ => .bind (plain_ownPartOff ..) fun _ =>
    .bind (plain_mpiInvMod ..) fun _ => .bind (plain_ecpMul ..) fun _ => .ok ⟨rfl, rfl⟩

end Rounds

theorem mkaComputeKey_plain {ctx : MkaContext} (hround : ctx.r + 2 = ctx.n) (buflen : Nat) :
    Plain (mkaComputeKey ctx buflen) := by
  rw [mkaComputeKey, if_neg (Nat.not_lt.mpr hround.le), if_neg (Nat.not_lt.mpr hround.ge)]
  exact .bind (plain_ecpMul ..) fun _ => .ite (.error rfl)
    (.bind (plain_mpiWriteBinary ..) fun _ => .ok trivial)

/-! ## The two counters -/

namespace MkaSession

open Lifetimes

/-- The counter of a running exchange, and that of its context. -/
structure Counters (p : Progress MkaContext SbanError) : Prop where
  two : 2 ≤ p.n
  byte : p.n ≤ 255
  step : p.step.toNat ≤ p.n - 1
  n : p.handle.ctx.n = p.n
  r : p.handle.ctx.r = min p.step.toNat (p.n - 2)

/-- A call that was made in its round: it did not fail for the round, and a broadcast
was made in the round of its step. -/
structure InRound (u : Made MkaOp MkaContext SbanError) : Prop where
  err : ∀ e, u.err = some e → e.ofRound = false
  broadcast : ∀ step, u.op = .makeBroadval step → u.ctx.r = step.toNat

/-- Every call that was made was made in its round. -/
def AllInRound (h : Handle MkaOp MkaContext SbanError) : Prop :=
  ∀ u, .use u ∈ h.calls → InRound u

structure Rounds (p : Progress MkaContext SbanError) : Prop where
  running : p.status = .running → Counters p
  calls : AllInRound p.handle

variable {g : EcpGroup} {h h' : Handle MkaOp MkaContext SbanError}

theorem AllInRound.free (hall : AllInRound h) (f : MkaContext → MkaContext) :
    AllInRound (h.free f) := fun u hu => hall u (Handle.mem_free.mp hu)

theorem AllInRound.init {f : MkaContext → MkaContext × Except SbanError Unit}
    {r : Except SbanError Unit} (hall : AllInRound h) (hinit : h.init f = (h', r)) :
    AllInRound h' := by
  obtain rfl : (h.init f).1 = h' := congrArg Prod.fst hinit
  exact fun u hu => hall u (Handle.mem_init.mp hu)

/-- One more call, in its round. -/
theorem AllInRound.use {β : Type} {P : MkaContext × β → Prop} {op : MkaOp}
    {x : MkaContext → Except SbanError (MkaContext × β)} {r : Except SbanError β}
    (hall : AllInRound h) (huse : h.use op (fun ctx => mkaLeft ctx (x ctx)) = (h', r))
    (hx : Gives P (x h.ctx))
    (hop : ∀ step, op = .makeBroadval step → h.ctx.r = step.toNat) :
    AllInRound h' ∧ ∀ b, r = .ok b → P (h'.ctx, b) := by
  obtain rfl : (h.use op fun ctx => mkaLeft ctx (x ctx)).1 = h' := congrArg Prod.fst huse
  obtain rfl : (h.use op fun ctx => mkaLeft ctx (x ctx)).2 = r := congrArg Prod.snd huse
  constructor
  · intro u hu
    rcases Handle.mem_use.mp hu with hu | rfl
    · exact hall u hu
    · refine ⟨?_, hop⟩
      show ∀ e, Lifetimes.failure (mkaLeft h.ctx (x h.ctx)).2 = some e → e.ofRound = false
      cases hy : x h.ctx with
      | error e =>
          rintro e' ⟨⟩
          exact hx.not_ofRound e hy
      | ok res => exact nofun
  · show ∀ b, (mkaLeft h.ctx (x h.ctx)).2 = .ok b → P ((mkaLeft h.ctx (x h.ctx)).1, b)
    cases hy : x h.ctx with
    | error e => exact nofun
    | ok res =>
        rintro b ⟨⟩
        exact hx.returns res hy

/-- The counters start together. -/
theorem AllInRound.setPart (hall : AllInRound h) {n : Nat} {draw : Nat → Nat}
    {r : Except SbanError Unit}
    (hpart : h.use .setPart ((mkaCalls g).setPart n draw) = (h', r)) :
    AllInRound h' ∧ (r = .ok () → h'.ctx.n = n ∧ h'.ctx.r = 0) := by
  obtain ⟨hall', hout⟩ := hall.use (P := fun res => res.1.n = n ∧ res.1.r = 0) hpart
    (.map (mkaSetPart_gives h.ctx n draw)) fun step hop => by cases hop
  exact ⟨hall', hout ()⟩

section Running

variable {st : KeyStatus} {n : Nat} {t : UInt8} (hc : Counters ⟨st, n, t, h⟩)
  (hall : AllInRound h)

include hc hall

/-- A broadcast, before the last step is taken: the counters are the same. -/
theorem AllInRound.broadcast (ht : t.toNat ≠ n - 1) {r : Except SbanError (List UInt8)}
    (hmake : h.use (.makeBroadval t) ((mkaCalls g).makeBroadval mkaBufsize) = (h', r)) :
    AllInRound h' ∧ ∀ point, r = .ok point → Counters ⟨st, n, t, h'⟩ := by
  obtain ⟨htwo, hbyte, hstep, hn, hr⟩ := hc
  dsimp only at htwo hbyte hstep hn hr
  have hround : h.ctx.r = t.toNat := by omega
  obtain ⟨hall', hout⟩ := hall.use hmake (mkaMakeBroadval_gives (by omega) mkaBufsize)
    fun step hop => by cases hop; exact hround
  refine ⟨hall', fun point hok => ?_⟩
  obtain ⟨hn', hr'⟩ := hout point hok
  exact ⟨htwo, hbyte, hstep, hn'.trans hn, hr'.trans hr⟩

/-- Both counters move on, but for that of the context in the last round. -/
theorem AllInRound.accumulate (ht : t.toNat < n - 1) {keys : List UInt8}
    {r : Except SbanError Unit}
    (hacc : h.use .accBroadval ((mkaCalls g).accBroadval keys) = (h', r)) :
    AllInRound h' ∧ (r = .ok () → Counters ⟨st, n, t + 1, h'⟩) := by
  obtain ⟨htwo, hbyte, hstep, hn, hr⟩ := hc
  dsimp only at htwo hbyte hstep hn hr
  obtain ⟨hall', hout⟩ := hall.use
    (P := fun res => res.1.n = h.ctx.n ∧
      res.1.r = if h.ctx.r + 2 < h.ctx.n then h.ctx.r + 1 else h.ctx.r) hacc
    (.map (mkaAccBroadval_gives (by omega) keys)) fun step hop => by cases hop
  refine ⟨hall', fun hok => ?_⟩
  obtain ⟨hn', hr'⟩ := hout () hok
  have hsucc : (t + 1).toNat = t.toNat + 1 := by
    rw [UInt8.toNat_add, UInt8.toNat_one]
    omega
  dsimp only at hn' hr'
  refine ⟨htwo, hbyte, ?_, hn'.trans hn, ?_⟩
  · show (t + 1).toNat ≤ n - 1
    omega
  · show h'.ctx.r = min (t + 1).toNat (n - 2)
    split at hr' <;> omega

/-- The key, after the last step. -/
theorem AllInRound.computeKey (ht : t.toNat = n - 1) {r : Except SbanError (List UInt8)}
    (hkey : h.use .computeKey ((mkaCalls g).computeKey mkaBufsize) = (h', r)) :
    AllInRound h' := by
  obtain ⟨htwo, hbyte, hstep, hn, hr⟩ := hc
  dsimp only at htwo hbyte hstep hn hr
  exact (hall.use hkey (mkaComputeKey_plain (by omega) mkaBufsize)
    fun step hop => by cases hop).1

end Running

theorem Rounds.advance {p q : Progress MkaContext SbanError} (hp : Rounds p)
    (h : Advance (mkaCalls g) p q) : Rounds q := by
  obtain ⟨hrunning, hall⟩ := hp
  cases h with
  | denied => exact ⟨nofun, hall⟩
  | notInited hinit => exact ⟨nofun, hall.init hinit⟩
  | noPart hinit hpart => exact ⟨nofun, ((hall.init hinit).setPart hpart).1.free _⟩
  | started htwo hbyte hinit hpart =>
      obtain ⟨hall', hout⟩ := (hall.init hinit).setPart hpart
      obtain ⟨hn, hr⟩ := hout rfl
      exact ⟨fun _ => ⟨htwo, hbyte, Nat.zero_le _, hn, hr.trans (Nat.zero_min _).symm⟩, hall'⟩
  | broadcast ht hmake =>
      obtain ⟨hall', hout⟩ := AllInRound.broadcast (hrunning rfl) hall ht hmake
      exact ⟨fun _ => hout _ rfl, hall'⟩
  | noBroadcast ht hmake =>
      exact ⟨nofun, (AllInRound.broadcast (hrunning rfl) hall ht hmake).1.free _⟩
  | accumulated ht hacc =>
      obtain ⟨hall', hout⟩ := AllInRound.accumulate (hrunning rfl) hall ht hacc
      exact ⟨fun _ => hout rfl, hall'⟩
  | notAccumulated ht hacc =>
      exact ⟨nofun, (AllInRound.accumulate (hrunning rfl) hall ht hacc).1.free _⟩
  | computed ht hkey => exact ⟨nofun, AllInRound.computeKey (hrunning rfl) hall ht hkey⟩
  | notComputed ht hkey =>
      exact ⟨nofun, (AllInRound.computeKey (hrunning rfl) hall ht hkey).free _⟩
  | shut =>
      refine ⟨nofun, ?_⟩
      split
      · exact hall.free _
      · exact hall

theorem Rounds.advances {p q : Progress MkaContext SbanError} (hp : Rounds p)
    (h : Advances (mkaCalls g) p q) : Rounds q := by
  induction h with
  | refl => exact hp
  | tail _ hlast ih => exact ih.advance hlast

/-- Between calls the counters of a running exchange agree, and no call was made in a
wrong round. -/
theorem rounds_agree (g : EcpGroup) (ctx : MkaContext) (calls : List (KeyCall (Nat → Nat))) :
    let s := (new ctx).run (mkaCalls g) calls
    (s.status = .running → s.handle.ctx.n = s.nodes.card ∧
      s.handle.ctx.r = min s.currentStep.toNat (s.nodes.card - 2)) ∧
    ∀ u, .use u ∈ s.handle.calls →
      u.err ≠ some .maxRoundNumberExceeded ∧ u.err ≠ some .roundNotCompleted ∧
      ∀ step, u.op = .makeBroadval step → u.ctx.r = step.toNat := by
  have hstart : Rounds (new ctx).progress :=
    ⟨nofun, fun u hu => absurd hu List.not_mem_nil⟩
  have hrun : Rounds ((new ctx).run (mkaCalls g) calls).progress :=
    hstart.advances (run_advances (new ctx) calls)
  refine ⟨fun h => ?_, fun u hu => ?_⟩
  · have hc := hrun.running h
    exact ⟨hc.n, hc.r⟩
  · obtain ⟨herr, hround⟩ := hrun.calls u hu
    refine ⟨fun h => ?_, fun h => ?_, hround⟩
    · cases herr _ h
    · cases herr _ h

/-- Two nodes, one step: every call there is, and a key. -/
example :
    let s := (new (mkaInit sevenPoints)).run (mkaCalls sevenPoints)
      [.init (some fun _ => 1) {1, 2},
        .update [⟨cmdMkaPacket, 2, 1, 0 :: sevenPoints.record sevenPoints.G⟩]]
    s.status = .completed ∧ s.handle.calls.length = 5 := by
  decide +kernel

end MkaSession

end LibSmoke
