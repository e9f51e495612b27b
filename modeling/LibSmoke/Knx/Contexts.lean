import LibSmoke.Knx.Sknx
import LibSmoke.Lib.Lifetimes
import Mathlib.Logic.Relation

/-!
# A key exchange and its context

A key exchange initialises a context, calls the library on it and frees it. It has
no flag for this: the context is there exactly while the exchange is running or
completed, and `shutdown` goes by that. Every branch that ends in an error has to
free it, and a failed initialisation must not.

A `Turn` is what the exchange can do next, as far as its status and its context go,
whatever the calls return.
-/

namespace LibSmoke

open Lifetimes

/-- `shutdown` frees the context in these. -/
def KeyStatus.holds : KeyStatus → Bool
  | .offline | .error => false
  | .running | .completed => true

/-- What can be asked of a key exchange. `init` finds the random generator, or does not
find it; `update` finds some packets. -/
inductive KeyCall (D : Type)
  | init (drbg : Option D) (nodes : Finset UInt16)
  | update (packets : List Pkt)
  | shutdown

/-- The calls of a key exchange that knows its generator itself. -/
def KeyExchange.call {κ D : Type} (K : KeyExchange κ) (k : κ) : KeyCall D → κ
  | .init _ nodes => (K.init nodes k).1
  | .update packets => (K.update packets k).state
  | .shutdown => K.shutdown k

variable {O C ε : Type}

inductive Turn : KeyStatus × Handle O C ε → KeyStatus × Handle O C ε → Prop
  | denied (h : Handle O C ε) : Turn (.offline, h) (.error, h)
  | inited {h : Handle O C ε} {f : C → C × Except ε Unit} (hok : (h.init f).2 = .ok ()) :
      Turn (.offline, h) (.running, (h.init f).1)
  | notInited {h : Handle O C ε} {f : C → C × Except ε Unit} {e : ε}
      (hfail : (h.init f).2 = .error e) : Turn (.offline, h) (.error, (h.init f).1)
  | used {β : Type} (h : Handle O C ε) (op : O) (f : C → C × Except ε β) :
      Turn (.running, h) (.running, (h.use op f).1)
  | failed (h : Handle O C ε) (f : C → C) : Turn (.running, h) (.error, h.free f)
  | completed (h : Handle O C ε) : Turn (.running, h) (.completed, h)
  | shut {st : KeyStatus} (h : Handle O C ε) (f : C → C) (hst : st.holds = true) :
      Turn (st, h) (.offline, h.free f)
  | idle {st : KeyStatus} (h : Handle O C ε) (hst : st.holds = false) :
      Turn (st, h) (.offline, h)

/-- Some turns, one after the other. -/
abbrev Turns : KeyStatus × Handle O C ε → KeyStatus × Handle O C ε → Prop :=
  Relation.ReflTransGen Turn

section Results

variable {β : Type} {h h' : Handle O C ε} {op : O}

theorem Turn.of_init {f : C → C × Except ε Unit} (hinit : h.init f = (h', .ok ())) :
    Turn (.offline, h) (.running, h') := by
  have hturn := Turn.inited (congrArg Prod.snd hinit)
  rwa [hinit] at hturn

theorem Turn.of_init_error {f : C → C × Except ε Unit} {e : ε}
    (hinit : h.init f = (h', .error e)) : Turn (.offline, h) (.error, h') := by
  have hturn := Turn.notInited (congrArg Prod.snd hinit)
  rwa [hinit] at hturn

theorem Turn.of_use {f : C → C × Except ε β} {r : Except ε β}
    (huse : h.use op f = (h', r)) : Turn (.running, h) (.running, h') := by
  have hturn := Turn.used h op f
  rwa [huse] at hturn

/-- A use that failed, and the free after it. -/
theorem Turns.failed {f : C → C × Except ε β} {r : Except ε β}
    (huse : h.use op f = (h', r)) (g : C → C) : Turns (.running, h) (.error, h'.free g) :=
  .tail (.single (.of_use huse)) (.failed h' g)

end Results

/-- The calls so far were in order, and the context is live exactly while the exchange
is running or completed. -/
def Keeps (p : KeyStatus × Handle O C ε) : Prop := p.2.Sound p.1.holds

theorem Keeps.turn {p q : KeyStatus × Handle O C ε} (hp : Keeps p) (h : Turn p q) :
    Keeps q := by
  cases h with
  | denied => exact hp
  | @inited h f hok =>
      have hs := hp.init f
      rw [hok] at hs
      exact hs
  | @notInited h f e hfail =>
      have hs := hp.init f
      rw [hfail] at hs
      exact hs
  | used h op f => exact hp.use op f
  | failed h f => exact hp.free f
  | completed => exact hp
  | shut h f hst =>
      have hs : h.Sound true := hst ▸ hp
      exact hs.free f
  | idle h hst =>
      have hs : h.Sound false := hst ▸ hp
      exact hs

theorem Keeps.turns {p q : KeyStatus × Handle O C ε} (hp : Keeps p) (h : Turns p q) :
    Keeps q := by
  induction h with
  | refl => exact hp
  | tail _ hturn ih => exact ih.turn hturn

/-- An exchange that is offline in the end has closed every lifetime of its context. -/
theorem Turns.wellUsed {ctx : C} {h : Handle O C ε}
    (hturns : Turns (.offline, ⟨ctx, []⟩) (.offline, h)) : WellUsed h.calls := by
  have hstart : Keeps (KeyStatus.offline, (⟨ctx, []⟩ : Handle O C ε)) := ⟨Kept.nil, rfl⟩
  have hend := hstart.turns hturns
  exact hend.1.wellUsed hend.2

/-- `shutdown`, in any state. -/
theorem Turn.shutdown (st : KeyStatus) (h : Handle O C ε) (f : C → C) :
    Turn (st, h) (.offline, if st ≠ .offline ∧ st ≠ .error then h.free f else h) := by
  cases st with
  | offline => exact .idle h rfl
  | error => exact .idle h rfl
  | running => exact .shut h f rfl
  | completed => exact .shut h f rfl

/-! ## Two exchanges side by side -/

/-- Two choices by one condition are related if their branches are. -/
theorem rel_ite {α β : Type} {R : α → β → Prop} {c : Prop} [Decidable c] {a b : α}
    {a' b' : β} (ha : c → R a a') (hb : ¬ c → R b b') :
    R (if c then a else b) (if c then a' else b') := by
  split
  · next hc => exact ha hc
  · next hc => exact hb hc

variable {σ κ : Type}

/-- The same is written and returned, and what is left is related. -/
def Answers (R : σ → κ → Prop) (r : σ × List Outgoing × Bool)
    (r' : κ × List Outgoing × Bool) : Prop :=
  r.2 = r'.2 ∧ R r.1 r'.1

/-- As `Answers`, and where the call succeeded `f` shows what is left. -/
def Tallies (f : σ → κ) (R : σ → κ → Prop) (r : σ × List Outgoing × Bool)
    (r' : κ × List Outgoing × Bool) : Prop :=
  r.2 = r'.2 ∧ if r.2.2 = true then f r.1 = r'.1 else R r.1 r'.1

section Tallies

variable {f : σ → κ} {R : σ → κ → Prop} {r : σ × List Outgoing × Bool}
  {r' : κ × List Outgoing × Bool} (h : Tallies f R r r')

include h

theorem Tallies.answers (hR : ∀ s, R s (f s)) : Answers R r r' := by
  refine ⟨h.1, ?_⟩
  have hleft := h.2
  split at hleft
  · exact hleft ▸ hR r.1
  · exact hleft

/-- More is done where the call succeeded. -/
theorem Tallies.andThen {more : σ → σ} {more' : κ → κ}
    (hmore : ∀ s, f (more s) = more' (f s)) :
    Tallies f R (if r.2.2 = true then (more r.1, r.2.1, true) else (r.1, r.2.1, false))
      (if r'.2.2 = true then (more' r'.1, r'.2.1, true) else (r'.1, r'.2.1, false)) := by
  obtain ⟨s, wrote, ok⟩ := r
  obtain ⟨m, wrote', ok'⟩ := r'
  obtain ⟨hout, hleft⟩ := h
  cases hout
  cases ok with
  | false => exact ⟨rfl, hleft⟩
  | true => exact ⟨rfl, (hmore s).trans (congrArg more' hleft)⟩

end Tallies

/-- As `Answers`, and the same packets are left. -/
def ActAnswers (R : σ → κ → Prop) (a : Act σ) (b : Act κ) : Prop :=
  a.rest = b.rest ∧ Answers R (a.state, a.wrote, a.ok) (b.state, b.wrote, b.ok)

/-- What a relation has to keep to, call by call, so that it holds along every run with
the generator `d`. -/
theorem run_related {D : Type} {d : Option D} {R : σ → κ → Prop} {call : σ → KeyCall D → σ}
    {K : KeyExchange κ} (hinit : ∀ s m nodes, R s m → R (call s (.init d nodes)) (K.init nodes m).1)
    (hupdate : ∀ s m q, R s m → R (call s (.update q)) (K.update q m).state)
    (hshutdown : ∀ s m, R s m → R (call s .shutdown) (K.shutdown m)) {s : σ} {m : κ}
    (h : R s m) {calls : List (KeyCall D)}
    (hd : ∀ drbg nodes, KeyCall.init drbg nodes ∈ calls → drbg = d) :
    R (Runs.run call s calls) (Runs.run K.call m calls) := by
  induction calls generalizing s m with
  | nil => exact h
  | cons c calls ih =>
      have hd' : ∀ drbg nodes, KeyCall.init drbg nodes ∈ calls → drbg = d :=
        fun drbg nodes hmem => hd drbg nodes (List.mem_cons_of_mem c hmem)
      refine ih ?_ hd'
      cases c with
      | init drbg nodes =>
          obtain rfl := hd drbg nodes List.mem_cons_self
          exact hinit s m nodes h
      | update packets => exact hupdate s m packets h
      | shutdown => exact hshutdown s m h

end LibSmoke
