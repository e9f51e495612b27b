import LibSmoke.Lib.Roster
import LibSmoke.Knx.Sessions

/-!
# One difference of each

`BD1KeyExchange` adds up the differences in its queue when there are as many as nodes,
whoever they are from. What it passes on are those under another id than the own one,
turned to begin behind it (`Passed`). They are one of each other node exactly if
nothing under another id was left in the queue by earlier sessions, the differences of
this session come from members and from no other member twice, and one entry at most
stands under the own id (`Bd1KeyExchange.oneEach_iff`).
-/

namespace LibSmoke

open Runs

/-- The ids of the other nodes, from behind the own one on around the ring. -/
def othersAround (id : UInt16) (nodes : Finset UInt16) : List UInt16 :=
  (ascending nodes).filter (id < ·) ++ (ascending nodes).filter (· < id)

/-- What is behind the own id and what is before it is what is under another id. -/
theorem filter_around {α : Type} (f : α → UInt16) (id : UInt16) (l : List α) :
    (l.filter (id < f ·) ++ l.filter (f · < id)).Perm (l.filter (f · ≠ id)) := by
  induction l with
  | nil => exact List.Perm.refl _
  | cons a l ih =>
      by_cases heq : f a = id
      · simpa [heq] using ih
      · rcases UInt16.lt_or_lt_of_ne heq with hlt | hlt
        · have hnot : ¬ id < f a := UInt16.lt_asymm hlt
          simp only [List.filter_cons, hlt, hnot, heq, decide_true, decide_false, ne_eq,
            not_false_eq_true, if_true, Bool.false_eq_true, if_false]
          exact List.perm_middle.trans (ih.cons a)
        · have hnot : ¬ f a < id := UInt16.lt_asymm hlt
          simp only [List.filter_cons, hlt, hnot, heq, decide_true, decide_false, ne_eq,
            not_false_eq_true, if_true, Bool.false_eq_true, if_false]
          exact ih.cons a

theorem coe_filter_ascending (id : UInt16) (nodes : Finset UInt16) :
    (↑((ascending nodes).filter (· ≠ id)) : Multiset UInt16) = (nodes.erase id).val := by
  have hnodup : (ascending nodes).Nodup := by
    rw [← Multiset.coe_nodup, coe_ascending]
    exact nodes.nodup
  refine (Multiset.Nodup.ext ?_ (nodes.erase id).nodup).mpr fun a => ?_
  · exact Multiset.coe_nodup.mpr (hnodup.filter _)
  · rw [Multiset.mem_coe, List.mem_filter, mem_ascending, Finset.mem_val, Finset.mem_erase,
      decide_eq_true_iff, and_comm]

theorem coe_othersAround (id : UInt16) (nodes : Finset UInt16) :
    (↑(othersAround id nodes) : Multiset UInt16) = (nodes.erase id).val :=
  (Multiset.coe_eq_coe.mpr (filter_around (fun a => a) id (ascending nodes))).trans
    (coe_filter_ascending id nodes)

namespace Bd1KeyExchange

/-- A packet whose difference is taken. -/
def isX (p : Pkt) : Bool := p.data.length = bd1Bufsize ∧ p.cmd = cmdBd1Xi

/-- The differences among some packets. -/
def xEntries (got : List Pkt) : List (UInt16 × List UInt8) :=
  (got.filter isX).map fun p => (p.src, p.data)

/-- A point of `src` is among some packets. -/
def zFrom (src : UInt16) (got : List Pkt) : Bool :=
  got.any fun p => p.data.length = bd1Bufsize ∧ p.cmd = cmdBd1Zi ∧ p.src = src

/-- An object, what its queue held when the session was begun, and the packets that
have been read since. -/
structure Session where
  m : Bd1KeyExchange
  left : List (UInt16 × List UInt8)
  got : List Pkt

/-- What `bd1_compute_key` is called with: the session up to then, and what has been
copied to the buffer. -/
structure Passed where
  nodes : Finset UInt16
  left : List (UInt16 × List UInt8)
  got : List Pkt
  buf : List UInt8

section Call

variable (g : EcpGroup) (id : UInt16)

/-- The queue a call of `update` goes through for `bd1_compute_key`, if it gets so
far. -/
def passed (q : List Pkt) (m : Bd1KeyExchange) : Option (List (UInt16 × List UInt8)) :=
  if m.status ≠ .running then none
  else
    let (m, _, ok) := ownValue id (readLoop q m).1
    if ok ∧ m.xKeys.length = m.nodes.card then some m.xKeys else none

def call (s : Session) : Earlier (Option (Nat → Nat)) → Session × Option Passed
  | .seed d => ({ s with m := seed d s.m }, none)
  | .init nodes =>
      let m := (init g id nodes s.m).1
      (if s.m.status = .offline then ⟨m, s.m.xKeys, []⟩ else { s with m := m }, none)
  | .update q =>
      let a := update id q s.m
      let got := s.got ++ a.taken q
      ({ s with m := a.state, got := got },
        (passed id q s.m).map fun keys => ⟨s.m.nodes, s.left, got, tempbuf id keys⟩)
  | .shutdown => ({ s with m := shutdown s.m }, none)

/-- The buffer holds one difference for each other node, in the order of the ring, and
each was received from its node in this session. -/
def Passed.OneEach (x : Passed) : Prop :=
  ∃ vals : List (UInt16 × List UInt8), vals.map Prod.fst = othersAround id x.nodes ∧
    (∀ e ∈ vals, ∃ p ∈ x.got, p.cmd = cmdBd1Xi ∧ p.data.length = bd1Bufsize ∧
      p.src = e.1 ∧ p.data = e.2) ∧
    x.buf = vals.flatMap Prod.snd

/-- The points of both neighbours are among the packets of the session. -/
def Passed.points (x : Passed) : Bool :=
  zFrom (NetworkT.of id x.nodes).prev x.got && zFrom (NetworkT.of id x.nodes).next x.got

/-- Nothing under another id was left, the differences of the session come from members
and from no other one twice, and there is one entry at most under the own id, counting
the own difference. -/
def Passed.Clean (x : Passed) : Prop :=
  Roster.Clean id x.nodes (if x.points id then 1 else 0) x.left (xEntries x.got)

end Call

/-! ## The queue and the buffer -/

section Buffer

variable {id : UInt16} {nodes : Finset UInt16} {keys : List (UInt16 × List UInt8)}

theorem length_flatMap_snd {l : List (UInt16 × List UInt8)}
    (h : ∀ e ∈ l, e.2.length = bd1Bufsize) :
    (l.flatMap Prod.snd).length = l.length * bd1Bufsize := by
  induction l with
  | nil => rw [List.flatMap_nil, List.length_nil, List.length_nil, Nat.zero_mul]
  | cons e l ih =>
      rw [List.flatMap_cons, List.length_append, List.length_cons, Nat.succ_mul,
        ih fun e' he' => h e' (List.mem_cons_of_mem e he'), h e List.mem_cons_self,
        Nat.add_comm]

/-- What is copied to the buffer are the entries under other ids. -/
theorem length_tempbuf (hsize : ∀ e ∈ keys, e.2.length = bd1Bufsize) :
    (tempbuf id keys).length = (Roster.other id keys).length * bd1Bufsize := by
  have hperm := filter_around Prod.fst id keys
  rw [tempbuf, length_flatMap_snd, hperm.length_eq]
  · rfl
  · exact fun e he => hsize e (List.mem_of_mem_filter (hperm.mem_iff.mp he))

/-- A part of the queue that leaves out the own id is in the order of the ids. -/
theorem map_fst_filter (f : UInt16 → Bool) (hf : ∀ a, f a → a ≠ id)
    (hsort : keys.Pairwise fun a b => a.1 ≤ b.1)
    (h : (↑((Roster.other id keys).map Prod.fst) : Multiset UInt16) =
      (nodes.erase id).val) :
    (keys.filter (f ·.1)).map Prod.fst = (ascending nodes).filter f := by
  have hid : ∀ a, (f a && decide (a ≠ id)) = f a := by
    intro a
    cases hfa : f a with
    | false => rfl
    | true => rw [Bool.true_and, decide_eq_true (hf a hfa)]
  have hperm : ((Roster.other id keys).map Prod.fst).Perm
      ((ascending nodes).filter (· ≠ id)) :=
    Multiset.coe_eq_coe.mp (h.trans (coe_filter_ascending id nodes).symm)
  have hfilter := hperm.filter f
  rw [List.filter_map, Roster.other, List.filter_filter, List.filter_filter] at hfilter
  have hkeys : (keys.filter fun e => (f ∘ Prod.fst) e && decide (e.1 ≠ id)) =
      keys.filter (f ·.1) := List.filter_congr fun e _ => hid e.1
  have hasc : ((ascending nodes).filter fun a => f a && decide (a ≠ id)) =
      (ascending nodes).filter f := List.filter_congr fun a _ => hid a
  rw [hkeys, hasc] at hfilter
  refine hfilter.eq_of_pairwise (fun _ _ _ _ => UInt16.le_antisymm) ?_
    ((pairwise_ascending nodes).filter _)
  exact List.pairwise_map.mpr (hsort.filter _)

/-- The buffer has one new entry of each other node exactly if what the queue was
filled from was clean. -/
theorem tempbuf_oneEach_iff {own left new : List (UInt16 × List UInt8)}
    (hown : ∀ e ∈ own, e.1 = id) (hkeys : keys.Perm (own ++ (left ++ new)))
    (hlen : keys.length = nodes.card) (hsort : keys.Pairwise fun a b => a.1 ≤ b.1)
    (hsize : ∀ e ∈ keys, e.2.length = bd1Bufsize) :
    (∃ vals : List (UInt16 × List UInt8), vals.map Prod.fst = othersAround id nodes ∧
      (∀ e ∈ vals, e ∈ new) ∧ tempbuf id keys = vals.flatMap Prod.snd) ↔
    Roster.Clean id nodes own.length left new := by
  constructor
  · rintro ⟨vals, hnames, hnew, hbuf⟩
    have hvals : (↑(vals.map Prod.fst) : Multiset UInt16) = (nodes.erase id).val := by
      rw [hnames, coe_othersAround]
    refine Roster.clean_of_one_each hown hkeys hlen hvals hnew ?_
    have hbytes := congrArg List.length hbuf
    rw [length_tempbuf hsize, length_flatMap_snd fun e he => hsize e
      (hkeys.mem_iff.mpr (List.mem_append_right _ (List.mem_append_right _ (hnew e he))))]
      at hbytes
    exact (Nat.eq_of_mul_eq_mul_right (by decide) hbytes).symm
  · intro h
    obtain ⟨hother, hnew⟩ := h.one_each hown hkeys hlen
    refine ⟨keys.filter (id < ·.1) ++ keys.filter (·.1 < id), ?_, fun e he => ?_, rfl⟩
    · rw [List.map_append, othersAround]
      refine congrArg₂ _ ?_ ?_
      · exact map_fst_filter (fun a => decide (id < a))
          (fun a ha => (UInt16.ne_of_lt (of_decide_eq_true ha)).symm) hsort hother
      · exact map_fst_filter (fun a => decide (a < id))
          (fun a ha => UInt16.ne_of_lt (of_decide_eq_true ha)) hsort hother
    · exact hnew e ((filter_around Prod.fst id keys).mem_iff.mp he)

end Buffer

/-! ## The queue in a session -/

/-- The two low bits of `_recvZcnt`. -/
def bits (prev next : Bool) : UInt8 := (if prev then 1 else 0) ||| if next then 2 else 0

theorem bits_or (a b c d : Bool) : bits a b ||| bits c d = bits (a || c) (b || d) := by
  revert a b c d
  decide

theorem bits_eq_three_iff (a b : Bool) : bits a b = 3 ↔ (a && b) = true := by
  revert a b
  decide

/-- Once the own difference has been made a point that comes again does not make it
anew. -/
theorem high_or {x : UInt8} (h : x ∈ [4, 5, 6, 7]) (a b : Bool) :
    x ||| bits a b ∈ [4, 5, 6, 7] := by
  have hall : ∀ x ∈ [4, 5, 6, 7], (x ||| bits a b) ∈ [4, 5, 6, 7] := by
    rw [List.forall_mem_cons, List.forall_mem_cons, List.forall_mem_cons,
      List.forall_mem_singleton]
    revert a b
    decide
  exact hall x h

theorem zFrom_append (src : UInt16) (got got' : List Pkt) :
    zFrom src (got ++ got') = (zFrom src got || zFrom src got') :=
  List.any_append

theorem xEntries_append (got got' : List Pkt) :
    xEntries (got ++ got') = xEntries got ++ xEntries got' := by
  rw [xEntries, List.filter_append, List.map_append]
  rfl

section Session

variable {g : EcpGroup} {id : UInt16} {left : List (UInt16 × List UInt8)} {got : List Pkt}
  {m : Bd1KeyExchange}

theorem place_xKeys (p : Pkt) (m : Bd1KeyExchange) :
    (place p m).xKeys = if isX p then push (p.src, p.data) m.xKeys else m.xKeys := by
  unfold place
  split
  · next hdata =>
      have hnot : ¬ isX p = true := by simp [isX, hdata]
      rw [if_neg hnot]
  · next hdata =>
      split
      · next hz =>
          have hx : p.cmd ≠ cmdBd1Xi := by
            rw [hz]
            decide
          have hnot : ¬ isX p = true := by simp [isX, hx]
          rw [if_neg hnot]
          simp only []
          split <;> split <;> rfl
      · split
        · next hx =>
            have hyes : isX p = true := by simp [isX, not_not.mp hdata, hx]
            rw [if_pos hyes]
        · next hx =>
            have hnot : ¬ isX p = true := by simp [isX, hx]
            rw [if_neg hnot]

theorem zFrom_singleton (src : UInt16) (p : Pkt) : zFrom src [p] =
    (decide (p.data.length = bd1Bufsize ∧ p.cmd = cmdBd1Zi) && decide (p.src = src)) := by
  simp [zFrom, Bool.and_assoc]

theorem place_recvZcnt (p : Pkt) (m : Bd1KeyExchange) :
    (place p m).recvZcnt = m.recvZcnt ||| bits (zFrom m.prev [p]) (zFrom m.next [p]) := by
  rw [zFrom_singleton, zFrom_singleton]
  have hnone : m.recvZcnt = m.recvZcnt ||| bits false false := (UInt8.or_zero ..).symm
  by_cases hpoint : p.data.length = bd1Bufsize ∧ p.cmd = cmdBd1Zi
  · rw [(place_point hpoint.1 hpoint.2).2, UInt8.or_assoc, decide_eq_true hpoint]
    simp only [Bool.true_and, bits, decide_eq_true_eq]
  · rw [decide_eq_false hpoint]
    refine Eq.trans ?_ hnone
    unfold place
    split
    · rfl
    · next hdata =>
        rw [if_neg fun hz => hpoint ⟨not_not.mp hdata, hz⟩]
        split
        · rfl
        · rfl

/-- The queue has the smallest id first, and every entry fills its buffer. -/
structure Filed (keys : List (UInt16 × List UInt8)) : Prop where
  sorted : keys.Pairwise fun a b => a.1 ≤ b.1
  size : ∀ e ∈ keys, e.2.length = bd1Bufsize

theorem Filed.nil : Filed [] := ⟨List.Pairwise.nil, fun e he => (by cases he)⟩

theorem Filed.push {keys : List (UInt16 × List UInt8)} (h : Filed keys)
    {e : UInt16 × List UInt8} (he : e.2.length = bd1Bufsize) :
    Filed (Bd1KeyExchange.push e keys) := by
  refine ⟨push_sorted e h.sorted, fun e' he' => ?_⟩
  rcases List.mem_cons.mp ((push_perm e keys).mem_iff.mp he') with rfl | he'
  · exact he
  · exact h.size e' he'

/-- Where the queue of a running exchange comes from. -/
structure Going (id : UInt16) (left : List (UInt16 × List UInt8)) (got : List Pkt)
    (m : Bd1KeyExchange) : Prop where
  filed : Filed m.xKeys
  prev : m.prev = (NetworkT.of id m.nodes).prev
  next : m.next = (NetworkT.of id m.nodes).next
  entries : m.recvZcnt = bits (zFrom m.prev got) (zFrom m.next got) ∧
      m.xKeys.Perm (left ++ xEntries got) ∨
    m.recvZcnt ∈ [4, 5, 6, 7] ∧ (zFrom m.prev got && zFrom m.next got) = true ∧
      ∃ v, m.xKeys.Perm ((id, v) :: (left ++ xEntries got))

theorem Going.place (h : Going id left got m) (p : Pkt) :
    Going id left (got ++ [p]) (place p m) := by
  obtain ⟨-, hnodes, -, hprev, hnext, -⟩ := place_fields (p := p) (m := m)
  have hkeys : ∀ l, m.xKeys.Perm (l ++ xEntries got) →
      (Bd1KeyExchange.place p m).xKeys.Perm (l ++ xEntries (got ++ [p])) := by
    intro l hl
    rw [place_xKeys, xEntries_append, ← List.append_assoc]
    by_cases hx : isX p = true
    · have hone : xEntries [p] = [(p.src, p.data)] := by simp [xEntries, hx]
      rw [if_pos hx, hone]
      exact ((push_perm _ _).trans (hl.cons _)).trans (List.perm_append_singleton ..).symm
    · have hnone : xEntries [p] = [] := by simp [xEntries, hx]
      rw [if_neg hx, hnone, List.append_nil]
      exact hl
  refine ⟨?_, ?_, ?_, ?_⟩
  · rw [place_xKeys]
    split
    · next hx =>
        have hsize : p.data.length = bd1Bufsize := (of_decide_eq_true hx).1
        exact h.filed.push hsize
    · exact h.filed
  · rw [hprev, hnodes, h.prev]
  · rw [hnext, hnodes, h.next]
  · rw [place_recvZcnt, hprev, hnext, zFrom_append, zFrom_append]
    rcases h.entries with ⟨hbits, hperm⟩ | ⟨hhigh, hboth, v, hperm⟩
    · rw [hbits, bits_or]
      exact .inl ⟨rfl, hkeys left hperm⟩
    · obtain ⟨hp, hn⟩ := Bool.and_eq_true_iff.mp hboth
      refine .inr ⟨high_or hhigh _ _, by rw [hp, hn]; rfl, v, ?_⟩
      rw [← List.cons_append] at hperm ⊢
      exact hkeys _ hperm

theorem Going.readLoop (h : Going id left got m) (q : List Pkt) :
    Going id left (got ++ q.take (q.length - (readLoop q m).2.length)) (readLoop q m).1 :=
  readLoop_rule (I := Going id left) (C := fun _ => True)
    (fun _ _ p h _ _ => h.place p) (fun _ _ => trivial) h

/-- The own difference joins the queue once both points are there. -/
theorem Going.own (h : Going id left got m) {m' : Bd1KeyExchange} {w : List Outgoing}
    (hown : Own id m (m', w, true)) : Going id left got m' ∧ m'.recvZcnt ≠ 3 := by
  cases hown with
  | none h3 => exact ⟨h, h3⟩
  | sent h3 hvalue =>
      have hfour : (4 : UInt8) ≠ 3 ∧ (4 : UInt8) ∈ [4, 5, 6, 7] := by decide
      refine ⟨⟨h.filed.push (padded_length ..), h.prev, h.next, .inr ?_⟩, hfour.1⟩
      rcases h.entries with ⟨hbits, hperm⟩ | ⟨hhigh, -⟩
      · exact ⟨hfour.2, (bits_eq_three_iff _ _).mp (hbits.symm.trans h3), _,
          (push_perm _ _).trans (hperm.cons _)⟩
      · rw [h3] at hhigh
        exact absurd hhigh (by decide)

/-- What is in the queue when the own difference is not due. -/
theorem Going.settled (h : Going id left got m) (h3 : m.recvZcnt ≠ 3) :
    ∃ own : List (UInt16 × List UInt8), (∀ e ∈ own, e.1 = id) ∧
      own.length = (if (zFrom m.prev got && zFrom m.next got) = true then 1 else 0) ∧
      m.xKeys.Perm (own ++ (left ++ xEntries got)) := by
  rcases h.entries with ⟨hbits, hperm⟩ | ⟨-, hboth, v, hperm⟩
  · refine ⟨[], fun e he => (by cases he), ?_, hperm⟩
    rw [if_neg fun hboth => h3 (hbits.trans ((bits_eq_three_iff _ _).mpr hboth))]
    rfl
  · refine ⟨[(id, v)], fun e he => by rw [List.mem_singleton.mp he], ?_, hperm⟩
    rw [if_pos hboth]
    rfl

/-! ## A run -/

theorem mem_xEntries {e : UInt16 × List UInt8} : e ∈ xEntries got ↔
    ∃ p ∈ got, p.cmd = cmdBd1Xi ∧ p.data.length = bd1Bufsize ∧ p.src = e.1 ∧
      p.data = e.2 := by
  simp only [xEntries, List.mem_map, List.mem_filter, isX, decide_eq_true_eq]
  constructor
  · rintro ⟨p, ⟨hp, hdata, hcmd⟩, rfl⟩
    exact ⟨p, hp, hcmd, hdata, rfl, rfl⟩
  · rintro ⟨p, hp, hcmd, hdata, hsrc, hkey⟩
    exact ⟨p, ⟨hp, hdata, hcmd⟩, Prod.ext hsrc hkey⟩

theorem passed_cases {q : List Pkt} {keys : List (UInt16 × List UInt8)}
    (h : passed id q m = some keys) : m.status = .running ∧ ∃ m' w,
      Own id (readLoop q m).1 (m', w, true) ∧ m'.nodes = m.nodes ∧ m'.xKeys = keys ∧
        keys.length = m.nodes.card := by
  unfold passed at h
  split at h
  · cases h
  · next hrun =>
      have hcase := ownValue_cases id (readLoop q m).1
      generalize ownValue id (readLoop q m).1 = r at h hcase
      obtain ⟨m', w, ok⟩ := r
      simp only [] at h
      split at h
      · next hall =>
          obtain ⟨rfl, hlen⟩ := hall
          cases h
          have hnodes : m'.nodes = m.nodes := by
            rw [← (readLoop_fields q m).2]
            cases hcase <;> rfl
          exact ⟨not_not.mp hrun, m', w, hcase, hnodes, rfl, hnodes ▸ hlen⟩
      · cases h

theorem Own.eq {m' : Bd1KeyExchange} {w : List Outgoing} (h : Own id m (m', w, true)) :
    ownValue id m = (m', w, true) := by
  cases h with
  | none h3 => exact if_neg h3
  | sent h3 hvalue => rw [ownValue, if_pos h3, hvalue]

/-- A key comes from nowhere but a call of `bd1_compute_key` with what it is passed. -/
theorem completed_passed {q : List Pkt} (hrun : m.status = .running)
    (h : (update id q m).state.status = .completed) :
    ∃ keys ctx key, passed id q m = some keys ∧
      bd1ComputeKey ctx (padded (bd1Bufsize * m.nodes.card) (tempbuf id keys))
        (bd1Bufsize * m.nodes.card - 1) m.nodes.card bd1Bufsize = .ok key ∧
      (update id q m).state.keylen = key.length := by
  have hcase := update_cases id q hrun
  generalize update id q m = a at hcase h ⊢
  have hnodes : ∀ {m' w}, Own id (readLoop q m).1 (m', w, true) → m'.nodes = m.nodes := by
    intro m' w hown
    rw [← (readLoop_fields q m).2]
    cases hown <;> rfl
  cases hcase with
  | noValue => cases h
  | noKey => cases h
  | wait hown hlen =>
      have hstatus := (readLoop_fields q m).1.trans hrun
      cases hown with
      | none => cases h.symm.trans hstatus
      | sent => cases h.symm.trans hstatus
  | @done m' w key hown hlen hkey =>
      refine ⟨m'.xKeys, m'.ctx, key, ?_, hnodes hown ▸ hkey, rfl⟩
      rw [passed, if_neg (not_not.mpr hrun), hown.eq]
      exact if_pos ⟨rfl, hlen⟩

structure Kept (id : UInt16) (s : Session) : Prop where
  filed : Filed s.m.xKeys
  going : s.m.status = .running → Going id s.left s.got s.m

theorem Kept.update {s : Session} (h : Kept id s) (q : List Pkt) :
    Kept id (call g id s (.update q)).1 := by
  show Kept id ⟨(Bd1KeyExchange.update id q s.m).state, s.left,
    s.got ++ (Bd1KeyExchange.update id q s.m).taken q⟩
  by_cases hrun : s.m.status = .running
  · have hgo := (h.going hrun).readLoop q
    have hcase := update_cases id q hrun
    have htaken : (Bd1KeyExchange.update id q s.m).taken q =
        q.take (q.length - (Bd1KeyExchange.readLoop q s.m).2.length) := by
      rw [Act.taken, hcase.rest_eq]
    rw [htaken]
    generalize Bd1KeyExchange.update id q s.m = a at hcase ⊢
    cases hcase with
    | noValue => exact ⟨hgo.filed, fun hc => (by cases hc)⟩
    | noKey => exact ⟨Filed.nil, fun hc => (by cases hc)⟩
    | wait hown => exact ⟨(hgo.own hown).1.filed, fun _ => (hgo.own hown).1⟩
    | done => exact ⟨Filed.nil, fun hc => (by cases hc)⟩
  · rw [update_idle id q hrun]
    exact ⟨h.filed, fun hc => absurd hc hrun⟩

/-- Whatever is passed on in a call is one of each exactly if it was clean. -/
theorem Kept.passed_iff {s : Session} (h : Kept id s) {q : List Pkt} {x : Passed}
    (hx : x ∈ (call g id s (.update q)).2) : x.OneEach id ↔ x.Clean id := by
  obtain ⟨keys, hkeys, rfl⟩ := Option.map_eq_some_iff.mp hx
  obtain ⟨hrun, m', w, hown, hnodes, rfl, hlen⟩ := passed_cases hkeys
  have htaken : (Bd1KeyExchange.update id q s.m).taken q =
      q.take (q.length - (Bd1KeyExchange.readLoop q s.m).2.length) := by
    rw [Act.taken, (update_cases id q hrun).rest_eq]
  obtain ⟨hgo, h3⟩ := ((h.going hrun).readLoop q).own hown
  rw [← htaken] at hgo
  obtain ⟨own, hid, hcount, hperm⟩ := hgo.settled h3
  rw [hgo.prev, hgo.next, hnodes] at hcount
  have hiff := @tempbuf_oneEach_iff id s.m.nodes _ _ _ _ hid hperm hlen hgo.filed.sorted
    hgo.filed.size
  rw [hcount] at hiff
  refine Iff.trans ?_ hiff
  refine exists_congr fun vals => and_congr Iff.rfl (and_congr ?_ Iff.rfl)
  exact forall₂_congr fun e _ => mem_xEntries.symm

theorem Kept.call {s : Session} (h : Kept id s) (x : Earlier (Option (Nat → Nat))) :
    Kept id (call g id s x).1 ∧
    ∀ y ∈ (call g id s x).2, y.OneEach id ↔ y.Clean id := by
  cases x with
  | seed d =>
      refine ⟨⟨h.filed, fun hrun => ?_⟩, fun y hy => (by cases hy)⟩
      have hgo := h.going hrun
      exact ⟨hgo.filed, hgo.prev, hgo.next, hgo.entries⟩
  | init nodes =>
      refine ⟨?_, fun y hy => (by cases hy)⟩
      show Kept id (if s.m.status = .offline then
        ⟨(init g id nodes s.m).1, s.m.xKeys, []⟩ else { s with m := (init g id nodes s.m).1 })
      have hfiled : Filed (init g id nodes s.m).1.xKeys := by
        rw [(init_fields g id nodes s.m).2]
        exact h.filed
      split
      · next hoff =>
          refine ⟨hfiled, fun hrun => ?_⟩
          rcases init_cases g id nodes s.m with
            heq | ⟨herr, -⟩ | ⟨draw, ctx, mykey, -, -, -, -, -, heq⟩
          · rw [heq, hoff] at hrun
            cases hrun
          · rw [herr] at hrun
            cases hrun
          · have hzero : (0 : UInt8) = bits false false := by decide
            have hperm : s.m.xKeys.Perm (s.m.xKeys ++ xEntries []) := by
              rw [xEntries, List.filter_nil, List.map_nil, List.append_nil]
            rw [heq] at hfiled ⊢
            exact ⟨hfiled, rfl, rfl, .inl ⟨hzero, hperm⟩⟩
      · next hoff =>
          have hsame : (init g id nodes s.m).1 = s.m := by
            rw [init, if_pos hoff]
          rw [hsame]
          exact h
  | update q => exact ⟨h.update q, fun y hy => h.passed_iff hy⟩
  | shutdown => exact ⟨⟨h.filed, fun hc => (by cases hc)⟩, fun y hy => (by cases hy)⟩

/-- In every run of calls, whenever `bd1_compute_key` is called, the buffer holds one
difference of each other node, received from it in the session, exactly if the queue
was filled cleanly. -/
theorem oneEach_iff (g : EcpGroup) (id : UInt16) (d : Option (Nat → Nat))
    (calls : List (Earlier (Option (Nat → Nat)))) :
    ∀ o ∈ outputs (Bd1KeyExchange.call g id) ⟨new g d, [], []⟩ calls, ∀ x ∈ o,
      x.OneEach id ↔ x.Clean id := by
  have hnew : Kept id ⟨new g d, [], []⟩ := ⟨Filed.nil, fun hc => (by cases hc)⟩
  exact outputs_inv (fun s x h => h.call x) hnew calls

/-- The point of a neighbour, from `src`. -/
def onePoint (src : UInt16) : Pkt := ⟨cmdBd1Zi, src, 0, sevenPoints.record sevenPoints.G⟩

/-- A difference from `src`. -/
def oneValue (src : UInt16) : Pkt := ⟨cmdBd1Xi, src, 0, sevenPoints.record sevenPoints.G⟩

/-- A session of three nodes, in which the differences come from `a` and `b`. -/
def valuesFrom (a b : UInt16) : List (Earlier (Option (Nat → Nat))) :=
  [.init {1, 2, 3}, .update [onePoint 2, onePoint 3, oneValue a, oneValue b]]

/-- What node 1 passes on in it. -/
def passedFrom (a b : UInt16) : List (Option Passed) :=
  outputs (Bd1KeyExchange.call sevenPoints 1) ⟨new sevenPoints (some fun _ => 1), [], []⟩
    (valuesFrom a b)

/-- A first session of the three nodes, with the given differences. -/
def Passed.first (new : List (UInt16 × List UInt8)) (x : Passed) : Bool :=
  x.nodes = {1, 2, 3} ∧ x.left = [] ∧ xEntries x.got = new ∧ x.points 1 = true

theorem exists_first {os : List (Option Passed)} {new : List (UInt16 × List UInt8)}
    (h : os.any (·.any (Passed.first new)) = true) : ∃ o ∈ os, ∃ x ∈ o,
      x.nodes = {1, 2, 3} ∧ x.left = [] ∧ xEntries x.got = new ∧ x.points 1 = true := by
  obtain ⟨o, ho, h⟩ := List.any_eq_true.mp h
  obtain ⟨x, rfl, h⟩ := (Option.any_eq_true ..).mp h
  exact ⟨_, ho, x, rfl, of_decide_eq_true h⟩

/-- One difference of each of the other two. -/
theorem oneEach_of_values : ∃ o ∈ passedFrom 2 3, ∃ x ∈ o, x.OneEach 1 := by
  obtain ⟨o, ho, x, hx, hnodes, hleft, hnew, hpoints⟩ :=
    exists_first (show (passedFrom 2 3).any (·.any (Passed.first
      (xEntries [oneValue 2, oneValue 3]))) = true by decide +kernel)
  refine ⟨o, ho, x, hx,
    (oneEach_iff sevenPoints 1 (some fun _ => 1) (valuesFrom 2 3) o ho x hx).mpr ?_⟩
  show Roster.Clean 1 x.nodes (if x.points 1 then 1 else 0) x.left (xEntries x.got)
  rw [hnodes, hleft, hnew, hpoints]
  exact ⟨fun e he => (by cases he), by decide, by decide, by decide⟩

/-- A difference that comes twice takes the place of another one. -/
theorem value_counted_twice :
    ¬ ∀ calls, ∀ o ∈ outputs (Bd1KeyExchange.call sevenPoints 1)
        ⟨new sevenPoints (some fun _ => 1), [], []⟩ calls, ∀ x ∈ o, x.OneEach 1 := by
  intro h
  obtain ⟨o, ho, x, hx, hnodes, -, htwice, -⟩ :=
    exists_first (show (passedFrom 2 2).any (·.any (Passed.first
      (xEntries [oneValue 2, oneValue 2]))) = true by decide +kernel)
  obtain ⟨vals, hnames, hnew, -⟩ := h (valuesFrom 2 2) o ho x hx
  have hthree : (3 : UInt16) ∈ vals.map Prod.fst := by
    rw [hnames, hnodes]
    decide
  obtain ⟨e, he, hsrc⟩ := List.mem_map.mp hthree
  have hfrom : e ∈ xEntries [oneValue 2, oneValue 2] := by
    rw [← htwice]
    exact mem_xEntries.mpr (hnew e he)
  have hnone : ∀ e ∈ xEntries [oneValue 2, oneValue 2], e.1 ≠ 3 := by decide
  exact hnone e hfrom hsrc

end Session

end Bd1KeyExchange

end LibSmoke
