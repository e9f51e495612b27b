import LibSmoke.Lib.Runs
import LibSmoke.Knx.MkaKeyExchange
import LibSmoke.Sban.Lockstep

/-!
# The group key exchange over a network

Every node runs `MKAKeyExchange` at its own pace, and between any two nodes
there is a channel that loses nothing and keeps the order. A node can be one
step behind another: it then has points of its next step before it has all
points of its own.

The points that come early are where the exchange goes wrong, since what is
used of them is the point of the packet that completed the step
(`early_key_wrong`). As long as no node is given a packet of a step before it
has been given the packets of the step before from all others (`OnTime`), every
node that completes holds the first coordinate of the product of all scalars
(`keys_agree`): in each step the nodes hold what the parties in lockstep would.
-/

namespace LibSmoke

namespace Agreement

/-- A node with its queue, and what its exchange has taken off it. -/
structure Party where
  mka : MkaKeyExchange
  inQ : List Pkt
  taken : List Pkt

/-- The nodes and the channels from one to the other. -/
structure Mesh (n : Nat) where
  party : Fin n → Party
  chan : Fin n → Fin n → List Pkt

/-- `other` is a packet that is none of the exchange. -/
inductive Action (n : Nat)
  | init (i : Fin n)
  | update (i : Fin n)
  | deliver (i j : Fin n)
  | other (j : Fin n) (p : Pkt)

section Run

variable (g : EcpGroup) {n : Nat} (ids : Fin n → UInt16)

def nodeset : Finset UInt16 := Finset.univ.image ids

def start (draw : Fin n → Nat → Nat) : Mesh n where
  party := fun i => ⟨.new g (some (draw i)), [], []⟩
  chan := fun _ _ => []

/-- The channels when node `i` has written some packets. -/
def send (i : Fin n) (wrote : List Outgoing) (b : Mesh n) :
    Fin n → Fin n → List Pkt :=
  fun k j => if k = i ∧ j ≠ i then
    b.chan k j ++ wrote.map (Outgoing.pkt (ids i)) else b.chan k j

def step (b : Mesh n) : Action n → Mesh n
  | .init i =>
      let res := (b.party i).mka.init g (nodeset ids)
      { party := Function.update b.party i { b.party i with mka := res.1 }
        chan := send ids i res.2.1 b }
  | .update i =>
      let a := (b.party i).mka.update (b.party i).inQ
      { party := Function.update b.party i
          ⟨a.state, a.rest, (b.party i).taken ++ a.taken (b.party i).inQ⟩
        chan := send ids i a.wrote b }
  | .deliver i j =>
      match b.chan i j with
      | [] => b
      | p :: rest =>
          { party := Function.update b.party j
              { b.party j with inQ := (b.party j).inQ ++ [p] }
            chan := fun k l => if k = i ∧ l = j then rest else b.chan k l }
  | .other j p =>
      if p.cmd = cmdMkaPacket ∧ p.src ∈ nodeset ids then b
      else
        { b with
          party := Function.update b.party j
            { b.party j with inQ := (b.party j).inQ ++ [p] } }

/-- What node `j` has been given. -/
def Mesh.given (b : Mesh n) (j : Fin n) : List Pkt :=
  (b.party j).taken ++ (b.party j).inQ

/-- `p` is a packet of the exchange from node `k` for step `t`. -/
def IsStep (k : Fin n) (t : Nat) (p : Pkt) : Prop :=
  p.cmd = cmdMkaPacket ∧ p.src = ids k ∧ (MkaStep.ofData p.data).stepId.toNat = t

instance (k : Fin n) (t : Nat) (p : Pkt) : Decidable (IsStep ids k t p) :=
  inferInstanceAs (Decidable (_ ∧ _ ∧ _))

/-- A packet is delivered after the packets of the step before from all other
nodes. -/
def OnTime (b : Mesh n) : Action n → Prop
  | .deliver i j => ∀ p ∈ (b.chan i j).head?, ∀ t < n, IsStep ids i (t + 1) p →
      ∀ k, k ≠ j → ∃ q ∈ b.given j, IsStep ids k t q
  | _ => True

instance (b : Mesh n) : ∀ act, Decidable (OnTime ids b act)
  | .deliver i j => inferInstanceAs (Decidable
      (∀ p ∈ (b.chan i j).head?, ∀ t < n, IsStep ids i (t + 1) p →
        ∀ k, k ≠ j → ∃ q ∈ b.given j, IsStep ids k t q))
  | .init _ | .update _ | .other _ _ => .isTrue trivial

end Run

/-! ## What a running exchange holds -/

section Exact

open MkaKeyExchange ElemSymm

variable {g : EcpGroup} {pt : ZMod g.N → EcpPoint} {n : Nat}
  {ids : Fin n → UInt16} {a : Fin n → Int}

/-- The point party `k` broadcasts in step `t`, as a scalar. -/
def point (g : EcpGroup) (a : Fin n → Int) (t : Nat) (k : Fin n) : ZMod g.N :=
  scalars g a k * others g a k t

/-- The packet party `k` broadcasts in step `t`. -/
def stepOf (pt : ZMod g.N → EcpPoint) (a : Fin n → Int) (t : Nat)
    (k : Fin n) : Outgoing :=
  stepPacket (UInt8.ofNat t) (g.record (pt (point g a t k)))

/-- `p` is the packet that party `k` is to broadcast in step `t`. -/
structure Right (pt : ZMod g.N → EcpPoint) (ids : Fin n → UInt16)
    (a : Fin n → Int) (k : Fin n) (t : Nat) (p : Pkt) : Prop where
  eq : p = (stepOf pt a t k).pkt (ids k)
  lt : t + 2 ≤ n
  small : n ≤ 255
  ne : others g a k t ≠ 0

/-- A running exchange of node `i` in step `s`, with the points of `us` in
place: the context after the broadcast of the step, or after the last step. -/
structure Holds (pt : ZMod g.N → EcpPoint) (ids : Fin n → UInt16)
    (a : Fin n → Int) (i : Fin n) (taken : List Pkt) (us : List (Fin n))
    (s : Nat) (m : MkaKeyExchange) : Prop where
  nodes : m.nodes = nodeset ids
  aside : m.nextStepValues = []
  step : m.currentStep.toNat = s
  two : 2 ≤ n
  le : s + 1 ≤ n
  ne : others g a i s ≠ 0
  ctx : m.ctx = if s + 1 < n then ⟨g, a i, pt (point g a s i), 0, n, s⟩
    else ⟨g, a i, pt (others g a i s), 0, n, n - 2⟩
  length : m.remoteKeys.length = mkaBufsize * (n - 1)
  nodup : us.Nodup
  not_self : i ∉ us
  users : m.remoteUsers = (us.map ids).toFinset
  keys : m.remoteKeys.take (mkaBufsize * us.length) =
    recordsOf g pt (us.map (point g a s))
  present : ∀ k ∈ us, others g a k s ≠ 0
  seen : ∀ p ∈ taken, ∀ k, k ≠ i → ∀ t, Right pt ids a k t p →
    t < s ∨ t = s ∧ k ∈ us

theorem card_nodeset (hids : Function.Injective ids) :
    (nodeset ids).card = n := by
  rw [nodeset, Finset.card_image_of_injective _ hids, Finset.card_univ,
    Fintype.card_fin]

/-- A list of other parties that has all of them, or as many as there are. -/
theorem othersOf_of_length {i : Fin n} {us : List (Fin n)} (hnodup : us.Nodup)
    (hself : i ∉ us) (hlen : us.length = n - 1) : OthersOf i us := by
  have hsub : us.toFinset ⊆ Finset.univ.erase i := by
    intro u hu
    rw [List.mem_toFinset] at hu
    exact Finset.mem_erase.mpr ⟨fun h => hself (h ▸ hu), Finset.mem_univ u⟩
  have hcard : (Finset.univ.erase i).card ≤ us.toFinset.card := by
    rw [List.toFinset_card_of_nodup hnodup, hlen,
      Finset.card_erase_of_mem (Finset.mem_univ i), Finset.card_univ,
      Fintype.card_fin]
  have heq := Finset.eq_of_subset_of_card_le hsub hcard
  refine ⟨hnodup, fun j => ?_⟩
  rw [← List.mem_toFinset, heq, Finset.mem_erase]
  exact and_iff_left (Finset.mem_univ j)

section Packet

variable (hplen : g.plen = 32)

include hplen

theorem record_length_eq (p : EcpPoint) : (g.record p).length = mkaBufsize := by
  rw [EcpGroup.record_length, hplen]
  rfl

theorem ofData_stepOf (t : Nat) (k : Fin n) :
    (stepOf pt a t k).body.length = mkaStepSize ∧
    MkaStep.ofData (stepOf pt a t k).body =
      ⟨UInt8.ofNat t, g.record (pt (point g a t k))⟩ := by
  have hlen := record_length_eq hplen (pt (point g a t k))
  have hbody : (stepOf pt a t k).body =
      UInt8.ofNat t :: g.record (pt (point g a t k)) := by
    simp only [stepOf, stepPacket, hlen, Nat.sub_self, List.replicate_zero,
      List.append_nil]
    rw [List.take_of_length_le (Nat.le_of_eq hlen)]
  rw [hbody]
  exact ⟨by rw [List.length_cons, hlen]; rfl, rfl⟩

theorem Right.isStep {k : Fin n} {t : Nat} {p : Pkt}
    (h : Right pt ids a k t p) : IsStep ids k t p := by
  have hlt := h.lt
  have hn := h.small
  rw [h.eq]
  refine ⟨rfl, rfl, ?_⟩
  show (MkaStep.ofData (stepOf pt a t k).body).stepId.toNat = t
  rw [(ofData_stepOf hplen t k).2]
  exact UInt8.toNat_ofNat_of_lt (by show t < 256; omega)

theorem Right.unique (hids : Function.Injective ids) {k k' : Fin n}
    {t t' : Nat} {p : Pkt} (h : Right pt ids a k t p)
    (h' : IsStep ids k' t' p) : k' = k ∧ t' = t := by
  obtain ⟨-, hsrc, hstep⟩ := h.isStep hplen
  exact ⟨hids (h'.2.1.symm.trans hsrc), h'.2.2.symm.trans hstep⟩

variable {i : Fin n} {taken : List Pkt} {us : List (Fin n)} {s : Nat}
  {m : MkaKeyExchange}

omit hplen in
/-- A packet that is no packet of a party changes nothing. -/
theorem Holds.skip (h : Holds pt ids a i taken us s m) {p : Pkt}
    (hp : ∀ k t, ¬ Right pt ids a k t p) :
    Holds pt ids a i (taken ++ [p]) us s m := by
  refine { h with seen := fun p' hp' k hk t ht => ?_ }
  rcases List.mem_append.mp hp' with hp' | hp'
  · exact h.seen p' hp' k hk t ht
  · exact absurd (List.mem_singleton.mp hp' ▸ ht) (hp k t)

/-- A packet of this step or of one before goes to its place. -/
theorem Holds.place (h : Holds pt ids a i taken us s m)
    (hids : Function.Injective ids) (hus : us.length < n - 1) {k : Fin n} {t : Nat} {p : Pkt} (hp : Right pt ids a k t p) (hk : k ≠ i)
    (hts : t ≤ s) :
    ∃ us', us'.length ≤ n - 1 ∧
      Holds pt ids a i (taken ++ [p]) us' s (place p.src (.ofData p.data) m) := by
  obtain ⟨-, hsrc, hstepId⟩ := hp.isStep hplen
  have hkey : MkaStep.ofData p.data =
      ⟨UInt8.ofNat t, g.record (pt (point g a t k))⟩ := by
    rw [hp.eq]
    exact (ofData_stepOf hplen t k).2
  have hseen : ∀ us' : List (Fin n), (∀ u ∈ us, u ∈ us') → (t = s → k ∈ us') →
      ∀ p' ∈ taken ++ [p], ∀ k', k' ≠ i → ∀ t', Right pt ids a k' t' p' →
        t' < s ∨ t' = s ∧ k' ∈ us' := by
    intro us' hsub hmem p' hp' k' hk' t' ht'
    rcases List.mem_append.mp hp' with hp' | hp'
    · rcases h.seen p' hp' k' hk' t' ht' with h' | h'
      · exact .inl h'
      · exact .inr ⟨h'.1, hsub k' h'.2⟩
    · rw [List.mem_singleton.mp hp'] at ht'
      obtain ⟨rfl, rfl⟩ := hp.unique hplen hids (ht'.isStep hplen)
      rcases Nat.lt_or_eq_of_le hts with h' | h'
      · exact .inl h'
      · exact .inr ⟨h', hmem h'⟩
  by_cases hcur : t = s
  · subst hcur
    have heq : (MkaStep.ofData p.data).stepId = m.currentStep :=
      UInt8.toNat_inj.mp (hstepId.trans h.step.symm)
    rw [MkaKeyExchange.place, if_pos heq, insertKey]
    by_cases hmem : k ∈ us
    · have hin : p.src ∈ m.remoteUsers := by
        rw [h.users, hsrc, List.mem_toFinset]
        exact List.mem_map_of_mem hmem
      rw [if_pos hin]
      exact ⟨us, Nat.le_of_lt hus, { h with
        seen := hseen us (fun u hu => hu) fun _ => hmem }⟩
    · have hin : p.src ∉ m.remoteUsers := by
        rw [h.users, hsrc, List.mem_toFinset]
        intro hin
        obtain ⟨u, hu, heq⟩ := List.mem_map.mp hin
        exact hmem (hids heq ▸ hu)
      have hcard : m.remoteUsers.card = us.length := by
        rw [h.users, List.toFinset_card_of_nodup (h.nodup.map hids),
          List.length_map]
      have hrec := record_length_eq hplen (pt (point g a t k))
      have hroom : us.length * mkaBufsize + mkaBufsize ≤ m.remoteKeys.length := by
        rw [h.length, ← Nat.succ_mul, Nat.mul_comm]
        exact Nat.mul_le_mul_left _ hus
      rw [if_neg hin, hkey, hcard]
      have hlen : (us ++ [k]).length ≤ n - 1 := by
        rw [List.length_append, List.length_singleton]
        exact hus
      refine ⟨us ++ [k], hlen, { h with
        length := ?_, nodup := ?_, not_self := ?_, users := ?_, keys := ?_
        present := ?_, seen := ?_ }⟩
      · simp only []
        rw [memcpy_length (by rw [hrec]; exact hroom), h.length]
      · refine List.nodup_append.mpr ⟨h.nodup, List.nodup_singleton k, ?_⟩
        intro u hu v hv heq
        exact hmem (List.mem_singleton.mp hv ▸ heq ▸ hu)
      · rw [List.mem_append, List.mem_singleton]
        rintro (h' | h')
        · exact h.not_self h'
        · exact hk h'.symm
      · simp only []
        rw [h.users, hsrc]
        ext x
        simp
      · simp only [List.length_append, List.length_singleton, List.map_append,
          List.map_singleton]
        have htake := take_memcpy
          (show us.length * mkaBufsize ≤ m.remoteKeys.length by omega)
          (g.record (pt (point g a t k)))
        rw [hrec, Nat.mul_comm us.length] at htake
        rw [Nat.mul_add, Nat.mul_one, Nat.mul_comm us.length, htake, h.keys,
          recordsOf, recordsOf, List.flatMap_append, List.flatMap_singleton]
      · intro u hu
        rcases List.mem_append.mp hu with hu | hu
        · exact h.present u hu
        · exact List.mem_singleton.mp hu ▸ hp.ne
      · exact hseen _ (fun u hu => List.mem_append_left _ hu) fun _ => by simp
  · have hne : (MkaStep.ofData p.data).stepId ≠ m.currentStep := by
      intro heq
      rw [heq, h.step] at hstepId
      exact hcur hstepId.symm
    have hne' : (MkaStep.ofData p.data).stepId.toNat ≠
        m.currentStep.toNat + 1 := by
      rw [hstepId, h.step]
      omega
    rw [MkaKeyExchange.place, if_neg hne, if_neg hne']
    exact ⟨us, Nat.le_of_lt hus, { h with
      seen := hseen us (fun u hu => hu) fun heq => absurd heq hcur }⟩

omit hplen in
/-- The next step begins with no point in place. -/
theorem Holds.advance (h : Holds pt ids a i taken us s m) (hn : n ≤ 255)
    (hs : s + 1 < n) (hne : others g a i (s + 1) ≠ 0) {ctx : MkaContext}
    (hctx : ctx = if s + 1 + 1 < n then
        ⟨g, a i, pt (point g a (s + 1) i), 0, n, s + 1⟩
      else ⟨g, a i, pt (others g a i (s + 1)), 0, n, n - 2⟩) :
    Holds pt ids a i taken [] (s + 1) { m with
      ctx := ctx, remoteUsers := ∅, currentStep := m.currentStep + 1 } where
  nodes := h.nodes
  aside := h.aside
  step := by
    have hstep := h.step
    rw [succ_toNat (n := n) (by omega) hn, hstep]
  two := h.two
  le := hs
  ne := hne
  ctx := hctx
  length := h.length
  nodup := List.nodup_nil
  not_self := List.not_mem_nil
  users := rfl
  keys := rfl
  present := fun u hu => absurd hu List.not_mem_nil
  seen := by
    intro p hp k hk t ht
    rcases h.seen p hp k hk t ht with h' | ⟨h', -⟩ <;> exact .inl (by omega)

section Group

variable (hE : g.Exact pt) (ha : ∀ j, 0 < a j ∧ a j < g.N) (hnN : n < g.N)

include hE ha

omit hplen in
theorem point_ne_zero {t : Nat} {k : Fin n} (h : others g a k t ≠ 0) :
    point g a t k ≠ 0 :=
  hE.scalar_ne_zero (EcpGroup.Exact.cast_ne_zero (ha k).1 (ha k).2) h

include hnN

/-- The accumulation with the points of all others in place. -/
theorem Holds.accumulate (h : Holds pt ids a i taken us s m) (hs : s + 1 < n)
    (hfull : us.length = n - 1) {ctx : MkaContext}
    (hacc : mkaAccBroadval m.ctx m.remoteKeys = .ok ctx) :
    others g a i (s + 1) ≠ 0 ∧ ctx = ⟨g, a i, pt (others g a i (s + 1)), 0, n,
      if s + 2 < n then s + 1 else s⟩ := by
  have hothers := othersOf_of_length h.nodup h.not_self hfull
  have hkeys := h.keys
  rw [hfull, ← h.length, List.take_length] at hkeys
  have hctx := h.ctx
  rw [if_pos hs] at hctx
  have hz : (us.map (point g a s)).sum - s * point g a s i =
      (s + 1) * others g a i (s + 1) := by
    rw [hothers.sum_map]
    exact sum_mul_elem_erase_univ (scalars g a) i s
  have hroom : g.Room (2 * g.plen + 2) := by
    rw [EcpGroup.Room, hplen]
    decide
  have hys : ∀ y ∈ us.map (point g a s), y ≠ 0 := by
    intro y hy
    obtain ⟨u, hu, rfl⟩ := List.mem_map.mp hy
    exact point_ne_zero hE ha (h.present u hu)
  rw [hctx, hkeys, mkaAccBroadval_pt hE (point_ne_zero hE ha h.ne) hys
    (by rw [List.length_map]; omega) hs hnN hroom hz] at hacc
  split at hacc
  · cases hacc
  · next hne =>
      cases hacc
      exact ⟨hne, rfl⟩

/-- A packet of this step or of one before, read while points are missing:
what comes after is right again, and so is what it writes. -/
theorem Holds.read (h : Holds pt ids a i taken us s m)
    (hids : Function.Injective ids) (hs : s + 1 < n) (hus : us.length < n - 1)
    {k : Fin n} {t : Nat} {p : Pkt} (hp : Right pt ids a k t p) (hk : k ≠ i)
    (hts : t ≤ s) {m' : MkaKeyExchange} {w' : List Outgoing}
    (hupd : Update p m (m', w', true)) :
    ∃ us' s', Holds pt ids a i (taken ++ [p]) us' s' m' ∧
      (s' + 1 < n → us'.length < n - 1) ∧
      ∀ o ∈ w', ∃ t', Right pt ids a i t' (o.pkt (ids i)) := by
  obtain ⟨m₁, hplaced, us', hlen', h'⟩ : ∃ m₁,
      MkaKeyExchange.place p.src (.ofData p.data) m = m₁ ∧
        ∃ us', us'.length ≤ n - 1 ∧ Holds pt ids a i (taken ++ [p]) us' s m₁ :=
    ⟨_, rfl, h.place hplen hids hus hp hk hts⟩
  have hcard : m₁.remoteUsers.card = us'.length := by
    rw [h'.users, List.toFinset_card_of_nodup (h'.nodup.map hids),
      List.length_map]
  have hnodes : m₁.nodes.card = n := by rw [h'.nodes, card_nodeset hids]
  have hsucc : (m₁.currentStep + 1).toNat = s + 1 := by
    have hstep := h'.step
    rw [succ_toNat (n := n) (by omega) hp.small, hstep]
  cases hupd with
  | skip hsize =>
      refine absurd ?_ hsize
      rw [hp.eq]
      exact (ofData_stepOf hplen t k).1
  | wait _ hm₁ hne =>
      rw [hplaced] at hm₁
      subst hm₁
      rw [hcard, hnodes] at hne
      exact ⟨us', s, h', fun _ => by omega, fun o ho => by cases ho⟩
  | last _ hm₁ hfull hacc hstep =>
      rw [hplaced] at hm₁
      subst hm₁
      rw [hcard, hnodes] at hfull
      rw [hnodes, hsucc] at hstep
      obtain ⟨hne, hctx⟩ := h'.accumulate hplen hE ha hnN hs hfull hacc
      have hnext := h'.advance hp.small hs hne (hctx.trans (by
        rw [if_neg (by omega), if_neg (by omega)]
        congr 1
        omega))
      exact ⟨[], s + 1, hnext, fun _ => by omega, fun o ho => by cases ho⟩
  | next _ hm₁ hfull hacc hstep hmake =>
      rw [hplaced] at hm₁
      subst hm₁
      rw [hcard, hnodes] at hfull
      rw [hnodes, hsucc] at hstep
      obtain ⟨hne, rfl⟩ := h'.accumulate hplen hE ha hnN hs hfull hacc
      have hsends : sends (a i) (s + 1) (others g a i (s + 1)) =
          point g a (s + 1) i := by
        rw [sends, if_neg (by omega)]
        rfl
      rw [if_pos (by omega), mkaMakeBroadval_pt hE (ha i).1 (ha i).2 hne
        (by omega) (by rw [hplen]; decide), hsends] at hmake
      cases hmake
      have hnext := h'.advance hp.small hs hne (if_pos (by omega)).symm
      rw [useAside_nil _ hnext.aside]
      refine ⟨[], s + 1, hnext, fun _ => by rw [List.length_nil]; omega, ?_⟩
      intro o ho
      refine ⟨s + 1, ?_, by omega, hp.small, hne⟩
      rw [List.mem_singleton.mp ho, stepOf]
      congr 2
      have hsmall := hp.small
      have hbyte : (UInt8.ofNat (s + 1)).toNat = s + 1 :=
        UInt8.toNat_ofNat_of_lt (by show s + 1 < 256; omega)
      rw [← UInt8.toNat_inj, hsucc, hbyte]

/-- A packet that comes after `pre`: it is none of the exchange, or right and
behind those of the step before. -/
def InTime (pt : ZMod g.N → EcpPoint) (ids : Fin n → UInt16) (a : Fin n → Int)
    (j : Fin n) (pre : List Pkt) (p : Pkt) : Prop :=
  p.cmd = cmdMkaPacket → p.src ∈ nodeset ids →
    ∃ k t, k ≠ j ∧ Right pt ids a k t p ∧
      ∀ t', t = t' + 1 → ∀ l, l ≠ j → ∃ q ∈ pre, Right pt ids a l t' q

/-- What a call of the exchange begins with and ends with. -/
def Reading (pt : ZMod g.N → EcpPoint) (ids : Fin n → UInt16) (a : Fin n → Int)
    (i : Fin n) (taken : List Pkt) (m : MkaKeyExchange) : Prop :=
  ∃ us s, Holds pt ids a i taken us s m ∧ (s + 1 < n → us.length < n - 1)

/-- What node `i` writes is right. -/
def Writes (pt : ZMod g.N → EcpPoint) (ids : Fin n → UInt16) (a : Fin n → Int)
    (i : Fin n) (w : List Outgoing) : Prop :=
  ∀ o ∈ w, ∃ t, Right pt ids a i t (o.pkt (ids i))

omit hplen hE ha hnN in
theorem Holds.not_early (h : Holds pt ids a i taken us s m)
    (hus : us.length < n - 1) {k : Fin n} (hk : k ≠ i) {t : Nat}
    (hbefore : ∀ t', t = t' + 1 → ∀ l, l ≠ i → ∃ q ∈ taken, Right pt ids a l t' q) :
    t ≤ s := by
  by_contra hlt
  obtain ⟨t', rfl⟩ := Nat.exists_eq_succ_of_ne_zero (show t ≠ 0 by omega)
  have hplace : ∀ l, l ≠ i → t' = s ∧ l ∈ us := by
    intro l hl
    obtain ⟨q, hq, hright⟩ := hbefore t' rfl l hl
    rcases h.seen q hq l hl t' hright with h' | h'
    · omega
    · exact h'
  have hothers : OthersOf i us := by
    refine ⟨h.nodup, fun j => ⟨?_, fun hj => (hplace j hj).2⟩⟩
    rintro hj rfl
    exact h.not_self hj
  have := hothers.length_eq
  omega

/-- The reading loop over a queue in time. -/
theorem Reading.readLoop (hids : Function.Injective ids)
    (h : Reading pt ids a i taken m) {q : List Pkt}
    (hq : ∀ pre p post, q = pre ++ p :: post →
      InTime pt ids a i (taken ++ pre) p) :
    ((readLoop q m).ok = true → Reading pt ids a i
      (taken ++ (readLoop q m).taken q) (readLoop q m).state) ∧
    Writes pt ids a i (readLoop q m).wrote := by
  let I : List Pkt → MkaKeyExchange → List Outgoing → Prop := fun t m' w =>
    Reading pt ids a i t m' ∧ Writes pt ids a i w
  let J : List Pkt → MkaKeyExchange → List Outgoing → Prop := fun _ _ w =>
    Writes pt ids a i w
  have hloop := readLoop_rule (I := I) (J := J) (P := InTime pt ids a i)
    (q := q) (t := taken) (m := m) (w := [])
    (by
      rintro t m' w p ⟨⟨us, s, h', hus⟩, hw⟩ hskip
      refine ⟨⟨us, s, h'.skip ?_, hus⟩, hw⟩
      intro k t' hp
      obtain ⟨hcmd, hsrc, -⟩ := hp.isStep hplen
      rcases hskip with hne | hne
      · exact hne hcmd
      · rw [h'.nodes, hsrc] at hne
        exact hne (Finset.mem_image_of_mem ids (Finset.mem_univ k)))
    (by
      rintro t m' w p ⟨⟨us, s, h', hus⟩, hw⟩ htime hcmd hsrc hlt m'' w' hupd
      rw [h'.nodes, card_nodeset hids, h'.step] at hlt
      rw [h'.nodes] at hsrc
      have hs : s + 1 < n := by omega
      obtain ⟨k, t', hk, hright, hbefore⟩ := htime hcmd hsrc
      have hts := h'.not_early (hus hs) hk hbefore
      obtain ⟨us', s', hread, hus', hw'⟩ :=
        h'.read hplen hE ha hnN hids hs (hus hs) hright hk hts hupd
      refine ⟨⟨us', s', hread, hus'⟩, fun o ho => ?_⟩
      rcases List.mem_append.mp ho with ho | ho
      · exact hw o ho
      · exact hw' o ho)
    (fun t m' w p h' m'' _ _ => h'.2) hq ⟨h, fun o ho => by cases ho⟩
  rw [List.nil_append] at hloop
  split at hloop
  · exact ⟨fun _ => hloop.1, hloop.2⟩
  · next hok => exact ⟨fun h' => absurd h' hok, hloop⟩

omit hplen hnN in
/-- All steps are done: the key is that of the product. -/
theorem Reading.completed (hids : Function.Injective ids)
    (h : Reading pt ids a i taken m)
    (hstep : m.currentStep.toNat = m.nodes.card - 1) {ctx : MkaContext}
    {key : List UInt8} (hkey : mkaComputeKey m.ctx mkaBufsize = .ok (ctx, key)) :
    key = keyOf g (pt (∏ j, scalars g a j)) := by
  obtain ⟨us, s, h, -⟩ := h
  rw [h.step, h.nodes, card_nodeset hids] at hstep
  have hn := h.two
  have hne := h.ne
  have hctx := h.ctx
  rw [if_neg (by omega), hstep] at hctx
  rw [hstep] at hne
  rw [hctx, mkaComputeKey_pt hE (ha i).1 (ha i).2 hne (by omega)] at hkey
  split at hkey
  · cases hkey
  · cases hkey
    exact congrArg (fun x => keyOf g (pt x)) (mul_others i)

/-- The invariant of a node. -/
structure StateOk (pt : ZMod g.N → EcpPoint) (ids : Fin n → UInt16)
    (a : Fin n → Int) (draw : Fin n → Nat → Nat) (i : Fin n) (x : Party) :
    Prop where
  fresh : x.mka.status = .offline → x.mka = .new g (some (draw i)) ∧ x.taken = []
  running : x.mka.status = .running → Reading pt ids a i x.taken x.mka
  completed : x.mka.status = .completed →
    x.mka.key = keyOf g (pt (∏ j, scalars g a j))

section StateOk

variable {draw : Fin n → Nat → Nat} {x : Party}

omit hplen hE ha hnN

theorem StateOk.of_error (h : x.mka.status = .error) :
    StateOk pt ids a draw i x := by
  constructor <;> intro hs <;> cases h.symm.trans hs

theorem StateOk.of_running (h : x.mka.status = .running)
    (hread : Reading pt ids a i x.taken x.mka) : StateOk pt ids a draw i x := by
  refine ⟨?_, fun _ => hread, ?_⟩ <;> intro hs <;> cases h.symm.trans hs

theorem StateOk.of_completed (h : x.mka.status = .completed)
    (hkey : x.mka.key = keyOf g (pt (∏ j, scalars g a j))) :
    StateOk pt ids a draw i x := by
  refine ⟨?_, ?_, fun _ => hkey⟩ <;> intro hs <;> cases h.symm.trans hs

end StateOk

section Node

variable {draw : Fin n → Nat → Nat}
  (hdraw : ∀ i, g.drawScalar (draw i) 30 0 = .ok (a i)) {x : Party} {b : Mesh n}

include hdraw

omit ha hnN in
theorem StateOk.init (hids : Function.Injective ids)
    (h : StateOk pt ids a draw i x) :
    StateOk pt ids a draw i
      { x with mka := (x.mka.init g (nodeset ids)).1 } ∧
    Writes pt ids a i (x.mka.init g (nodeset ids)).2.1 := by
  rcases init_cases g (nodeset ids) x.mka with
    heq | ⟨herr, hw⟩ | ⟨d, ctx, ctx', bytes, hoff, hlo, hhi, hd, hset, hmake, heq⟩
  · rw [heq]
    exact ⟨h, fun o ho => by cases ho⟩
  · refine ⟨.of_error herr, ?_⟩
    rw [hw]
    exact fun o ho => by cases ho
  · obtain ⟨hnew, htaken⟩ := h.fresh hoff
    rw [hnew] at hd
    cases hd
    rw [card_nodeset hids] at hlo hhi hset heq
    have ha := scalars_range hdraw
    rw [mkaSetPart_pt hE hlo (hdraw i)] at hset
    cases hset
    have := Fact.mk hE.prime
    have hone : others g a i 0 = 1 := elem_zero (scalars g a) _
    have hne : others g a i 0 ≠ 0 := hone ▸ one_ne_zero
    have hpoint : point g a 0 i = a i := by
      rw [point, hone, mul_one]
      rfl
    rw [mkaMakeBroadval_pt hE (ha i).1 (ha i).2
      (EcpGroup.Exact.cast_ne_zero (ha i).1 (ha i).2) hlo
      (by rw [hplen]; decide), sends, if_pos rfl, ← hpoint] at hmake
    cases hmake
    rw [heq]
    refine ⟨.of_running rfl ?_, ?_⟩
    · refine ⟨[], 0, ?_, fun _ => by rw [List.length_nil]; omega⟩
      rw [htaken]
      exact {
        nodes := rfl
        aside := by rw [hnew]; rfl
        step := rfl
        two := hlo
        le := by omega
        ne := hne
        ctx := (if_pos (by omega)).symm
        length := by
          rw [hnew]
          simp [MkaKeyExchange.new]
        nodup := List.nodup_nil
        not_self := List.not_mem_nil
        users := rfl
        keys := rfl
        present := fun u hu => absurd hu List.not_mem_nil
        seen := fun p hp => absurd hp List.not_mem_nil }
    · intro o ho
      exact ⟨0, by rw [List.mem_singleton.mp ho]; rfl, hlo, hhi, hne⟩

omit hdraw in
theorem StateOk.update (hids : Function.Injective ids)
    (h : StateOk pt ids a draw i x) {q : List Pkt}
    (hq : ∀ pre p post, q = pre ++ p :: post →
      InTime pt ids a i (x.taken ++ pre) p) :
    StateOk pt ids a draw i ⟨(x.mka.update q).state, (x.mka.update q).rest,
      x.taken ++ (x.mka.update q).taken q⟩ ∧
    Writes pt ids a i (x.mka.update q).wrote := by
  by_cases hrun : x.mka.status = .running
  · obtain ⟨hread, hw⟩ := (h.running hrun).readLoop hplen hE ha hnN hids hq
    obtain ⟨hrest, hwrote, hcase⟩ := update_cases q hrun
    have htaken : (x.mka.update q).taken q = (readLoop q x.mka).taken q := by
      rw [Act.taken, Act.taken, hrest]
    rw [hwrote, htaken]
    refine ⟨?_, hw⟩
    generalize (x.mka.update q).state = m', (x.mka.update q).ok = ok at hcase ⊢
    cases hcase with
    | failed herr => exact .of_error herr
    | completed hok hstep hkey =>
        refine .of_completed rfl ?_
        rw [← (hread hok).completed hE ha hids hstep hkey]
        have htake := take_memcpy
          (Nat.zero_le (readLoop q x.mka).state.keyBuffer.length)
        simpa [key] using htake _
    | running hok hstatus => exact .of_running hstatus (hread hok)
  · rw [update_idle q hrun, Act.taken_of_rest rfl, List.append_nil]
    exact ⟨⟨h.fresh, h.running, h.completed⟩, fun o ho => by cases ho⟩

/-! ## The invariant of the mesh -/

structure Inv (pt : ZMod g.N → EcpPoint) (ids : Fin n → UInt16)
    (a : Fin n → Int) (draw : Fin n → Nat → Nat) (b : Mesh n) : Prop where
  chan : ∀ k j, ∀ p ∈ b.chan k j, k ≠ j ∧ ∃ t, Right pt ids a k t p
  given : ∀ j pre p post, b.given j = pre ++ p :: post →
    InTime pt ids a j pre p
  state : ∀ i, StateOk pt ids a draw i (b.party i)

omit hplen hE ha hnN hdraw

theorem Inv.start : Inv pt ids a draw (start g draw : Mesh n) where
  chan := fun k j p hp => by cases hp
  given := by
    intro j pre p post h
    cases pre <;> cases h
  state := by
    intro i
    refine ⟨fun _ => ⟨rfl, rfl⟩, ?_, ?_⟩ <;> intro hs <;> cases hs

/-- Writing what is right to the channels. -/
theorem chan_send {b : Mesh n}
    (h : ∀ k j, ∀ p ∈ b.chan k j, k ≠ j ∧ ∃ t, Right pt ids a k t p)
    {w : List Outgoing} (hw : Writes pt ids a i w) :
    ∀ k j, ∀ p ∈ send ids i w b k j, k ≠ j ∧ ∃ t, Right pt ids a k t p := by
  intro k j p hp
  unfold send at hp
  split at hp
  · next hkj =>
      obtain ⟨rfl, hj⟩ := hkj
      rcases List.mem_append.mp hp with hp | hp
      · exact h k j p hp
      · obtain ⟨o, ho, rfl⟩ := List.mem_map.mp hp
        exact ⟨hj.symm, hw o ho⟩
  · exact h k j p hp

/-- A change of one party that gives nobody anything. -/
theorem Inv.change (h : Inv pt ids a draw b) {x : Party}
    (hx : StateOk pt ids a draw i x)
    (hgiven : x.taken ++ x.inQ = b.given i) {w : List Outgoing}
    (hw : Writes pt ids a i w) :
    Inv pt ids a draw ⟨Function.update b.party i x, send ids i w b⟩ where
  chan := chan_send h.chan hw
  given := by
    intro j
    have hsame : Mesh.given ⟨Function.update b.party i x, send ids i w b⟩ j =
        b.given j := by
      by_cases hj : j = i
      · subst hj
        simp only [Mesh.given, Function.update_self]
        exact hgiven
      · simp only [Mesh.given, Function.update_of_ne hj]
    rw [hsame]
    exact h.given j
  state := by
    intro j
    by_cases hj : j = i
    · subst hj
      simp only [Function.update_self]
      exact hx
    · simp only [Function.update_of_ne hj]
      exact h.state j

/-- One more packet for one party. -/
theorem Inv.give (h : Inv pt ids a draw b) {j : Fin n} {p : Pkt}
    (hp : InTime pt ids a j (b.given j) p) {chan : Fin n → Fin n → List Pkt}
    (hchan : ∀ k l, ∀ q ∈ chan k l, q ∈ b.chan k l) :
    Inv pt ids a draw ⟨Function.update b.party j
      { b.party j with inQ := (b.party j).inQ ++ [p] }, chan⟩ where
  chan := fun k l q hq => h.chan k l q (hchan k l q hq)
  given := by
    intro l
    by_cases hl : l = j
    · subst hl
      simp only [Mesh.given, Function.update_self, ← List.append_assoc]
      exact Runs.forall_split_concat (h.given l) hp
    · simp only [Mesh.given, Function.update_of_ne hl]
      exact h.given l
  state := by
    intro i
    by_cases hi : i = j
    · subst hi
      simp only [Function.update_self]
      exact ⟨(h.state i).fresh, (h.state i).running, (h.state i).completed⟩
    · simp only [Function.update_of_ne hi]
      exact h.state i

include hplen in
/-- What arrives on time is in time. -/
theorem Inv.inTime (h : Inv pt ids a draw b) (hids : Function.Injective ids)
    {i j : Fin n} {p : Pkt} {rest : List Pkt} (hp : b.chan i j = p :: rest)
    (hC : OnTime ids b (.deliver i j)) : InTime pt ids a j (b.given j) p := by
  intro _ _
  obtain ⟨hij, t, hright⟩ := h.chan i j p (by rw [hp]; exact List.mem_cons_self)
  refine ⟨i, t, hij, hright, ?_⟩
  rintro t' rfl l hl
  have hlt := hright.lt
  obtain ⟨q, hq, hstep⟩ := hC p (by rw [hp]; rfl) t' (by omega)
    (hright.isStep hplen) l hl
  obtain ⟨pre, post, hsplit⟩ := List.append_of_mem hq
  have hsrc : q.src ∈ nodeset ids := by
    rw [hstep.2.1]
    exact Finset.mem_image_of_mem ids (Finset.mem_univ l)
  obtain ⟨k, t, -, hright', -⟩ := h.given j pre q post hsplit hstep.1 hsrc
  obtain ⟨rfl, rfl⟩ := hright'.unique hplen hids hstep
  exact ⟨q, hq, hright'⟩

include hplen hE ha hnN hdraw in
theorem Inv.step (h : Inv pt ids a draw b) (hids : Function.Injective ids)
    (act : Action n) (hC : OnTime ids b act) :
    Inv pt ids a draw (step g ids b act) := by
  cases act with
  | init i =>
      obtain ⟨hx, hw⟩ := (h.state i).init hplen hE hdraw hids
      exact h.change hx rfl hw
  | update i =>
      obtain ⟨hx, hw⟩ := (h.state i).update hplen hE ha hnN hids
        (q := (b.party i).inQ) (by
          intro pre p post heq
          refine h.given i _ p post ?_
          rw [Mesh.given, heq, List.append_assoc])
      refine h.change hx ?_ hw
      have hsuffix : ((b.party i).mka.update (b.party i).inQ).rest <:+
          (b.party i).inQ := (mkaKeyExchange_lawful g).reads _ _
      rw [List.append_assoc, Act.taken_append hsuffix, Mesh.given]
  | deliver i j =>
      rw [Agreement.step]
      split
      · exact h
      · next p rest hp =>
          refine h.give (h.inTime hplen hids hp hC) ?_
          intro k l q hq
          split at hq
          · next hkl =>
              rw [hkl.1, hkl.2, hp]
              exact List.mem_cons_of_mem p hq
          · exact hq
  | other j p =>
      rw [Agreement.step]
      split
      · exact h
      · next hforeign =>
          exact h.give (fun hcmd hsrc => absurd ⟨hcmd, hsrc⟩ hforeign)
            fun k l q hq => hq

end Node

end Group

end Packet

/-- Over channels that lose nothing and keep the order, in every run in which
no packet of a step is delivered before those of the step before, every node that
has completed holds the key of the product of all scalars. The curve is one with
coordinates of 32 bytes. -/
theorem keys_agree (hE : g.Exact pt) (hplen : g.plen = 32) (hnN : n < g.N)
    (hids : Function.Injective ids) {draw : Fin n → Nat → Nat}
    (hdraw : ∀ i, g.drawScalar (draw i) 30 0 = .ok (a i)) {acts : List (Action n)}
    (hacts : Runs.Meets (step g ids) (OnTime ids) (start g draw) acts) (i : Fin n)
    (hi : ((Runs.run (step g ids) (start g draw) acts).party i).mka.status =
      .completed) :
    ((Runs.run (step g ids) (start g draw) acts).party i).mka.key =
      keyOf g (pt (∏ j, scalars g a j)) := by
  have ha := scalars_range hdraw
  have hinv : Inv pt ids a draw (Runs.run (step g ids) (start g draw) acts) :=
    Runs.Meets.inv (fun b act h hC => h.step hplen hE ha hnN hdraw hids act hC)
      Inv.start hacts
  exact (hinv.state i).completed hi

end Exact

/-! ## Three nodes -/

def threeIds (i : Fin 3) : UInt16 := UInt16.ofNat (i.val + 1)

/-- The scalars 4, 2 and 1. -/
def fourTwoOne (i : Fin 3) : Nat := [4, 2, 1].getD i 0

/-- The end of a run of three nodes with these scalars. -/
def threeEnd (acts : List (Action 3)) : Mesh 3 :=
  Runs.run (step sevenPoints threeIds) (start sevenPoints fun i _ => fourTwoOne i)
    acts

/-- Node `y` is always a step ahead. Where `first` is set, node `x` is given the
packet of `y` for the next step before that of `z` for this one; else it gets the
two the other way round. -/
def aheadRun {n : Nat} (x y z : Fin n) (first : Bool) : List (Action n) :=
  [.init x, .init y, .init z, .deliver x y, .deliver z y, .update y] ++
  (if first then [.deliver y x, .deliver y x, .deliver z x]
    else [.deliver y x, .deliver z x, .deliver y x]) ++
  [.update x, .deliver x z, .deliver y z, .update z, .deliver x z,
    .deliver y z, .update z, .deliver x y, .deliver z y, .update y,
    .deliver z x, .update x]

theorem keys_agree_three :
    ((threeEnd (aheadRun 0 1 2 false)).party 0).mka.key = keyOf sevenPoints (sevenPt
      (∏ j, scalars sevenPoints (fun i => (fourTwoOne i : Int)) j)) := by
  have hdraw : ∀ i : Fin 3, sevenPoints.drawScalar (fun _ => fourTwoOne i) 30 0 =
      .ok (fourTwoOne i) := by
    decide
  have hacts : Runs.Meets (step sevenPoints threeIds) (OnTime threeIds)
      (start sevenPoints fun i _ => fourTwoOne i) (aheadRun 0 1 2 false) := by
    decide +kernel
  exact keys_agree sevenPoints_exact (by decide) (by decide) (by decide) hdraw
    hacts 0 (by decide +kernel)

/-- The point that came early is replaced by another one, and the three nodes
complete with different keys. -/
theorem early_key_wrong :
    (∀ i : Fin 3, sevenPoints.drawScalar (fun _ => fourTwoOne i) 30 0 =
      .ok (fourTwoOne i)) ∧
    (∀ i, ((threeEnd (aheadRun 0 1 2 true)).party i).mka.status = .completed) ∧
    ((threeEnd (aheadRun 0 1 2 true)).party 0).mka.key ≠
      ((threeEnd (aheadRun 0 1 2 true)).party 1).mka.key ∧
    ((threeEnd (aheadRun 0 1 2 true)).party 0).mka.key ≠ keyOf sevenPoints (sevenPt
      (∏ j, scalars sevenPoints (fun i => (fourTwoOne i : Int)) j)) := by
  refine ⟨by decide, ?_, ?_, ?_⟩
  · decide +kernel
  · decide +kernel
  · decide +kernel

end Agreement

end LibSmoke
