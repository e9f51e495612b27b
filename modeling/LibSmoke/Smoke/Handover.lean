import LibSmoke.Lib.Runs
import LibSmoke.Smoke.Init

/-!
# Clients over a lossless relay

The relay takes the telegrams of every client off the wire and passes each of
them on to every client, those of one client in their order. What it has passed
on to a client is a stream of bytes, and every call of the client receives as
much of it as it happens to get, up to 128 bytes.

A client may come online, send, and have its telegrams read by the handshake of
another one that is not that far (`early_packet_lost`). What is passed to `send`
arrives as long as no `init` reads a telegram of it (`packets_delivered`): the
telegrams of a client are in order, and who comes online has read all those of
the handshakes of all others.
-/

namespace LibSmoke

open PktWrapper Handshake

/-- `relayed j i` telegrams of client `j` were passed on to client `i`, and
`down i` is the part of what was passed on that the client has not received. -/
structure Net (n : Nat) where
  peer : Fin n → Peer
  down : Fin n → List UInt8
  relayed : Fin n → Fin n → Nat

namespace Net

/-- A call with how many bytes there are to be received in it. -/
inductive Action (n : Nat)
  | init (i : Fin n) (connected : Bool)
  | turn (i : Fin n) (k : Nat)
  | call (i : Fin n) (k : Nat) (c : ClientSmoke.Call)
  | relay (j i : Fin n)

section Run

variable (g : EcpGroup) {N : UInt8} (ids : Fin N.toNat → UInt16)

def start (ctx : Fin N.toNat → Aes.Ctx) : Net N.toNat where
  peer := fun i => .new g N (ctx i)
  down := fun _ => []
  relayed := fun _ _ => 0

/-- What client `j` has sent and the relay has not passed on to client `i`. -/
def waiting {n : Nat} (b : Net n) (j i : Fin n) : List Telegram :=
  (Telegram.ofBytes (b.peer j).backend.wire).drop (b.relayed j i)

theorem length_recv (k : Nat) (bs : List UInt8) :
    (bs.take (min k tcpRecvsize)).length ≤ tcpRecvsize := by
  rw [List.length_take]
  omega

/-- The bytes that are received. -/
def event (k : Nat) (bs : List UInt8) : TcpEvent :=
  .recv (bs.take (min k tcpRecvsize)) (length_recv k bs)

/-- A call of client `i` that receives `k` bytes, if it is one to be made now. -/
def receive {n : Nat} (i : Fin n) (k : Nat)
    (f : TcpEvent → Peer → Option Peer) (b : Net n) : Net n :=
  match f (event k (b.down i)) (b.peer i) with
  | none => b
  | some q =>
      { b with
        peer := Function.update b.peer i q
        down := Function.update b.down i
          ((b.down i).drop (min k tcpRecvsize)) }

def step (draw : Fin N.toNat → Option (Nat → Nat)) (b : Net N.toNat) :
    Action N.toNat → Net N.toNat
  | .init i connected =>
      { b with
        peer := Function.update b.peer i
          ((b.peer i).init g (draw i) N (ids i) connected) }
  | .turn i k => b.receive i k fun e p => p.turn g N (ids i) e
  | .call i k c => b.receive i k fun e p => p.call (ids i) e c
  | .relay j i =>
      match b.waiting j i with
      | [] => b
      | t :: _ =>
          { b with
            down := Function.update b.down i (b.down i ++ t.raw)
            relayed := Function.update b.relayed j
              (Function.update (b.relayed j) i (b.relayed j i + 1)) }

/-- `init` reads no telegram for client `i` of a packet that `send` was called
for, and `send` is called for no packet that is too long for a ring. -/
def Clean (i : Fin N.toNat) (b : Net N.toNat) : Action N.toNat → Prop
  | .turn k m => k = i → (b.peer i).phase.isRunning = true → ∀ j, j ≠ i →
      lane (ids i) (ids j) ((b.peer i).took ++
        (b.peer i).backend.arrivals (event m (b.down i))) <+:
          (b.peer j).wrote.flatMap (telegramsOf (ids j))
  | .call j _ c => j ≠ i → ∀ p ∈ Peer.written (b.peer j).client c,
      Outgoing.isFor (ids i) p = true → p.body.length ≤ maxBody
  | _ => True

instance Clean.decidable (i : Fin N.toNat) (b : Net N.toNat) :
    ∀ act, Decidable (Clean ids i b act)
  | .turn k m => inferInstanceAs (Decidable (k = i →
      (b.peer i).phase.isRunning = true → ∀ j, j ≠ i →
        lane (ids i) (ids j) ((b.peer i).took ++
          (b.peer i).backend.arrivals (event m (b.down i))) <+:
            (b.peer j).wrote.flatMap (telegramsOf (ids j))))
  | .call j _ c => inferInstanceAs (Decidable (j ≠ i →
      ∀ p ∈ Peer.written (b.peer j).client c,
        Outgoing.isFor (ids i) p = true → p.body.length ≤ maxBody))
  | .init _ _ | .relay _ _ => .isTrue trivial

/-- What client `i` should get of client `j`. -/
def due {n : Nat} (ids : Fin n → UInt16) (b : Net n) (j i : Fin n) : List Pkt :=
  ((b.peer j).sent.filter (Outgoing.isFor (ids i))).map (Outgoing.pkt (ids j))

/-- Client `i` has returned, of every other client, what that one sent it, in
order, as far as it has come; and it has returned nothing else. -/
def Delivered {n : Nat} (ids : Fin n → UInt16) (b : Net n) (i : Fin n) : Prop :=
  (∀ j, j ≠ i →
    (b.peer i).returned.filter (fun p => p.src = ids j) <+: b.due ids j i ∧
    (b.waiting j i = [] → b.down i = [] →
      (b.peer i).client.pktwrapper.inQ = [] →
      (b.peer i).returned.filter (fun p => p.src = ids j) = b.due ids j i)) ∧
  ∀ p ∈ (b.peer i).returned, ∃ j, j ≠ i ∧ p.src = ids j

end Run

/-! ## What flows -/

section Flow

variable {N : UInt8} {ids : Fin N.toNat → UInt16} {b : Net N.toNat}

/-- What client `i` has read or has not received yet is, of every client, what
the relay has passed on. -/
def Stream (ids : Fin N.toNat → UInt16) (b : Net N.toNat) (i : Fin N.toNat) :
    Prop :=
  ∃ pending : List Telegram,
    pending.flatMap Telegram.raw = (b.peer i).held ++ b.down i ∧
    (∀ j, Keyed.only lanes (ids j)
        ((b.peer i).took ++ (b.peer i).got ++ pending) =
      (Telegram.ofBytes (b.peer j).backend.wire).take (b.relayed j i)) ∧
    ∀ t ∈ (b.peer i).took ++ (b.peer i).got ++ pending, ∃ j, t.src = ids j

structure Flow (ids : Fin N.toNat → UInt16) (b : Net N.toNat) : Prop where
  ok : ∀ i, Peer.Ok N (ids i) (List.ofFn ids) (b.peer i)
  le : ∀ j i, b.relayed j i ≤
    (Telegram.ofBytes (b.peer j).backend.wire).length
  stream : ∀ i, Stream ids b i

theorem Flow.start (g : EcpGroup) (ctx : Fin N.toNat → Aes.Ctx) :
    Flow ids (start g ctx) where
  ok := fun i => .new g (ids i) (ctx i) (by rw [List.length_ofFn])
  le := fun j i => Nat.zero_le _
  stream := fun i => ⟨[], rfl, fun j => rfl, fun t ht => by cases ht⟩

/-- Everything on a wire is a whole telegram of its client. -/
theorem Flow.wire (h : Flow ids b) (j : Fin N.toNat) :
    (Telegram.ofBytes (b.peer j).backend.wire).flatMap Telegram.raw =
        (b.peer j).backend.wire ∧
      ∀ t ∈ Telegram.ofBytes (b.peer j).backend.wire, t.src = ids j := by
  obtain ⟨cast, left, hwire, hall, -⟩ := (h.ok j).wire
  rw [hwire, Telegram.ofBytes_flatMap]
  refine ⟨rfl, fun t ht => ?_⟩
  have hmem : t ∈ (b.peer j).packets.flatMap (telegramsOf (ids j)) := by
    rw [← hall]
    exact List.mem_append_left left ht
  obtain ⟨p, -, htp⟩ := List.mem_flatMap.mp hmem
  exact (addressed_telegramsOf (ids j) p t htp).1

/-- What a client reads comes from the clients. -/
theorem Flow.source (h : Flow ids b) {i : Fin N.toNat} {buf rest : List UInt8}
    (hdown : b.down i = buf ++ rest) :
    ∀ t ∈ Telegram.ofBytes ((b.peer i).held ++ buf), ∃ j, t.src = ids j := by
  obtain ⟨pending, hpending, -, hsrc⟩ := h.stream i
  rw [hdown, ← List.append_assoc] at hpending
  obtain ⟨us, rfl, -⟩ := Telegram.flatMap_raw_split hpending
  exact fun t ht =>
    hsrc t (List.mem_append_right _ (List.mem_append_left us ht))

theorem Flow.sender (h : Flow ids b) {i : Fin N.toNat} {t : Telegram}
    (ht : t ∈ (b.peer i).took ++ (b.peer i).got) : ∃ j, t.src = ids j := by
  obtain ⟨pending, -, -, hsrc⟩ := h.stream i
  exact hsrc t (List.mem_append_left pending ht)

/-- A client makes a call that receives `buf`. -/
theorem Flow.move (h : Flow ids b) {i : Fin N.toNat} {q : Peer}
    {buf rest : List UInt8} (hdown : b.down i = buf ++ rest)
    (hok : Peer.Ok N (ids i) (List.ofFn ids) q)
    (hmoves : Peer.Moves (b.peer i) buf q) :
    Flow ids { b with
      peer := Function.update b.peer i q
      down := Function.update b.down i rest } := by
  obtain ⟨ts, hts⟩ := hmoves.wire
  have hgrows : ∀ j, ∃ more, Telegram.ofBytes
      (Function.update b.peer i q j).backend.wire =
        Telegram.ofBytes (b.peer j).backend.wire ++ more := by
    intro j
    by_cases hj : j = i
    · subst hj
      refine ⟨ts, ?_⟩
      have hwhole := (h.wire j).1
      rw [Function.update_self, hts]
      conv_lhs => rw [← hwhole, ← List.flatMap_append]
      exact Telegram.ofBytes_flatMap _
    · exact ⟨[], by rw [Function.update_of_ne hj, List.append_nil]⟩
  have htake : ∀ j k, (Telegram.ofBytes
      (Function.update b.peer i q j).backend.wire).take (b.relayed j k) =
        (Telegram.ofBytes (b.peer j).backend.wire).take (b.relayed j k) := by
    intro j k
    obtain ⟨more, hmore⟩ := hgrows j
    rw [hmore, List.take_append_of_le_length (h.le j k)]
  refine ⟨?_, ?_, ?_⟩
  · exact (Function.forall_update_iff _ fun (j : Fin N.toNat) (p : Peer) =>
      Peer.Ok N (ids j) (List.ofFn ids) p).mpr ⟨hok, fun j _ => h.ok j⟩
  · intro j k
    obtain ⟨more, hmore⟩ := hgrows j
    rw [hmore, List.length_append]
    exact Nat.le_add_right_of_le (h.le j k)
  · intro k
    obtain ⟨pending, hpending, hlanes, hsrc⟩ := h.stream k
    by_cases hk : k = i
    · subst hk
      rw [hdown, ← List.append_assoc] at hpending
      obtain ⟨us, rfl, hus⟩ := Telegram.flatMap_raw_split hpending
      refine ⟨us, ?_, ?_, ?_⟩
      · simp only [Function.update_self]
        rw [hus, hmoves.held]
      · intro j
        rw [htake]
        simp only [Function.update_self]
        rw [hmoves.read, List.append_assoc, hlanes j]
      · simp only [Function.update_self]
        rw [hmoves.read, List.append_assoc]
        exact hsrc
    · refine ⟨pending, ?_, ?_, ?_⟩
      · simp only [Function.update_of_ne hk]
        exact hpending
      · intro j
        rw [htake]
        simp only [Function.update_of_ne hk]
        exact hlanes j
      · simp only [Function.update_of_ne hk]
        exact hsrc

/-- The relay passes a telegram on. -/
theorem Flow.relay (h : Flow ids b) (hids : Function.Injective ids)
    {j i : Fin N.toNat} {t : Telegram} {rest : List Telegram}
    (ht : b.waiting j i = t :: rest) :
    Flow ids { b with
      down := Function.update b.down i (b.down i ++ t.raw)
      relayed := Function.update b.relayed j
        (Function.update (b.relayed j) i (b.relayed j i + 1)) } := by
  have hlt : b.relayed j i <
      (Telegram.ofBytes (b.peer j).backend.wire).length := by
    by_contra hle
    rw [waiting, List.drop_eq_nil_of_le (Nat.le_of_not_lt hle)] at ht
    cases ht
  have hsrc : t.src = ids j := by
    refine (h.wire j).2 t (List.mem_of_mem_drop (i := b.relayed j i) ?_)
    have hdrop : _ = _ := ht
    rw [waiting] at hdrop
    rw [hdrop]
    exact List.mem_cons_self
  have hnext : (Telegram.ofBytes (b.peer j).backend.wire).take
      (b.relayed j i + 1) = (Telegram.ofBytes (b.peer j).backend.wire).take
        (b.relayed j i) ++ [t] := by
    rw [waiting, List.drop_eq_getElem_cons hlt] at ht
    rw [List.take_succ_eq_append_getElem hlt, (List.cons.inj ht).1]
  refine ⟨h.ok, ?_, ?_⟩
  · intro k l
    by_cases hk : k = j
    · subst hk
      by_cases hl : l = i
      · subst hl
        simp only [Function.update_self]
        exact hlt
      · simp only [Function.update_self, Function.update_of_ne hl]
        exact h.le k l
    · simp only [Function.update_of_ne hk]
      exact h.le k l
  · intro l
    obtain ⟨pending, hpending, hlanes, hall⟩ := h.stream l
    by_cases hl : l = i
    · subst hl
      refine ⟨pending ++ [t], ?_, ?_, ?_⟩
      · simp only [Function.update_self]
        rw [List.flatMap_append, hpending, List.flatMap_singleton,
          List.append_assoc]
      · intro k
        rw [← List.append_assoc, Keyed.only_append, hlanes k]
        by_cases hk : k = j
        · subst hk
          simp only [Function.update_self]
          rw [hnext, Keyed.only_cons_self hsrc]
          rfl
        · have hne : t.src ≠ ids k := fun heq =>
            hk (hids (heq.symm.trans hsrc))
          simp only [Function.update_of_ne hk]
          rw [Keyed.only_cons_other hne]
          exact List.append_nil _
      · intro u hu
        rw [← List.append_assoc] at hu
        rcases List.mem_append.mp hu with hu | hu
        · exact hall u hu
        · exact ⟨j, List.mem_singleton.mp hu ▸ hsrc⟩
    · refine ⟨pending, ?_, ?_, hall⟩
      · simp only [Function.update_of_ne hl]
        exact hpending
      · intro k
        rw [hlanes k]
        by_cases hk : k = j
        · subst hk
          simp only [Function.update_self, Function.update_of_ne hl]
        · simp only [Function.update_of_ne hk]

/-! ## What one client gets -/

/-- The packet of the last step is written, and so it is the last one. -/
def Finished (n : Nat) (wrote : List Outgoing) : Prop :=
  ∃ pre o, wrote = pre ++ [o] ∧ o.cmd = cmdMkaPacket ∧
    (MkaStep.ofData o.body).stepId.toNat = n - 2

theorem Finished.grow {n : Nat} {wrote more : List Outgoing}
    (h : Finished n wrote) (hn : 2 ≤ n) (hshape : Shape n (wrote ++ more)) :
    more = [] := by
  obtain ⟨pre, o, rfl, hcmd, hstep⟩ := h
  rw [List.append_assoc] at hshape
  exact hshape.last hcmd hstep hn

/-- What client `j` wrote in its handshake. -/
def handshake (ids : Fin N.toNat → UInt16) (b : Net N.toNat)
    (j : Fin N.toNat) : List Telegram :=
  (b.peer j).wrote.flatMap (telegramsOf (ids j))

/-- Client `i` has read nothing but handshakes in its own, and all of them when
it is online. -/
structure Kept (ids : Fin N.toNat → UInt16) (i : Fin N.toNat)
    (b : Net N.toNat) : Prop where
  clean : ∀ j, j ≠ i →
    lane (ids i) (ids j) (b.peer i).took <+: handshake ids b j
  fits : ∀ j, j ≠ i → ∀ p ∈ (b.peer j).sent,
    Outgoing.isFor (ids i) p = true → p.body.length ≤ maxBody
  finished : (b.peer i).phase = .online → ∀ j, j ≠ i →
    lane (ids i) (ids j) (b.peer i).took = handshake ids b j ∧
    Finished N.toNat (b.peer j).wrote

theorem two_le {i j : Fin N.toNat} (h : j ≠ i) : 2 ≤ N.toNat := by
  have hne : j.val ≠ i.val := fun heq => h (Fin.ext heq)
  have hi := i.isLt
  have hj := j.isLt
  omega

/-- Client `i` comes online: it has read the packet of the last step from every
other client, and that packet is the last one of that client's handshake. -/
theorem Flow.comes_online (h : Flow ids b) (hids : Function.Injective ids)
    {i : Fin N.toNat} (honline : (b.peer i).phase = .online)
    (hclean : ∀ j, j ≠ i →
      lane (ids i) (ids j) (b.peer i).took <+: handshake ids b j) :
    ∀ j, j ≠ i →
      lane (ids i) (ids j) (b.peer i).took = handshake ids b j ∧
      Finished N.toNat (b.peer j).wrote := by
  obtain ⟨seen, ⟨us, hcard, hheard⟩, hseen⟩ := (h.ok i).online honline
  -- whoever was heard is one of the others, and as many were heard
  have hothers : us ⊆ (Finset.univ.erase i).image ids := by
    intro u hu
    obtain ⟨p, hp, -, hsrc, -⟩ := hheard u hu
    have hout : p ∈ (Keyed.laneRun lanes []
        (lane (ids i) u (b.peer i).took)).2 :=
      (hseen u).subset (List.mem_filter.mpr ⟨hp, decide_eq_true hsrc⟩)
    obtain ⟨hne, t, ht, htu⟩ := exists_of_laneRun hout
    obtain ⟨j, hj⟩ := h.sender (List.mem_append_left _ ht)
    have hju : ids j = u := hj.symm.trans htu
    refine Finset.mem_image.mpr
      ⟨j, Finset.mem_erase.mpr ⟨?_, Finset.mem_univ j⟩, hju⟩
    rintro rfl
    exact hne hju.symm
  have hall : us = (Finset.univ.erase i).image ids := by
    refine Finset.eq_of_subset_of_card_le hothers ?_
    rw [Finset.card_image_of_injective _ hids,
      Finset.card_erase_of_mem (Finset.mem_univ i), Finset.card_univ,
      Fintype.card_fin, hcard]
  intro j hj
  have hin : ids j ∈ us := by
    rw [hall]
    exact Finset.mem_image_of_mem ids
      (Finset.mem_erase.mpr ⟨hj, Finset.mem_univ j⟩)
  obtain ⟨p, hp, hcmd, hsrc, hstep⟩ := hheard (ids j) hin
  have hout := (hseen (ids j)).subset
    (List.mem_filter.mpr ⟨hp, decide_eq_true hsrc⟩)
  obtain ⟨rest, hrest⟩ := hclean j hj
  obtain ⟨done, left, hwrote, hdone, hleft⟩ :=
    laneRun_part (h.ok j).shape.fits hrest.symm
  rw [hdone] at hout
  obtain ⟨o, ho, rfl⟩ := List.mem_map.mp hout
  obtain ⟨pre, post, rfl⟩ := List.append_of_mem ho
  have hshape := (h.ok j).shape
  rw [hwrote, List.append_assoc, List.cons_append] at hshape
  obtain ⟨rfl, rfl⟩ :=
    List.append_eq_nil_iff.mp (hshape.last hcmd hstep (two_le hj))
  rw [hleft rfl, List.append_nil] at hrest
  rw [List.append_nil] at hwrote
  exact ⟨hrest, pre, o, hwrote, hcmd, hstep⟩

variable {i : Fin N.toNat}

theorem Kept.start (g : EcpGroup) (ctx : Fin N.toNat → Aes.Ctx)
    (i : Fin N.toNat) : Kept ids i (Net.start g ctx) where
  clean := fun j _ => List.nil_prefix
  fits := fun j _ p hp => by cases hp
  finished := fun h => by cases h

/-- Another client writes packets of its handshake or passes packets to `send`. -/
theorem Kept.other (h : Kept ids i b) {k : Fin N.toNat} (hk : k ≠ i) {q : Peer}
    (hwrote : (b.peer k).wrote <+: q.wrote) (hshape : Shape N.toNat q.wrote)
    (hfits : ∀ p ∈ q.sent, Outgoing.isFor (ids i) p = true →
      p.body.length ≤ maxBody) (down : Fin N.toNat → List UInt8) :
    Kept ids i { b with peer := Function.update b.peer k q, down := down } where
  clean := by
    intro j hj
    simp only [handshake, Function.update_of_ne hk.symm]
    by_cases hjk : j = k
    · subst hjk
      obtain ⟨more, hmore⟩ := hwrote
      rw [Function.update_self, ← hmore, List.flatMap_append]
      exact (h.clean j hj).trans (List.prefix_append _ _)
    · rw [Function.update_of_ne hjk]
      exact h.clean j hj
  fits := by
    intro j hj
    by_cases hjk : j = k
    · subst hjk
      simp only [Function.update_self]
      exact hfits
    · simp only [Function.update_of_ne hjk]
      exact h.fits j hj
  finished := by
    intro honline j hj
    simp only [Function.update_of_ne hk.symm] at honline
    obtain ⟨hall, hfin⟩ := h.finished honline j hj
    simp only [handshake, Function.update_of_ne hk.symm]
    by_cases hjk : j = k
    · subst hjk
      obtain ⟨more, hmore⟩ := hwrote
      rw [← hmore] at hshape
      obtain rfl := hfin.grow (two_le hj) hshape
      rw [Function.update_self, ← hmore, List.append_nil]
      exact ⟨hall, hfin⟩
    · rw [Function.update_of_ne hjk]
      exact ⟨hall, hfin⟩

/-- Client `i` itself makes a call. -/
theorem Kept.self (h : Kept ids i b) {q : Peer}
    (hclean : ∀ j, j ≠ i →
      lane (ids i) (ids j) q.took <+: handshake ids b j)
    (hover : q.phase = .online → ∀ j, j ≠ i →
      lane (ids i) (ids j) q.took = handshake ids b j ∧
      Finished N.toNat (b.peer j).wrote) (down : Fin N.toNat → List UInt8) :
    Kept ids i { b with peer := Function.update b.peer i q, down := down } where
  clean := by
    intro j hj
    simp only [handshake, Function.update_self, Function.update_of_ne hj]
    exact hclean j hj
  fits := by
    intro j hj
    simp only [Function.update_of_ne hj]
    exact h.fits j hj
  finished := by
    intro honline j hj
    simp only [Function.update_self] at honline
    simp only [handshake, Function.update_self, Function.update_of_ne hj]
    exact hover honline j hj

/-! ## Steps -/

/-- What holds in a run for client `i`. -/
def Inv (ids : Fin N.toNat → UInt16) (i : Fin N.toNat) (b : Net N.toNat) :
    Prop := Flow ids b ∧ Kept ids i b

theorem drop_recv (k : Nat) (bs : List UInt8) :
    bs = bs.take (min k tcpRecvsize) ++ bs.drop (min k tcpRecvsize) :=
  (List.take_append_drop _ _).symm

theorem Flow.accepted (h : Flow ids b) {i : Fin N.toNat} {buf rest : List UInt8}
    (hdown : b.down i = buf ++ rest) :
    ∀ t ∈ Telegram.ofBytes ((b.peer i).held ++ buf),
      accepts (ids i) t = true → t.src ∈ List.ofFn ids := by
  intro t ht _
  obtain ⟨j, hj⟩ := h.source hdown t ht
  exact (List.mem_ofFn' ids t.src).mpr ⟨j, hj.symm⟩

variable {g : EcpGroup} {draw : Fin N.toNat → Option (Nat → Nat)}

theorem Inv.init (h : Inv ids i b) (k : Fin N.toNat) (connected : Bool) :
    Inv ids i (step g ids draw b (.init k connected)) := by
  obtain ⟨hflow, hkept⟩ := h
  obtain ⟨hok, hmoves⟩ := (hflow.ok k).init (by rw [List.length_ofFn]) g (draw k)
    connected
  have hmove := hflow.move (List.nil_append (b.down k)).symm hok hmoves
  rw [Function.update_eq_self] at hmove
  refine ⟨hmove, ?_⟩
  obtain ⟨hwrote, htook, hsent, hphase⟩ :=
    Peer.init_same (hflow.ok k) g (draw k) connected
  rw [step]
  generalize (b.peer k).init g (draw k) N (ids k) connected = q at *
  by_cases hk : k = i
  · subst hk
    refine hkept.self ?_ ?_ b.down
    · rw [htook]
      exact hkept.clean
    · rw [htook]
      exact fun honline => hkept.finished (hphase honline)
  · refine hkept.other hk ?_ hok.shape ?_ b.down
    · rw [hwrote]
    · rw [hsent]
      exact hkept.fits k hk

theorem Inv.turn (h : Inv ids i b) (hids : Function.Injective ids)
    (k : Fin N.toNat) (m : Nat) (hC : Clean ids i b (.turn k m)) :
    Inv ids i (step g ids draw b (.turn k m)) := by
  obtain ⟨hflow, hkept⟩ := h
  have hdown := drop_recv m (b.down k)
  rw [step, receive]
  split
  · exact ⟨hflow, hkept⟩
  · next q hq =>
      obtain ⟨hok, hmoves⟩ := (hflow.ok k).turn (hflow.accepted hdown) hq
      obtain ⟨s, hs, hturned, -⟩ := Peer.turn_cases (hflow.ok k) hq
      have hmove := hflow.move hdown hok hmoves
      refine ⟨hmove, ?_⟩
      by_cases hk : k = i
      · subst hk
        have hclean : ∀ j, j ≠ k →
            lane (ids k) (ids j) q.took <+: handshake ids b j := by
          intro j hj
          have hread := hC rfl (by rw [hs]; rfl) j hj
          obtain ⟨-, -, harr, -⟩ := ((hflow.ok k).held (by rw [hs]; simp)).update
            (length_recv m (b.down k)) (ids k) s.pktwrapper
          rw [hturned.took]
          rw [event, harr] at hread
          exact hread
        refine hkept.self hclean ?_ _
        intro honline j hj
        have hcomes := hmove.comes_online hids (i := k)
          (by simp only [Function.update_self]; exact honline)
        simp only [handshake, Function.update_self] at hcomes
        have hother := hcomes (by
          intro j hj
          simp only [Function.update_of_ne hj]
          exact hclean j hj) j hj
        simp only [Function.update_of_ne hj] at hother
        exact hother
      · refine hkept.other hk ?_ hok.shape ?_ _
        · rw [hturned.wrote]
          exact List.prefix_append _ _
        · rw [hturned.sent]
          exact hkept.fits k hk

theorem Inv.call (h : Inv ids i b) (k : Fin N.toNat) (m : Nat)
    (c : ClientSmoke.Call) (hC : Clean ids i b (.call k m c)) :
    Inv ids i (step g ids draw b (.call k m c)) := by
  obtain ⟨hflow, hkept⟩ := h
  have hdown := drop_recv m (b.down k)
  rw [step, receive]
  split
  · exact ⟨hflow, hkept⟩
  · next q hq =>
      obtain ⟨hok, hmoves⟩ := (hflow.ok k).call (hflow.accepted hdown) hq
      obtain ⟨honline, ⟨taken, rest, hcalled⟩, -⟩ :=
        Peer.call_cases (hflow.ok k) hq
      refine ⟨hflow.move hdown hok hmoves, ?_⟩
      by_cases hk : k = i
      · subst hk
        refine hkept.self ?_ ?_ _
        · rw [hcalled.took]
          exact hkept.clean
        · rw [hcalled.took]
          exact fun _ => hkept.finished honline
      · refine hkept.other hk ?_ hok.shape ?_ _
        · rw [hcalled.wrote]
        · rw [hcalled.sent]
          intro p hp
          rcases List.mem_append.mp hp with hp | hp
          · exact hkept.fits k hk p hp
          · exact hC hk p hp

theorem Inv.step (h : Inv ids i b) (hids : Function.Injective ids)
    (act : Action N.toNat) (hC : Clean ids i b act) :
    Inv ids i (step g ids draw b act) := by
  cases act with
  | init k connected => exact h.init k connected
  | turn k m => exact h.turn hids k m hC
  | call k m c => exact h.call k m c hC
  | relay j k =>
      rw [Net.step]
      split
      · exact h
      · next ht => exact ⟨h.1.relay hids ht, ⟨h.2.clean, h.2.fits, h.2.finished⟩⟩

/-! ## What is returned -/

/-- The telegrams for client `i` of what client `j` passed to `send`: read, about
to be read, or still with the relay or the client. -/
theorem Inv.conserved (h : Inv ids i b) (hids : Function.Injective ids)
    (honline : (b.peer i).phase = .online)
    {j : Fin N.toNat} (hj : j ≠ i) : ∃ pending left,
      pending.flatMap Telegram.raw = (b.peer i).held ++ b.down i ∧
      ((b.peer j).phase = .online → left = []) ∧
      ((b.peer j).sent.filter (Outgoing.isFor (ids i))).flatMap
          (telegramsOf (ids j)) =
        lane (ids i) (ids j) (b.peer i).got ++
          (lane (ids i) (ids j) pending ++
            (b.waiting j i ++ left).filter (accepts (ids i))) := by
  obtain ⟨hflow, hkept⟩ := h
  have hne : ids j ≠ ids i := fun heq => hj (hids heq)
  obtain ⟨pending, hpending, hlanes, -⟩ := hflow.stream i
  obtain ⟨cast, left, hwire, hall, hleft, -⟩ := (hflow.ok j).wire
  obtain ⟨htook, -⟩ := hkept.finished honline j hj
  refine ⟨pending, left, hpending, hleft, ?_⟩
  -- what client `i` has read of the handshake is all of it
  have hshake : (handshake ids b j).filter (accepts (ids i)) =
      handshake ids b j := by
    rw [← htook, lane_only, List.filter_filter]
    simp only [Bool.and_self]
  have hread := congrArg (List.filter (accepts (ids i))) (hlanes j)
  rw [← lane_only, lane_append, lane_append, htook] at hread
  have hsent := congrArg (List.filter (accepts (ids i))) hall
  have hcast : cast = (Telegram.ofBytes (b.peer j).backend.wire).take
      (b.relayed j i) ++ b.waiting j i := by
    rw [waiting, List.take_append_drop, hwire, Telegram.ofBytes_flatMap]
  rw [hcast, Peer.packets, List.flatMap_append, List.filter_append,
    List.filter_append, List.filter_append, ← hread,
    accepts_flatMap hne (b.peer j).sent] at hsent
  rw [handshake] at hshake
  rw [hshake, handshake, List.append_assoc, List.append_assoc, List.append_assoc,
    List.append_cancel_left_eq, ← List.filter_append] at hsent
  exact hsent.symm

theorem Inv.delivered (h : Inv ids i b) (hids : Function.Injective ids)
    (honline : (b.peer i).phase = .online) : b.Delivered ids i := by
  obtain ⟨hflow, hkept⟩ := h
  refine ⟨?_, ?_⟩
  · intro j hj
    obtain ⟨pending, left, hpending, hleft, hconserved⟩ :=
      Inv.conserved ⟨hflow, hkept⟩ hids honline hj
    have hfit : ∀ p ∈ (b.peer j).sent.filter (Outgoing.isFor (ids i)),
        p.body.length + 3 ≤ ringCapacity := by
      intro p hp
      obtain ⟨hp, hfor⟩ := List.mem_filter.mp hp
      have hlen := hkept.fits j hj p hp hfor
      rw [maxBody, ringCapacity] at hlen
      rw [ringCapacity]
      omega
    have hpackets := (hflow.ok i).data.packets (ids j)
    rw [List.filter_append] at hpackets
    obtain ⟨done, rest, hdone, hout, -⟩ := laneRun_part hfit hconserved
    have hpart : (b.peer i).returned.filter (fun p => p.src = ids j) <+:
        b.due ids j i := by
      rw [due, hdone, List.map_append, ← hout, ← hpackets, List.append_assoc]
      exact List.prefix_append _ _
    refine ⟨hpart, ?_⟩
    intro hwaiting hdown hin
    by_cases hj' : (b.peer j).phase = .online
    · have hnone : pending = [] := by
        have hshort := (hflow.ok i).short
        rw [hdown, List.append_nil] at hpending
        have hraw := Telegram.map_raw_ofBytes (b.peer i).held
        rw [Framing.decode_of_not_complete hshort, ← hpending,
          Telegram.ofBytes_flatMap] at hraw
        exact List.map_eq_nil_iff.mp hraw
      rw [hnone, hwaiting, hleft hj'] at hconserved
      have hlane : lane (ids i) (ids j) (b.peer i).got =
          ((b.peer j).sent.filter (Outgoing.isFor (ids i))).flatMap
            (telegramsOf (ids j)) := by
        rw [hconserved]
        exact (List.append_nil _).symm
      rw [hlane, laneRun_packets (ids j) hfit, hin, List.filter_nil,
        List.append_nil] at hpackets
      exact hpackets
    · have hsent := ((hflow.ok j).before hj').1
      rw [due, hsent] at hpart ⊢
      exact List.prefix_nil.mp hpart
  · intro p hp
    have hin : p ∈ ((b.peer i).returned ++
        (b.peer i).client.pktwrapper.inQ).filter (fun q => q.src = p.src) :=
      List.mem_filter.mpr ⟨List.mem_append_left _ hp, decide_eq_true rfl⟩
    rw [(hflow.ok i).data.packets p.src] at hin
    obtain ⟨hne, t, ht, hsrc⟩ := exists_of_laneRun hin
    obtain ⟨j, hj⟩ := hflow.sender (List.mem_append_right _ ht)
    refine ⟨j, ?_, hsrc.symm.trans hj⟩
    rintro rfl
    exact hne (hsrc.symm.trans hj)

end Flow

/-- In every run in which client `i` reads no telegram of a packet of `send` in
its `init`, and no packet for it is too long for a ring: once its `init` has
returned `true`, it gets what the others pass to `send`, once and in order, and
nothing else. -/
theorem packets_delivered {g : EcpGroup} {N : UInt8}
    {ids : Fin N.toNat → UInt16} (hids : Function.Injective ids)
    {draw : Fin N.toNat → Option (Nat → Nat)} {ctx : Fin N.toNat → Aes.Ctx}
    {i : Fin N.toNat} {acts : List (Action N.toNat)}
    (hacts : Runs.Meets (step g ids draw) (Clean ids i) (start g ctx) acts)
    (honline : ((Runs.run (step g ids draw) (start g ctx) acts).peer i).phase =
      .online) :
    (Runs.run (step g ids draw) (start g ctx) acts).Delivered ids i := by
  have hinv : Inv ids i (Runs.run (step g ids draw) (start g ctx) acts) :=
    Runs.Meets.inv (fun b act h hC => h.step hids act hC)
      ⟨Flow.start g ctx, Kept.start g ctx i⟩ hacts
  exact hinv.delivered hids honline

/-! ## Two clients -/

section Two

variable {n : Nat}

/-- Both clients count, and write their points. -/
def exchange (x y : Fin n) : List (Action n) :=
  [.init x true, .init y true] ++ List.replicate 2 (.turn x tcpRecvsize) ++
    List.replicate 2 (.turn y tcpRecvsize) ++ [.relay x y, .relay y x] ++
    List.replicate 67 (.turn x tcpRecvsize) ++
    List.replicate 67 (.turn y tcpRecvsize) ++
    List.replicate 13 (.relay x y) ++ List.replicate 13 (.relay y x)

/-- Client `y` comes online and sends a packet with no body. Where `early` is
set, the relay passes it on while client `x` is still in its `init`. -/
def firstPacket (x y : Fin n) (early : Bool) : List (Action n) :=
  exchange x y ++ List.replicate 4 (.turn y tcpRecvsize) ++
    [.call y 0 (.send broadcastAddr 0 [] (Nat.two_pow_pos 16))] ++
    (if early then .relay y x :: List.replicate 4 (.turn x tcpRecvsize)
      else List.replicate 4 (.turn x tcpRecvsize) ++ [.relay y x]) ++
    [.call x tcpRecvsize .receive]

end Two

def twoIds (i : Fin 2) : UInt16 := UInt16.ofNat (i.val + 1)

def twoStart : Net 2 :=
  start sevenPoints (N := 2) fun _ => ClientSmoke.zeroKeyClient.ctx

def twoStep : Net 2 → Action 2 → Net 2 :=
  step sevenPoints (N := 2) twoIds fun i => some fun _ => i.val + 1

instance (i : Fin 2) (b : Net 2) (act : Action 2) :
    Decidable (Clean (N := 2) twoIds i b act) :=
  Clean.decidable (N := 2) twoIds i b act

theorem packets_delivered_late :
    (Runs.run twoStep twoStart (firstPacket 0 1 false)).Delivered twoIds 0 := by
  have hacts : Runs.Meets twoStep (Clean (N := 2) twoIds (0 : Fin 2)) twoStart
      (firstPacket (0 : Fin 2) 1 false) := by
    decide +kernel
  exact packets_delivered (N := 2) (i := (0 : Fin 2)) (by decide) hacts
    (by decide +kernel)

/-- A packet that comes while the receiver is in its `init` is never returned,
though both clients come online, and everything sent was relayed and received. -/
theorem early_packet_lost :
    let b := Runs.run twoStep twoStart (firstPacket 0 1 true)
    ((∀ i, (b.peer i).phase = .online) ∧ b.waiting 1 0 = [] ∧ b.down 0 = [] ∧
      (b.peer 0).client.pktwrapper.inQ = [] ∧
      b.due twoIds 1 0 = [⟨0, 2, 0, []⟩] ∧ (b.peer 0).returned = []) ∧
    ¬ b.Delivered twoIds 0 := by
  intro b
  have hend : (∀ i, (b.peer i).phase = .online) ∧ b.waiting 1 0 = [] ∧
      b.down 0 = [] ∧ (b.peer 0).client.pktwrapper.inQ = [] ∧
      b.due twoIds 1 0 = [⟨0, 2, 0, []⟩] ∧ (b.peer 0).returned = [] := by
    decide +kernel
  refine ⟨hend, ?_⟩
  obtain ⟨-, hwaiting, hdown, hin, hdue, hreturned⟩ := hend
  rintro ⟨hall, -⟩
  have heq := (hall 1 (by decide)).2 hwaiting hdown hin
  rw [hdue, hreturned] at heq
  cases heq

end Net

end LibSmoke
