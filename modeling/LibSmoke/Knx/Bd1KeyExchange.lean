import LibSmoke.Knx.Neighbours
import LibSmoke.Sban.Bd1

/-!
# The cyclic exchange over packets

`BD1KeyExchange` carries `bd1.c` over the packet layer. The points of the two
neighbours go to the two halves of `_Zi`, from whoever is found to be next to
the own id; the differences of all others go to a priority queue, from whoever
sends them, and the own one joins them when it is made. When the queue has as
many entries as there are nodes it is turned so that it begins behind the own
entry, and added up.

The queue takes the smallest id first. Entries of one id come out in no order
the source fixes; here the youngest comes first.
-/

namespace LibSmoke

/-- `BD1_BUFSIZE`. -/
def bd1Bufsize : Nat := 66

/-- `CMD_BD1_Zi`. -/
def cmdBd1Zi : UInt8 := 0x20

/-- `CMD_BD1_Xi`. -/
def cmdBd1Xi : UInt8 := 0x21

/-- A packet with a buffer of 66 bytes. -/
def bufferPacket (dest : UInt16) (cmd : UInt8) (bytes : List UInt8) : Outgoing :=
  ⟨dest, cmd, padded bd1Bufsize bytes, by rw [padded_length, bd1Bufsize]; decide⟩

structure Bd1KeyExchange where
  status : KeyStatus
  nodes : Finset UInt16
  drbg : Option (Nat → Nat)
  keyBuffer : List UInt8
  keylen : Nat
  xKeys : List (UInt16 × List UInt8)
  ctx : Bd1Context
  prev : UInt16
  next : UInt16
  zi : List UInt8
  recvZcnt : UInt8

namespace Bd1KeyExchange

variable (g : EcpGroup) (id : UInt16)

/-- The constructor; what it does not write is zero here. -/
def new (drbg : Option (Nat → Nat)) : Bd1KeyExchange :=
  ⟨.offline, ∅, drbg, List.replicate bd1Bufsize 0, 0, [], bd1Init g, 0, 0,
    List.replicate (bd1Bufsize * 2) 0, 0⟩

def key (m : Bd1KeyExchange) : List UInt8 := m.keyBuffer.take m.keylen

/-- `_X_keys.push`. The source compares ids alone, and fixes no order for entries of one
id; here the youngest of them comes out first. -/
def push (k : UInt16 × List UInt8) (q : List (UInt16 × List UInt8)) :
    List (UInt16 × List UInt8) :=
  q.orderedInsert (fun a b => a.1 ≤ b.1) k

/-- `_get_prev_next_nodes`. -/
def getPrevNextNodes (m : Bd1KeyExchange) : Bd1KeyExchange :=
  let net := NetworkT.of id m.nodes
  { m with prev := net.prev, next := net.next }

def init (nodes : Finset UInt16) (m : Bd1KeyExchange) :
    Bd1KeyExchange × List Outgoing × Bool :=
  if m.status ≠ .offline then (m, [], false)
  else if nodes.card > 255 ∨ nodes.card < 2 then (m, [], false)
  else
    let m := { m with status := .running, nodes := nodes }
    match m.drbg with
    | none => ({ m with status := .error }, [], false)
    | some draw =>
        let m := { getPrevNextNodes id { m with ctx := bd1Init g } with recvZcnt := 0 }
        match bd1GenPoint m.ctx bd1Bufsize draw with
        | .error _ => ({ m with status := .error }, [], false)
        | .ok (ctx, mykey) =>
            ({ m with ctx := ctx }, [bufferPacket broadcastAddr cmdBd1Zi mykey], true)

def shutdown (m : Bd1KeyExchange) : Bd1KeyExchange := { m with status := .offline }

/-- The body of the reading loop, for one packet. -/
def place (p : Pkt) (m : Bd1KeyExchange) : Bd1KeyExchange :=
  if p.data.length ≠ bd1Bufsize then m
  else if p.cmd = cmdBd1Zi then
    let m := if p.src = m.prev then
        { m with zi := memcpy m.zi 0 p.data, recvZcnt := m.recvZcnt ||| 1 }
      else m
    if p.src = m.next then
      { m with zi := memcpy m.zi bd1Bufsize p.data, recvZcnt := m.recvZcnt ||| 2 }
    else m
  else if p.cmd = cmdBd1Xi then { m with xKeys := push (p.src, p.data) m.xKeys }
  else m

/-- The reading loop of `update`. -/
def readLoop : List Pkt → Bd1KeyExchange → Bd1KeyExchange × List Pkt
  | [], m => (m, [])
  | p :: q, m =>
      if m.xKeys.length < m.nodes.card then readLoop q (place p m) else (m, p :: q)

/-- The own difference, once both neighbours' points are there. -/
def ownValue (m : Bd1KeyExchange) : Bd1KeyExchange × List Outgoing × Bool :=
  if m.recvZcnt = 3 then
    match bd1GenValue m.ctx m.zi (2 * bd1Bufsize) bd1Bufsize with
    | .error _ => ({ m with status := .error }, [], false)
    | .ok (ctx, mykey) =>
        ({ m with
            ctx := ctx
            xKeys := push (id, padded bd1Bufsize mykey) m.xKeys
            recvZcnt := 4 },
          [bufferPacket broadcastAddr cmdBd1Xi mykey], true)
  else (m, [], true)

/-- The queue as it is added up: the entries behind the own id, then those
before it. -/
def tempbuf (keys : List (UInt16 × List UInt8)) : List UInt8 :=
  (keys.filter (id < ·.1) ++ keys.filter (·.1 < id)).flatMap Prod.snd

/-- The key, once all differences are there. -/
def finish (m : Bd1KeyExchange) : Bd1KeyExchange × Bool :=
  if m.xKeys.length = m.nodes.card then
    let size := bd1Bufsize * m.nodes.card
    match bd1ComputeKey m.ctx (padded size (tempbuf id m.xKeys)) (size - 1)
        m.nodes.card bd1Bufsize with
    | .error _ => ({ m with xKeys := [], status := .error }, false)
    | .ok key =>
        ({ m with
            xKeys := []
            keyBuffer := memcpy m.keyBuffer 0 key
            keylen := key.length
            status := .completed }, true)
  else (m, true)

def update (q : List Pkt) (m : Bd1KeyExchange) : Act Bd1KeyExchange :=
  if m.status ≠ .running then ⟨m, q, [], false⟩
  else
    let (m, rest) := readLoop q m
    let (m, wrote, ok) := ownValue id m
    if ok then
      let (m, ok) := finish id m
      ⟨m, rest, wrote, ok⟩
    else ⟨m, rest, wrote, false⟩

/-! ## The queue -/

theorem push_perm (k : UInt16 × List UInt8) (q : List (UInt16 × List UInt8)) :
    (push k q).Perm (k :: q) :=
  List.perm_orderedInsert _ k q

instance : Std.Total fun a b : UInt16 × List UInt8 => a.1 ≤ b.1 :=
  ⟨fun a b => UInt16.le_total a.1 b.1⟩

instance : IsTrans (UInt16 × List UInt8) fun a b => a.1 ≤ b.1 :=
  ⟨fun _ _ _ => UInt16.le_trans⟩

theorem push_sorted (k : UInt16 × List UInt8) {q : List (UInt16 × List UInt8)}
    (h : q.Pairwise fun a b => a.1 ≤ b.1) :
    (push k q).Pairwise fun a b => a.1 ≤ b.1 :=
  h.orderedInsert k q

/-! ## The two halves of `_Zi` -/

/-- A point in the first half. -/
theorem memcpy_first (zi : List UInt8) {data : List UInt8} (hdata : data.length = bd1Bufsize) :
    (memcpy zi 0 data).take bd1Bufsize = data ∧
    (memcpy zi 0 data).drop bd1Bufsize = zi.drop bd1Bufsize := by
  rw [memcpy, List.take_zero, List.nil_append, Nat.zero_add, ← hdata]
  exact ⟨List.take_left, List.drop_left⟩

/-- A point in the second half. -/
theorem memcpy_second {zi data : List UInt8} (hlen : zi.length = bd1Bufsize * 2)
    (hdata : data.length = bd1Bufsize) :
    (memcpy zi bd1Bufsize data).take bd1Bufsize = zi.take bd1Bufsize ∧
    (memcpy zi bd1Bufsize data).drop bd1Bufsize = data := by
  have htake : (zi.take bd1Bufsize).length = bd1Bufsize := by
    rw [List.length_take, hlen]
    decide
  have hdrop : zi.drop (bd1Bufsize + data.length) = [] :=
    List.drop_eq_nil_of_le (by rw [hlen, hdata]; decide)
  rw [memcpy, hdrop, List.append_nil]
  exact ⟨List.take_left' htake, List.drop_left' htake⟩

theorem length_half {zi data : List UInt8} {off : Nat} (hlen : zi.length = bd1Bufsize * 2)
    (hdata : data.length = bd1Bufsize) (hoff : off ≤ bd1Bufsize) :
    (memcpy zi off data).length = bd1Bufsize * 2 := by
  rw [memcpy_length (by omega), hlen]

/-! ## One call -/

section Fields

variable {p : Pkt} {m : Bd1KeyExchange}

@[simp] theorem place_fields :
    (place p m).status = m.status ∧ (place p m).nodes = m.nodes ∧
    (place p m).ctx = m.ctx ∧ (place p m).prev = m.prev ∧
    (place p m).next = m.next ∧ (place p m).drbg = m.drbg := by
  unfold place
  split
  · exact ⟨rfl, rfl, rfl, rfl, rfl, rfl⟩
  · split
    · simp only []
      split <;> split <;> exact ⟨rfl, rfl, rfl, rfl, rfl, rfl⟩
    · split <;> exact ⟨rfl, rfl, rfl, rfl, rfl, rfl⟩

/-- A point of a neighbour is counted, and nothing is queued. -/
theorem place_point (hdata : p.data.length = bd1Bufsize) (hcmd : p.cmd = cmdBd1Zi) :
    (place p m).xKeys = m.xKeys ∧
    (place p m).recvZcnt =
      (m.recvZcnt ||| if p.src = m.prev then 1 else 0) |||
        if p.src = m.next then 2 else 0 := by
  rw [place, if_neg (not_not.mpr hdata), if_pos hcmd]
  by_cases hprev : p.src = m.prev
  · rw [if_pos hprev, if_pos hprev]
    by_cases hnext : p.src = m.next
    · rw [if_pos hnext, if_pos hnext]
      exact ⟨rfl, rfl⟩
    · rw [if_neg hnext, if_neg hnext, UInt8.or_zero]
      exact ⟨rfl, rfl⟩
  · rw [if_neg hprev, if_neg hprev, UInt8.or_zero]
    by_cases hnext : p.src = m.next
    · rw [if_pos hnext, if_pos hnext]
      exact ⟨rfl, rfl⟩
    · rw [if_neg hnext, if_neg hnext, UInt8.or_zero]
      exact ⟨rfl, rfl⟩

theorem readLoop_suffix (q : List Pkt) (m : Bd1KeyExchange) :
    (readLoop q m).2 <:+ q := by
  induction q generalizing m with
  | nil => exact List.suffix_refl _
  | cons p q ih =>
      rw [readLoop]
      split
      · exact (ih _).trans (List.suffix_cons p q)
      · exact List.suffix_refl _

/-- A property of the packets taken so far and the state, kept by each packet,
holds after the loop. -/
theorem readLoop_rule {I : List Pkt → Bd1KeyExchange → Prop} {C : Pkt → Prop}
    (hplace : ∀ t m p, I t m → C p → m.xKeys.length < m.nodes.card →
      I (t ++ [p]) (place p m))
    {q : List Pkt} (hq : ∀ p ∈ q, C p) {t : List Pkt} (h : I t m) :
    I (t ++ q.take (q.length - (readLoop q m).2.length)) (readLoop q m).1 := by
  induction q generalizing m t with
  | nil => simpa [readLoop] using h
  | cons p q ih =>
      rw [readLoop]
      split
      · next hlt =>
          have hlen := (readLoop_suffix q (place p m)).length_le
          rw [List.length_cons, Nat.succ_sub hlen, List.take_succ_cons,
            List.append_cons]
          exact ih (fun p' h' => hq p' (List.mem_cons_of_mem p h'))
            (hplace t m p h (hq p List.mem_cons_self) hlt)
      · rw [Nat.sub_self, List.take_zero, List.append_nil]
        exact h

theorem readLoop_fields (q : List Pkt) (m : Bd1KeyExchange) :
    (readLoop q m).1.status = m.status ∧ (readLoop q m).1.nodes = m.nodes := by
  refine readLoop_rule (I := fun _ m' => m'.status = m.status ∧ m'.nodes = m.nodes)
    (C := fun _ => True) (fun t m' p h _ _ => ?_) (fun _ _ => trivial) (t := []) ⟨rfl, rfl⟩
  obtain ⟨hstatus, hnodes, -⟩ := place_fields (p := p) (m := m')
  exact ⟨hstatus.trans h.1, hnodes.trans h.2⟩

end Fields

section Cases

/-- What becomes of the own difference. -/
inductive Own (m : Bd1KeyExchange) : Bd1KeyExchange × List Outgoing × Bool → Prop
  | none (h : m.recvZcnt ≠ 3) : Own m (m, [], true)
  | fail : Own m ({ m with status := .error }, [], false)
  | sent {ctx : Bd1Context} {mykey : List UInt8} (h : m.recvZcnt = 3)
      (hvalue : bd1GenValue m.ctx m.zi (2 * bd1Bufsize) bd1Bufsize =
        .ok (ctx, mykey)) :
      Own m ({ m with
        ctx := ctx
        xKeys := push (id, padded bd1Bufsize mykey) m.xKeys
        recvZcnt := 4 }, [bufferPacket broadcastAddr cmdBd1Xi mykey], true)

theorem ownValue_cases (m : Bd1KeyExchange) : Own id m (ownValue id m) := by
  unfold ownValue
  split
  · next h3 =>
      split
      · exact .fail
      · next ctx mykey hvalue => exact .sent h3 hvalue
  · next h3 => exact .none h3

/-- What `update` can do in a running exchange. -/
inductive Update (m : Bd1KeyExchange) (rest : List Pkt) : Act Bd1KeyExchange → Prop
  | noValue (hown : Own id m ({ m with status := .error }, [], false)) :
      Update m rest ⟨{ m with status := .error }, rest, [], false⟩
  | noKey {m' : Bd1KeyExchange} {w : List Outgoing}
      (hown : Own id m (m', w, true)) :
      Update m rest ⟨{ m' with xKeys := [], status := .error }, rest, w, false⟩
  | wait {m' : Bd1KeyExchange} {w : List Outgoing}
      (hown : Own id m (m', w, true)) (h : m'.xKeys.length ≠ m'.nodes.card) :
      Update m rest ⟨m', rest, w, true⟩
  | done {m' : Bd1KeyExchange} {w : List Outgoing} {key : List UInt8}
      (hown : Own id m (m', w, true)) (h : m'.xKeys.length = m'.nodes.card)
      (hkey : bd1ComputeKey m'.ctx (padded (bd1Bufsize * m'.nodes.card)
        (tempbuf id m'.xKeys)) (bd1Bufsize * m'.nodes.card - 1) m'.nodes.card
        bd1Bufsize = .ok key) :
      Update m rest ⟨{ m' with
        xKeys := []
        keyBuffer := memcpy m'.keyBuffer 0 key
        keylen := key.length
        status := .completed }, rest, w, true⟩

theorem Update.rest_eq {m : Bd1KeyExchange} {rest : List Pkt} {a : Act Bd1KeyExchange}
    (h : Update id m rest a) : a.rest = rest := by
  cases h <;> rfl

theorem update_cases (q : List Pkt) {m : Bd1KeyExchange} (h : m.status = .running) :
    Update id (readLoop q m).1 (readLoop q m).2 (update id q m) := by
  rw [update, if_neg (not_not.mpr h)]
  simp only []
  have hown := ownValue_cases id (readLoop q m).1
  generalize ownValue id (readLoop q m).1 = r at hown ⊢
  cases hown with
  | fail => exact .noValue .fail
  | none h3 =>
      simp only [if_true, finish]
      split
      · next hlen =>
          split
          · exact .noKey (.none h3)
          · next key hkey => exact .done (.none h3) hlen hkey
      · next hlen => exact .wait (.none h3) hlen
  | sent h3 hvalue =>
      simp only [if_true, finish]
      split
      · next hlen =>
          split
          · exact .noKey (.sent h3 hvalue)
          · next key hkey => exact .done (.sent h3 hvalue) hlen hkey
      · next hlen => exact .wait (.sent h3 hvalue) hlen

theorem update_idle (q : List Pkt) {m : Bd1KeyExchange} (h : m.status ≠ .running) :
    update id q m = ⟨m, q, [], false⟩ := by
  rw [update, if_pos h]

theorem update_rest (q : List Pkt) (m : Bd1KeyExchange) :
    (update id q m).rest <:+ q := by
  by_cases h : m.status = .running
  · rw [(update_cases id q h).rest_eq]
    exact readLoop_suffix q m
  · rw [update_idle id q h]

theorem init_cases (nodes : Finset UInt16) (m : Bd1KeyExchange) :
    init g id nodes m = (m, [], false) ∨
    (init g id nodes m).1.status = .error ∧ (init g id nodes m).2 = ([], false) ∨
    ∃ draw ctx mykey, m.status = .offline ∧ 2 ≤ nodes.card ∧ nodes.card ≤ 255 ∧
      m.drbg = some draw ∧ bd1GenPoint (bd1Init g) bd1Bufsize draw = .ok (ctx, mykey) ∧
      init g id nodes m = ({ m with
        status := .running
        nodes := nodes
        prev := (NetworkT.of id nodes).prev
        next := (NetworkT.of id nodes).next
        recvZcnt := 0
        ctx := ctx }, [bufferPacket broadcastAddr cmdBd1Zi mykey], true) := by
  unfold init
  split
  · exact .inl rfl
  · next hstatus =>
      split
      · exact .inl rfl
      · next hcard =>
          refine .inr ?_
          simp only []
          cases hdrbg : m.drbg with
          | none => exact .inl ⟨rfl, rfl⟩
          | some draw =>
              simp only [getPrevNextNodes]
              cases hgen : bd1GenPoint (bd1Init g) bd1Bufsize draw with
              | error e => exact .inl ⟨rfl, rfl⟩
              | ok res =>
                  exact .inr ⟨draw, res.1, res.2, not_not.mp hstatus, by omega,
                    by omega, rfl, hgen, rfl⟩

theorem init_fields (nodes : Finset UInt16) (m : Bd1KeyExchange) :
    (init g id nodes m).1.zi = m.zi ∧ (init g id nodes m).1.xKeys = m.xKeys := by
  unfold init
  split
  · exact ⟨rfl, rfl⟩
  · split
    · exact ⟨rfl, rfl⟩
    · simp only [getPrevNextNodes]
      split
      · exact ⟨rfl, rfl⟩
      · split
        · exact ⟨rfl, rfl⟩
        · exact ⟨rfl, rfl⟩

/-- The commands of the exchange. -/
def own (cmd : UInt8) : Bool := cmd == cmdBd1Zi || cmd == cmdBd1Xi

theorem own_init (nodes : Finset UInt16) (m : Bd1KeyExchange) :
    ∀ o ∈ (init g id nodes m).2.1, own o.cmd := by
  intro o ho
  rcases init_cases g id nodes m with
    h | ⟨-, h⟩ | ⟨_, _, _, -, -, -, -, -, h⟩
  · rw [h] at ho
    cases ho
  · rw [h] at ho
    cases ho
  · rw [h] at ho
    rw [List.mem_singleton.mp ho]
    rfl

theorem own_update (q : List Pkt) (m : Bd1KeyExchange) :
    ∀ o ∈ (update id q m).wrote, own o.cmd := by
  have hsent : ∀ {m m' w ok}, Own id m (m', w, ok) → ∀ o ∈ w, own o.cmd := by
    intro m m' w ok hown o ho
    cases hown with
    | none => cases ho
    | fail => cases ho
    | sent => rw [List.mem_singleton.mp ho]; rfl
  by_cases h : m.status = .running
  · have hcase := update_cases id q h
    generalize update id q m = a at hcase ⊢
    cases hcase with
    | noValue => exact fun o ho => absurd ho List.not_mem_nil
    | noKey hown => exact hsent hown
    | wait hown => exact hsent hown
    | done hown => exact hsent hown
  · rw [update_idle id q h]
    exact fun o ho => absurd ho List.not_mem_nil

end Cases

end Bd1KeyExchange

/-- `BD1KeyExchange` behind the interface, on the device with the given id. -/
def bd1KeyExchange (g : EcpGroup) (id : UInt16) : KeyExchange Bd1KeyExchange where
  status := Bd1KeyExchange.status
  init := Bd1KeyExchange.init g id
  shutdown := Bd1KeyExchange.shutdown
  update := Bd1KeyExchange.update id

end LibSmoke
