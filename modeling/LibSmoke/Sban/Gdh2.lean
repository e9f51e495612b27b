import LibSmoke.Sban.Bd1

/-!
# The exchange along a chain

`gdh2.c`: the first party makes a point, and every further one multiplies all
points it gets and adds one to them. The points travel as a list whose order is
all that tells them apart: the product of all scalars so far, and then the
products that leave out one of them, the latest scalar first (`message`). The
point that leaves out the first scalar of one is the base point, which nobody
sends, so the second party makes it up.

The last party keeps the full product to itself and hands the others out. Each
party finds the one that leaves out its own scalar by its place in the list.

The source counts with `int`, and its callers have at most 255 parties. A call
that fails leaves the context as it was here; in the source it may be left in
between, and is given up by the objects that hold it.
-/

namespace LibSmoke

structure Gdh2Context where
  grp : EcpGroup
  priv : Int
  key : Int
  N : Nat

def gdh2Init (grp : EcpGroup) (N : Nat) (draw : Nat → Nat) :
    Except SbanError Gdh2Context := do
  let priv ← grp.drawScalar draw 30 0
  .ok ⟨grp, priv, 0, N⟩

def gdh2MakeFirstval (ctx : Gdh2Context) (obuflen : Nat) :
    Except SbanError (List UInt8) := do
  let p ← ctx.grp.ecpMul ctx.priv ctx.grp.G
  ctx.grp.ecpTlsWritePoint p obuflen

/-- The loop of `gdh2_make_val`, by how many rounds are left; `obuf` is what has
been written. -/
def gdh2Loop (ctx : Gdh2Context) (buflen obuflen : Nat) :
    Nat → Nat → List UInt8 → List UInt8 → Except SbanError (List UInt8)
  | 0, _, _, obuf => .ok obuf
  | left + 1, i, p, obuf => do
      let (read, p) ← ctx.grp.ecpTlsReadPoint p buflen
      let write ← ctx.grp.ecpMul ctx.priv read
      let bytes ← ctx.grp.ecpTlsWritePoint write (obuflen - obuf.length)
      let obuf := obuf ++ bytes
      if i = 0 then
        let old ← ctx.grp.ecpTlsWritePoint read (obuflen - obuf.length)
        gdh2Loop ctx buflen obuflen left (i + 1) p (obuf ++ old)
      else gdh2Loop ctx buflen obuflen left (i + 1) p obuf

/-- How `gdh2_make_val` begins: the context, where to read on, and the first
value of `i`. -/
def gdh2Begin (ctx : Gdh2Context) (index : Nat) (buf : List UInt8) (buflen : Nat) :
    Except SbanError (Gdh2Context × List UInt8 × Nat) :=
  if index = ctx.N then do
    let (read, p) ← ctx.grp.ecpTlsReadPoint buf buflen
    let write ← ctx.grp.ecpMul ctx.priv read
    .ok ({ ctx with key := write.X }, p, 1)
  else if index ≥ 2 ∧ index < ctx.N then .ok (ctx, buf, 0)
  else .error .badInputData

/-- How `gdh2_make_val` ends: the extra point of the second party. -/
def gdh2Extra (ctx : Gdh2Context) (index obuflen : Nat) (obuf : List UInt8) :
    Except SbanError (List UInt8) :=
  if index = 2 then do
    let write ← ctx.grp.ecpMul ctx.priv ctx.grp.G
    let bytes ← ctx.grp.ecpTlsWritePoint write (obuflen - obuf.length)
    .ok (obuf ++ bytes)
  else .ok obuf

def gdh2MakeVal (ctx : Gdh2Context) (index : Nat) (buf : List UInt8)
    (buflen obuflen : Nat) : Except SbanError (Gdh2Context × List UInt8) := do
  let (ctx, p, i) ← gdh2Begin ctx index buf buflen
  let term := if index = 2 then 1 else index
  let obuf ← gdh2Loop ctx buflen obuflen (term - i) i p []
  let obuf ← gdh2Extra ctx index obuflen obuf
  .ok (ctx, obuf)

def gdh2ExportKey (ctx : Gdh2Context) (buflen : Nat) : Except SbanError (List UInt8) :=
  if mpiSize ctx.key > buflen then .error .bufferTooShort
  else mpiWriteBinary ctx.key ctx.grp.keyLen

def gdh2ComputeKey (ctx : Gdh2Context) (index : Nat) (buf : List UInt8)
    (buflen obuflen : Nat) : Except SbanError (Gdh2Context × List UInt8) :=
  if index < 1 ∨ index ≥ ctx.N then .error .badInputData
  else do
    let plen := 2 * mpiSize ctx.grp.P + 2
    let p := buf.drop (plen * (ctx.N - index - 1))
    let (read, _) ← ctx.grp.ecpTlsReadPoint p buflen
    let tmp ← ctx.grp.ecpMul ctx.priv read
    let ctx := { ctx with key := tmp.X }
    if mpiSize ctx.key > obuflen then .error .bufferTooShort
    else do
      let obuf ← mpiWriteBinary ctx.key ctx.grp.keyLen
      .ok (ctx, obuf)

/-! ## The calls on an exact group -/

section Exact

variable {g : EcpGroup} {pt : ZMod g.N → EcpPoint} (hE : g.Exact pt) {a : Int}

theorem gdh2Init_ok {n : Nat} {draw : Nat → Nat} (hdraw : g.drawScalar draw 30 0 = .ok a) :
    gdh2Init g n draw = .ok ⟨g, a, 0, n⟩ := by
  rw [gdh2Init, hdraw]
  rfl

theorem recordsOf_cons (y : ZMod g.N) (ys : List (ZMod g.N)) :
    recordsOf g pt (y :: ys) = g.record (pt y) ++ recordsOf g pt ys := rfl

theorem recordsOf_append (xs ys : List (ZMod g.N)) :
    recordsOf g pt (xs ++ ys) = recordsOf g pt xs ++ recordsOf g pt ys :=
  List.flatMap_append

theorem recordsOf_singleton (y : ZMod g.N) : recordsOf g pt [y] = g.record (pt y) :=
  List.flatMap_singleton ..

include hE

theorem gdh2MakeFirstval_pt (h0 : 0 < a) (ha : a < g.N) {key : Int} {n obuflen : Nat}
    (hlen : 2 * g.plen + 2 ≤ obuflen) :
    gdh2MakeFirstval ⟨g, a, key, n⟩ obuflen = .ok (recordsOf g pt [(a : ZMod g.N)]) := by
  have := Fact.mk hE.prime
  have hwrite := EcpGroup.ecpTlsWritePoint_onCurve
    (hE.onCurve _ (EcpGroup.Exact.cast_ne_zero h0 ha)) hlen
  rw [gdh2MakeFirstval]
  simp only []
  rw [← hE.base, hE.ecpMul_pt h0 ha one_ne_zero, mul_one, recordsOf_singleton]
  exact hwrite

/-- One point is read, multiplied and written. -/
theorem round_pt (h0 : 0 < a) (ha : a < g.N) {key : Int} {n : Nat} {x : ZMod g.N}
    (hx : x ≠ 0) {buflen obuflen : Nat} (hroom : g.Room buflen) (left i : Nat)
    (rest obuf : List UInt8) (hlen : obuf.length + (2 * g.plen + 2) ≤ obuflen) :
    gdh2Loop ⟨g, a, key, n⟩ buflen obuflen (left + 1) i (g.record (pt x) ++ rest) obuf =
      if i = 0 then do
        let old ← g.ecpTlsWritePoint (pt x)
          (obuflen - (obuf ++ g.record (pt (a * x))).length)
        gdh2Loop ⟨g, a, key, n⟩ buflen obuflen left (i + 1) rest
          (obuf ++ g.record (pt (a * x)) ++ old)
      else gdh2Loop ⟨g, a, key, n⟩ buflen obuflen left (i + 1) rest
        (obuf ++ g.record (pt (a * x))) := by
  have hax := hE.scalar_ne_zero (EcpGroup.Exact.cast_ne_zero h0 ha) hx
  have hwrite := EcpGroup.ecpTlsWritePoint_onCurve (hE.onCurve _ hax)
    (show 2 * g.plen + 2 ≤ obuflen - obuf.length by omega)
  rw [gdh2Loop]
  simp only []
  rw [EcpGroup.ecpTlsReadPoint_record (hE.onCurve x hx) hroom]
  simp only [bind, Except.bind]
  rw [hE.ecpMul_pt h0 ha hx]
  simp only []
  rw [hwrite]

/-- The later rounds multiply every point. -/
theorem gdh2Loop_pt (h0 : 0 < a) (ha : a < g.N) {key : Int} {n : Nat}
    {ys : List (ZMod g.N)} (hys : ∀ y ∈ ys, y ≠ 0) {buflen obuflen : Nat}
    (hroom : g.Room buflen) {i : Nat} (hi : i ≠ 0) {obuf : List UInt8}
    (hlen : obuf.length + ys.length * (2 * g.plen + 2) ≤ obuflen) :
    gdh2Loop ⟨g, a, key, n⟩ buflen obuflen ys.length i (recordsOf g pt ys) obuf =
      .ok (obuf ++ recordsOf g pt (ys.map ((a : ZMod g.N) * ·))) := by
  induction ys generalizing i obuf with
  | nil => rw [List.map_nil, show recordsOf g pt [] = [] from rfl, List.append_nil]; rfl
  | cons y ys ih =>
      rw [List.length_cons, Nat.succ_mul] at hlen
      rw [List.length_cons, recordsOf_cons,
        round_pt hE h0 ha (hys y List.mem_cons_self) hroom _ _ _ _ (by omega), if_neg hi,
        List.map_cons, recordsOf_cons, ← List.append_assoc]
      refine ih (fun z hz => hys z (List.mem_cons_of_mem y hz)) (Nat.succ_ne_zero i) ?_
      rw [List.length_append, EcpGroup.record_length]
      omega

theorem gdh2Extra_pt (h0 : 0 < a) (ha : a < g.N) {key : Int} {n index obuflen : Nat}
    {obuf : List UInt8}
    (hlen : index = 2 → obuf.length + (2 * g.plen + 2) ≤ obuflen) :
    gdh2Extra ⟨g, a, key, n⟩ index obuflen obuf =
      .ok (obuf ++ recordsOf g pt (if index = 2 then [(a : ZMod g.N)] else [])) := by
  have := Fact.mk hE.prime
  rw [gdh2Extra]
  split
  · next h2 =>
      have hfit := hlen h2
      have hwrite := EcpGroup.ecpTlsWritePoint_onCurve
        (hE.onCurve _ (EcpGroup.Exact.cast_ne_zero h0 ha))
        (show 2 * g.plen + 2 ≤ obuflen - obuf.length by omega)
      simp only []
      rw [← hE.base, hE.ecpMul_pt h0 ha one_ne_zero, mul_one]
      simp only [bind, Except.bind]
      rw [hwrite, recordsOf_singleton]
  · rw [show recordsOf g pt [] = [] from rfl, List.append_nil]

/-- A party inside the chain: the product is multiplied and kept besides, and
so is every other point. -/
theorem gdh2MakeVal_pt (h0 : 0 < a) (ha : a < g.N) {key : Int} {n index : Nat}
    (hindex : 2 ≤ index) (hn : index < n) {x : ZMod g.N} (hx : x ≠ 0)
    {ys : List (ZMod g.N)} (hys : ∀ y ∈ ys, y ≠ 0)
    (hterm : ys.length + 1 = if index = 2 then 1 else index) {buflen obuflen : Nat}
    (hroom : g.Room buflen) (hlen : (index + 1) * (2 * g.plen + 2) ≤ obuflen) :
    gdh2MakeVal ⟨g, a, key, n⟩ index (recordsOf g pt (x :: ys)) buflen obuflen =
      .ok (⟨g, a, key, n⟩, recordsOf g pt (a * x :: x :: (ys.map ((a : ZMod g.N) * ·) ++
        if index = 2 then [(a : ZMod g.N)] else []))) := by
  have hsize : (ys.length + 2 + if index = 2 then 1 else 0) * (2 * g.plen + 2) ≤
      obuflen := by
    refine Nat.le_trans (Nat.mul_le_mul_right _ ?_) hlen
    split at hterm <;> split <;> omega
  rw [Nat.add_mul, Nat.add_mul] at hsize
  have hold := EcpGroup.ecpTlsWritePoint_onCurve (hE.onCurve x hx)
    (show 2 * g.plen + 2 ≤ obuflen - ([] ++ g.record (pt (a * x))).length by
      rw [List.nil_append, EcpGroup.record_length]
      omega)
  have hloop : gdh2Loop ⟨g, a, key, n⟩ buflen obuflen (ys.length + 1) 0
      (recordsOf g pt (x :: ys)) [] =
        .ok (recordsOf g pt (a * x :: x :: ys.map ((a : ZMod g.N) * ·))) := by
    rw [recordsOf_cons, round_pt hE h0 ha hx hroom _ _ _ _ (by
      rw [List.length_nil]
      omega), if_pos rfl, hold]
    simp only [bind, Except.bind]
    rw [gdh2Loop_pt hE h0 ha hys hroom Nat.one_ne_zero]
    · rw [List.nil_append, recordsOf_cons, recordsOf_cons, List.append_assoc]
    · rw [List.nil_append, List.length_append, EcpGroup.record_length,
        EcpGroup.record_length]
      omega
  have hbegin : gdh2Begin ⟨g, a, key, n⟩ index (recordsOf g pt (x :: ys)) buflen =
      .ok (⟨g, a, key, n⟩, recordsOf g pt (x :: ys), 0) := by
    rw [gdh2Begin, if_neg (Nat.ne_of_lt hn), if_pos ⟨hindex, hn⟩]
  rw [gdh2MakeVal, hbegin]
  simp only [bind, Except.bind]
  rw [← hterm, Nat.sub_zero, hloop]
  simp only []
  rw [gdh2Extra_pt hE h0 ha, ← recordsOf_append]
  · rfl
  · intro h2
    rw [if_pos h2] at hsize
    rw [recordsOf_length, List.length_cons, List.length_cons, List.length_map,
      Nat.add_mul, Nat.add_mul]
    omega

/-- The last party keeps the product. -/
theorem gdh2MakeVal_last (h0 : 0 < a) (ha : a < g.N) {key : Int} {n : Nat}
    {x : ZMod g.N} (hx : x ≠ 0) {ys : List (ZMod g.N)}
    (hys : ∀ y ∈ ys, y ≠ 0) (hterm : ys.length + 1 = if n = 2 then 1 else n)
    {buflen obuflen : Nat} (hroom : g.Room buflen)
    (hlen : (n + 1) * (2 * g.plen + 2) ≤ obuflen) :
    gdh2MakeVal ⟨g, a, key, n⟩ n (recordsOf g pt (x :: ys)) buflen obuflen =
      .ok (⟨g, a, (pt (a * x)).X, n⟩, recordsOf g pt (ys.map ((a : ZMod g.N) * ·) ++
        if n = 2 then [(a : ZMod g.N)] else [])) := by
  have hsize : (ys.length + 1) * (2 * g.plen + 2) ≤ obuflen := by
    refine Nat.le_trans (Nat.mul_le_mul_right _ ?_) hlen
    split at hterm <;> omega
  rw [Nat.succ_mul] at hsize
  have hbegin : gdh2Begin ⟨g, a, key, n⟩ n (recordsOf g pt (x :: ys)) buflen =
      .ok (⟨g, a, (pt (a * x)).X, n⟩, recordsOf g pt ys, 1) := by
    rw [gdh2Begin, if_pos rfl, recordsOf_cons]
    simp only []
    rw [EcpGroup.ecpTlsReadPoint_record (hE.onCurve x hx) hroom]
    simp only [bind, Except.bind]
    rw [hE.ecpMul_pt h0 ha hx]
  rw [gdh2MakeVal, hbegin]
  simp only [bind, Except.bind]
  rw [← hterm, Nat.add_sub_cancel, gdh2Loop_pt hE h0 ha hys hroom Nat.one_ne_zero (by
    rw [List.length_nil]
    omega)]
  simp only []
  rw [gdh2Extra_pt hE h0 ha (fun _ => by
    rw [List.nil_append, recordsOf_length, List.length_map]
    omega), List.nil_append, ← recordsOf_append]

theorem gdh2ExportKey_pt {x : ZMod g.N} {n buflen : Nat} (hx : x ≠ 0)
    (hlen : g.plen ≤ buflen) :
    gdh2ExportKey ⟨g, a, (pt x).X, n⟩ buflen = .ok (keyOf g (pt x)) := by
  obtain ⟨-, ⟨hX0, hX⟩, -⟩ := EcpGroup.onCurve_range (hE.onCurve x hx)
  have hfit : mpiSize (pt x).X ≤ buflen := (EcpGroup.mpiSize_coord hX0 hX).trans hlen
  rw [gdh2ExportKey, if_neg (Nat.not_lt.mpr hfit)]
  exact mpiWriteBinary_key hE x

/-- A party multiplies the point it finds at its place. -/
theorem gdh2ComputeKey_pt (h0 : 0 < a) (ha : a < g.N) {key : Int} {n index : Nat}
    (hindex : 1 ≤ index) (hn : index < n) {xs ys : List (ZMod g.N)} {x : ZMod g.N}
    (hx : x ≠ 0) (hplace : xs.length = n - index - 1) {buflen obuflen : Nat}
    (hroom : g.Room buflen) (hlen : g.plen ≤ obuflen) :
    gdh2ComputeKey ⟨g, a, key, n⟩ index (recordsOf g pt (xs ++ x :: ys)) buflen obuflen =
      .ok (⟨g, a, (pt (a * x)).X, n⟩, keyOf g (pt (a * x))) := by
  have hax := hE.scalar_ne_zero (EcpGroup.Exact.cast_ne_zero h0 ha) hx
  obtain ⟨-, ⟨hX0, hX⟩, -⟩ := EcpGroup.onCurve_range (hE.onCurve _ hax)
  have hfit : mpiSize (pt (a * x)).X ≤ obuflen :=
    (EcpGroup.mpiSize_coord hX0 hX).trans hlen
  have hdrop : (recordsOf g pt (xs ++ x :: ys)).drop
      ((2 * mpiSize g.P + 2) * (n - index - 1)) =
        g.record (pt x) ++ recordsOf g pt ys := by
    rw [recordsOf_append, ← hplace, List.drop_left' (by
      rw [recordsOf_length, Nat.mul_comm]
      rfl)]
    rfl
  rw [gdh2ComputeKey, if_neg (by
    simp only []
    omega)]
  simp only []
  rw [hdrop, EcpGroup.ecpTlsReadPoint_record (hE.onCurve x hx) hroom]
  simp only [bind, Except.bind]
  rw [hE.ecpMul_pt h0 ha hx]
  simp only []
  rw [if_neg (Nat.not_lt.mpr hfit), mpiWriteBinary_key hE]

end Exact

/-! ## The list -/

namespace Chain

section Message

variable {R : Type} [CommRing R] (c : Nat → R)

def product (k : Nat) : R := ∏ i ∈ Finset.range k, c i

/-- The product of the first `k` scalars without that of party `j`. -/
def leftOut (k j : Nat) : R := ∏ i ∈ (Finset.range k).erase j, c i

/-- What goes on from the first `k` parties. -/
def message (k : Nat) : List R :=
  product c k :: if k = 1 then [] else (List.range k).reverse.map (leftOut c k)

theorem product_succ (k : Nat) : product c (k + 1) = c k * product c k := by
  rw [product, Finset.prod_range_succ, mul_comm]
  rfl

theorem leftOut_self (k : Nat) : leftOut c (k + 1) k = product c k := by
  rw [leftOut, Finset.range_add_one, Finset.erase_insert Finset.notMem_range_self]
  rfl

theorem leftOut_succ {k j : Nat} (hj : j < k) :
    leftOut c (k + 1) j = c k * leftOut c k j := by
  have hk : k ∉ (Finset.range k).erase j := fun h =>
    Finset.notMem_range_self (Finset.mem_of_mem_erase h)
  rw [leftOut, Finset.range_add_one, Finset.erase_insert_of_ne (Nat.ne_of_gt hj),
    Finset.prod_insert hk]
  rfl

/-- A party's scalar times the product without it is the product. -/
theorem mul_leftOut {k j : Nat} (hj : j < k) : c j * leftOut c k j = product c k :=
  Finset.mul_prod_erase _ _ (Finset.mem_range.mpr hj)

/-- The points behind the product, each multiplied, and the one the second
party adds are those that leave out an earlier scalar. -/
theorem message_tail {k : Nat} (hk : 1 ≤ k) :
    (message c k).tail.map (c k * ·) ++ (if k + 1 = 2 then [c k] else []) =
      (List.range k).reverse.map (leftOut c (k + 1)) := by
  rw [message, List.tail_cons]
  by_cases h1 : k = 1
  · subst h1
    have hfirst : leftOut c 1 0 = 1 := Finset.prod_empty
    rw [if_pos rfl, if_pos rfl, List.map_nil, List.nil_append]
    change [c 1] = [leftOut c 2 0]
    rw [leftOut_succ c Nat.zero_lt_one, hfirst, mul_one]
  · rw [if_neg h1, if_neg (by omega), List.append_nil, List.map_map]
    refine List.map_congr_left fun j hj => ?_
    exact (leftOut_succ c (List.mem_range.mp (List.mem_reverse.mp hj))).symm

theorem message_succ {k : Nat} (hk : 1 ≤ k) :
    message c (k + 1) = c k * product c k :: product c k ::
      ((message c k).tail.map (c k * ·) ++ if k + 1 = 2 then [c k] else []) := by
  rw [message_tail c hk, message, if_neg (by omega), product_succ, List.range_succ,
    List.reverse_append, List.reverse_singleton, List.singleton_append, List.map_cons,
    leftOut_self]

theorem message_tail_length {k : Nat} :
    (message c k).tail.length + 1 = if k + 1 = 2 then 1 else k + 1 := by
  rw [message, List.tail_cons]
  split
  · rw [if_pos (by omega)]
    rfl
  · rw [if_neg (by omega), List.length_map, List.length_reverse, List.length_range]

/-- The point that leaves out a party stands where the party looks for it. -/
theorem leftOut_place {k j : Nat} (hj : j < k) :
    ∃ xs ys, (List.range k).reverse.map (leftOut c (k + 1)) =
      xs ++ leftOut c (k + 1) j :: ys ∧ xs.length = k + 1 - (j + 1) - 1 := by
  generalize hl : (List.range k).reverse.map (leftOut c (k + 1)) = l
  have hlen : l.length = k := by
    rw [← hl, List.length_map, List.length_reverse, List.length_range]
  have hplace : k + 1 - (j + 1) - 1 < l.length := by omega
  have hget : l[k + 1 - (j + 1) - 1] = leftOut c (k + 1) j := by
    simp only [← hl, List.getElem_map, List.getElem_reverse, List.length_range,
      List.getElem_range]
    congr 1
    omega
  refine ⟨l.take (k + 1 - (j + 1) - 1), l.drop (k + 1 - (j + 1) - 1 + 1), ?_, ?_⟩
  · rw [← hget, List.getElem_cons_drop, List.take_append_drop]
  · rw [List.length_take]
    omega

end Message

/-! ## The calls one after the other -/

/-- The context of the party with index `k + 1` of `n` and what it hands on, when
each is handed what the one before hands on. -/
def gdh2Pass (g : EcpGroup) (n obuflen : Nat) (draw : Nat → Nat → Nat) :
    Nat → Except SbanError (Gdh2Context × List UInt8)
  | 0 => do
      let ctx ← gdh2Init g n (draw 0)
      let obuf ← gdh2MakeFirstval ctx obuflen
      .ok (ctx, obuf)
  | k + 1 => do
      let (_, buf) ← gdh2Pass g n obuflen draw k
      let ctx ← gdh2Init g n (draw (k + 1))
      gdh2MakeVal ctx (k + 2) buf buf.length obuflen

section Exact

variable {g : EcpGroup} {pt : ZMod g.N → EcpPoint} (hE : g.Exact pt) {n : Nat}
  {draw : Nat → Nat → Nat} {r : Nat → Int}
  (hdraw : ∀ k < n, g.drawScalar (draw k) 30 0 = .ok (r k))

/-- The scalars as scalars. -/
def scalars (g : EcpGroup) (r : Nat → Int) (k : Nat) : ZMod g.N := r k

/-- What the party with index `k + 1` of `n` hands on. -/
def handsOn (g : EcpGroup) (r : Nat → Int) (n k : Nat) : List (ZMod g.N) :=
  if k + 1 = n then (List.range k).reverse.map (leftOut (scalars g r) n)
  else message (scalars g r) (k + 1)

/-- The context it has then. -/
def chainContext (g : EcpGroup) (pt : ZMod g.N → EcpPoint) (r : Nat → Int) (n k : Nat) :
    Gdh2Context :=
  ⟨g, r k, if k + 1 = n then (pt (product (scalars g r) n)).X else 0, n⟩

include hE hdraw

omit hE in
theorem scalars_ne_zero {k : Nat} (hk : k < n) : scalars g r k ≠ 0 := by
  obtain ⟨h0, h1⟩ := drawScalar_range (hdraw k hk)
  exact EcpGroup.Exact.cast_ne_zero h0 h1

theorem prod_scalars_ne_zero {s : Finset Nat} (hs : ∀ i ∈ s, i < n) :
    ∏ i ∈ s, scalars g r i ≠ 0 := by
  have := Fact.mk hE.prime
  exact Finset.prod_ne_zero_iff.mpr fun i hi => scalars_ne_zero hdraw (hs i hi)

theorem product_ne_zero {k : Nat} (hk : k ≤ n) : product (scalars g r) k ≠ 0 :=
  prod_scalars_ne_zero hE hdraw fun i hi => by
    have := Finset.mem_range.mp hi
    omega

theorem leftOut_ne_zero {k j : Nat} (hk : k ≤ n) : leftOut (scalars g r) k j ≠ 0 :=
  prod_scalars_ne_zero hE hdraw fun i hi => by
    have := Finset.mem_range.mp (Finset.mem_of_mem_erase hi)
    omega

theorem message_tail_ne_zero {k : Nat} (hk : k ≤ n) :
    ∀ y ∈ (message (scalars g r) k).tail, y ≠ 0 := by
  intro y hy
  rw [message, List.tail_cons] at hy
  split at hy
  · cases hy
  · obtain ⟨j, -, rfl⟩ := List.mem_map.mp hy
    exact leftOut_ne_zero hE hdraw hk

omit hE hdraw in
theorem handsOn_length (hn : 2 ≤ n) {k : Nat} (hk : k < n) :
    1 ≤ (handsOn g r n k).length ∧ (handsOn g r n k).length ≤ n := by
  rw [handsOn]
  split
  · rw [List.length_map, List.length_reverse, List.length_range]
    omega
  · rw [message, List.length_cons]
    split
    · rw [List.length_nil]
      omega
    · rw [List.length_map, List.length_reverse, List.length_range]
      omega

omit hE hdraw in
theorem handsOn_room (hn : 2 ≤ n) {k : Nat} (hk : k < n) (hbyte : 2 * g.plen + 1 < 256) :
    g.Room (recordsOf g pt (handsOn g r n k)).length := by
  refine ⟨?_, hbyte⟩
  rw [recordsOf_length]
  exact Nat.le_mul_of_pos_left _ (handsOn_length hn hk).1

/-- A party that is handed a list and is not the first. -/
theorem gdh2MakeVal_handsOn {k : Nat} (hk : k + 1 < n) {obuflen : Nat}
    (hbyte : 2 * g.plen + 1 < 256) (hlen : (n + 1) * (2 * g.plen + 2) ≤ obuflen) :
    gdh2MakeVal ⟨g, r (k + 1), 0, n⟩ (k + 2) (recordsOf g pt (handsOn g r n k))
      (recordsOf g pt (handsOn g r n k)).length obuflen =
      .ok (chainContext g pt r n (k + 1), recordsOf g pt (handsOn g r n (k + 1))) := by
  have hroom : g.Room (recordsOf g pt (handsOn g r n k)).length :=
    handsOn_room (by omega) (by omega) hbyte
  obtain ⟨h0, h1⟩ := drawScalar_range (hdraw (k + 1) hk)
  have hx := product_ne_zero hE hdraw (Nat.le_of_lt hk)
  have hys := message_tail_ne_zero hE hdraw (Nat.le_of_lt hk)
  have hterm := message_tail_length (scalars g r) (k := k + 1)
  have htail := message_tail (scalars g r) (Nat.succ_pos k)
  have hsucc := message_succ (scalars g r) (Nat.succ_pos k)
  have hcons : message (scalars g r) (k + 1) =
      product (scalars g r) (k + 1) :: (message (scalars g r) (k + 1)).tail := rfl
  have hprod := product_succ (scalars g r) (k + 1)
  rw [handsOn, if_neg (Nat.ne_of_lt hk)] at hroom ⊢
  rw [hcons] at hroom ⊢
  by_cases hlast : k + 2 = n
  · subst hlast
    rw [gdh2MakeVal_last hE h0 h1 hx hys hterm hroom hlen, chainContext, if_pos rfl,
      handsOn, if_pos rfl, hprod, ← htail]
    rfl
  · rw [gdh2MakeVal_pt hE h0 h1 (Nat.le_add_left 2 k) (by omega) hx hys hterm hroom
        (Nat.le_trans (Nat.mul_le_mul_right _ (by omega)) hlen),
      chainContext, if_neg hlast, handsOn, if_neg hlast, hsucc]
    rfl

/-- No call of the chain fails, and every one hands on its list. -/
theorem gdh2Pass_pt (hn : 2 ≤ n) {obuflen : Nat} (hbyte : 2 * g.plen + 1 < 256)
    (hlen : (n + 1) * (2 * g.plen + 2) ≤ obuflen) {k : Nat} (hk : k < n) :
    gdh2Pass g n obuflen draw k =
      .ok (chainContext g pt r n k, recordsOf g pt (handsOn g r n k)) := by
  induction k with
  | zero =>
      obtain ⟨h0, h1⟩ := drawScalar_range (hdraw 0 hk)
      have hone : 2 * g.plen + 2 ≤ obuflen :=
        Nat.le_trans (Nat.le_mul_of_pos_left _ (Nat.succ_pos n)) hlen
      have hfirst : message (scalars g r) 1 = [((r 0 : Int) : ZMod g.N)] := by
        rw [message, if_pos rfl, product, Finset.prod_range_one]
        rfl
      rw [gdh2Pass, gdh2Init_ok (hdraw 0 hk)]
      simp only [bind, Except.bind]
      rw [gdh2MakeFirstval_pt hE h0 h1 hone, chainContext, if_neg (by omega), handsOn,
        if_neg (by omega), hfirst]
  | succ k ih =>
      rw [gdh2Pass, ih (by omega)]
      simp only [bind, Except.bind]
      rw [gdh2Init_ok (hdraw (k + 1) hk)]
      exact gdh2MakeVal_handsOn hE hdraw hk hbyte hlen

/-- What the last party hands out gives each other one the product. -/
theorem gdh2ComputeKey_handsOn {k : Nat} (hk : k + 1 < n) {obuflen : Nat}
    (hbyte : 2 * g.plen + 1 < 256) (hlen : g.plen ≤ obuflen) :
    gdh2ComputeKey (chainContext g pt r n k) (k + 1)
      (recordsOf g pt (handsOn g r n (n - 1)))
      (recordsOf g pt (handsOn g r n (n - 1))).length obuflen =
      .ok (⟨g, r k, (pt (product (scalars g r) n)).X, n⟩,
        keyOf g (pt (product (scalars g r) n))) := by
  obtain ⟨m, rfl⟩ : ∃ m, n = m + 1 := ⟨n - 1, by omega⟩
  have hroom : g.Room (recordsOf g pt (handsOn g r (m + 1) m)).length :=
    handsOn_room (by omega) (Nat.lt_succ_self m) hbyte
  obtain ⟨h0, h1⟩ := drawScalar_range (hdraw k (by omega))
  obtain ⟨xs, ys, hout, hplace⟩ := leftOut_place (scalars g r) (Nat.lt_of_succ_lt_succ hk)
  have hmul := mul_leftOut (scalars g r) (Nat.lt_of_succ_lt hk)
  rw [handsOn, if_pos rfl, hout] at hroom
  rw [Nat.add_sub_cancel, handsOn, if_pos rfl, hout, chainContext, gdh2ComputeKey_pt hE h0 h1 (Nat.succ_pos k) hk
    (leftOut_ne_zero hE hdraw (Nat.le_refl _)) hplace hroom hlen, ← hmul]
  rfl

end Exact

end Chain

end LibSmoke
