import Mathlib.Algebra.BigOperators.Intervals
import LibSmoke.Sban.Secp256r1

/-!
# The fast reductions

`ecp_modp` reduces what a product of two coordinates leaves. For the primes of
the NIST curves it calls a function of the prime that adds and subtracts the
upper half of the number to the lower half in chunks of 32 bits, column by
column, with a carry that may be below zero. The functions of three of the primes
are one function with a different table of chunks.

A table is right when each chunk of the upper half comes to what it is worth
modulo the prime (`Worth`), which is a matter of a few divisions; then the result
is the number, modulo the prime, for every number that fits (`nistMod_dvd`), and
what `ecp_modp` makes of it is the remainder (`ecpModp_eq`).
-/

namespace LibSmoke

/-- One line of the macros: `ADD( j )` or `SUB( j )`. -/
inductive ChunkOp
  | add (j : Nat)
  | sub (j : Nat)
  deriving DecidableEq, Repr

def ChunkOp.chunk : ChunkOp → Nat
  | add j => j
  | sub j => j

def add32 (dst src : UInt32) (carry : Int) : UInt32 × Int :=
  let dst := dst + src
  (dst, carry + if dst < src then 1 else 0)

def sub32 (dst src : UInt32) (carry : Int) : UInt32 × Int :=
  (dst - src, carry - if dst < src then 1 else 0)

/-- Chunk `j` of the number. -/
def chunkAt (W : List UInt32) (j : Nat) : UInt32 := W.getD j 0

def chunkStep (W : List UInt32) (s : UInt32 × Int) : ChunkOp → UInt32 × Int
  | .add j => add32 s.1 (chunkAt W j) s.2
  | .sub j => sub32 s.1 (chunkAt W j) s.2

/-- `NEXT` after the chunk is stored: the carry goes to the next one. -/
def carryInto (cur : UInt32) (cc : Int) : UInt32 × Int :=
  if cc < 0 then sub32 cur (UInt32.ofNat (-cc).toNat) 0
  else add32 cur (UInt32.ofNat cc.toNat) 0

/-- `LAST`: the carry is the chunk after it when it is above zero, and the rest is
zero. -/
def lastChunk (W : List UInt32) (i : Nat) (cur : UInt32) (c : Int) : List UInt32 :=
  ((W.set i cur).set (i + 1) (if c > 0 then UInt32.ofNat c.toNat else 0)).take (i + 2) ++
    List.replicate (W.length - (i + 2)) 0

/-- The columns from `i` on: the chunks and the last carry. -/
def modColumns (W : List UInt32) (i : Nat) (cur : UInt32) (c : Int) :
    List (List ChunkOp) → List UInt32 × Int
  | [] => (W, c)
  | [ops] =>
      let s := ops.foldl (chunkStep W) (cur, c)
      (lastChunk W i s.1 s.2, s.2)
  | ops :: rest =>
      let s := ops.foldl (chunkStep W) (cur, c)
      let W := W.set i s.1
      let s := carryInto (chunkAt W (i + 1)) s.2
      modColumns W (i + 1) s.1 s.2 rest

def chunksValue (W : List UInt32) : Int :=
  ∑ j ∈ Finset.range W.length, 2 ^ (32 * j) * ((chunkAt W j).toNat : Int)

/-- The number the columns leave; `fix_negative` takes it from the carry when that
is below zero. -/
def nistMod (columns : List (List ChunkOp)) (W : List UInt32) : Int :=
  let r := modColumns W 0 (chunkAt W 0) 0 columns
  if r.2 < 0 then -(-r.2 * 2 ^ (32 * columns.length) - chunksValue r.1)
  else chunksValue r.1

open ChunkOp in
def modP224 : List (List ChunkOp) :=
  [[sub 7, sub 11],
   [sub 8, sub 12],
   [sub 9, sub 13],
   [sub 10, add 7, add 11],
   [sub 11, add 8, add 12],
   [sub 12, add 9, add 13],
   [sub 13, add 10]]

open ChunkOp in
def modP256 : List (List ChunkOp) :=
  [[add 8, add 9, sub 11, sub 12, sub 13, sub 14],
   [add 9, add 10, sub 12, sub 13, sub 14, sub 15],
   [add 10, add 11, sub 13, sub 14, sub 15],
   [add 11, add 11, add 12, add 12, add 13, sub 15, sub 8, sub 9],
   [add 12, add 12, add 13, add 13, add 14, sub 9, sub 10],
   [add 13, add 13, add 14, add 14, add 15, sub 10, sub 11],
   [add 14, add 14, add 15, add 15, add 14, add 13, sub 8, sub 9],
   [add 15, add 15, add 15, add 8, sub 10, sub 11, sub 12, sub 13]]

open ChunkOp in
def modP384 : List (List ChunkOp) :=
  [[add 12, add 21, add 20, sub 23],
   [add 13, add 22, add 23, sub 12, sub 20],
   [add 14, add 23, sub 13, sub 21],
   [add 15, add 12, add 20, add 21, sub 14, sub 22, sub 23],
   [add 21, add 21, add 16, add 13, add 12, add 20, add 22, sub 15, sub 23, sub 23],
   [add 22, add 22, add 17, add 14, add 13, add 21, add 23, sub 16],
   [add 23, add 23, add 18, add 15, add 14, add 22, sub 17],
   [add 19, add 16, add 15, add 23, sub 18],
   [add 20, add 17, add 16, sub 19],
   [add 21, add 18, add 17, sub 20],
   [add 22, add 19, add 18, sub 21],
   [add 23, add 20, add 19, sub 22]]

/-- The chunks of a number, as many as the columns can reach. -/
def chunksOf (n k : Nat) : List UInt32 :=
  (List.range k).map fun j => UInt32.ofNat (n / 2 ^ (32 * j))

/-- The first loop at the end of `ecp_modp`. -/
def addWhileNegative (P : Nat) : Nat → Int → Int
  | 0, x => x
  | fuel + 1, x => if x < 0 then addWhileNegative P fuel (x + P) else x

/-- The second loop. -/
def subWhileAbove (P : Nat) : Nat → Int → Int
  | 0, x => x
  | fuel + 1, x => if x ≥ P then subWhileAbove P fuel (x - P) else x

/-- `ecp_modp` with the function of the prime that has these columns. -/
def ecpModp (columns : List (List ChunkOp)) (P : Nat) (N : Int) : Except SbanError Int :=
  if N < 0 ∨ mpiMsb N > 2 * mpiMsb P then .error .ecpBadInputData
  else
    let r := nistMod columns (chunksOf N.toNat (2 * columns.length))
    let r := addWhileNegative P r.natAbs r
    .ok (subWhileAbove P r.natAbs r)

/-! ## One column -/

theorem add32_value (dst src : UInt32) (c : Int) :
    ((add32 dst src c).1.toNat : Int) + 2 ^ 32 * (add32 dst src c).2 =
      dst.toNat + src.toNat + 2 ^ 32 * c := by
  have hd := dst.toNat_lt
  have hs := src.toNat_lt
  simp only [add32, UInt32.lt_iff_toNat_lt, UInt32.toNat_add]
  split <;> omega

theorem sub32_value (dst src : UInt32) (c : Int) :
    ((sub32 dst src c).1.toNat : Int) + 2 ^ 32 * (sub32 dst src c).2 =
      dst.toNat - src.toNat + 2 ^ 32 * c := by
  have hd := dst.toNat_lt
  have hs := src.toNat_lt
  simp only [sub32, UInt32.lt_iff_toNat_lt, UInt32.toNat_sub]
  split <;> omega

/-- What the lines of a column add up to. -/
def columnSum (W : List UInt32) (ops : List ChunkOp) : Int :=
  (ops.map fun op => match op with
    | .add j => ((chunkAt W j).toNat : Int)
    | .sub j => -((chunkAt W j).toNat : Int)).sum

theorem foldl_chunkStep (W : List UInt32) (ops : List ChunkOp) (s : UInt32 × Int) :
    ((ops.foldl (chunkStep W) s).1.toNat : Int) + 2 ^ 32 * (ops.foldl (chunkStep W) s).2 =
      s.1.toNat + 2 ^ 32 * s.2 + columnSum W ops := by
  induction ops generalizing s with
  | nil => simp [columnSum]
  | cons op ops ih =>
      rw [List.foldl_cons, ih]
      cases op with
      | add j =>
          have := add32_value s.1 (chunkAt W j) s.2
          simp only [chunkStep, columnSum, List.map_cons, List.sum_cons]
          omega
      | sub j =>
          have := sub32_value s.1 (chunkAt W j) s.2
          simp only [chunkStep, columnSum, List.map_cons, List.sum_cons]
          omega

/-- The carry moves by one a line, so that it fits a signed character. -/
theorem foldl_chunkStep_carry (W : List UInt32) (ops : List ChunkOp) (s : UInt32 × Int) :
    s.2 - ops.length ≤ (ops.foldl (chunkStep W) s).2 ∧
      (ops.foldl (chunkStep W) s).2 ≤ s.2 + ops.length := by
  induction ops generalizing s with
  | nil => simp
  | cons op ops ih =>
      have h := ih (chunkStep W s op)
      have hstep : s.2 - 1 ≤ (chunkStep W s op).2 ∧ (chunkStep W s op).2 ≤ s.2 + 1 := by
        cases op <;> simp only [chunkStep, add32, sub32] <;> split <;> omega
      rw [List.foldl_cons, List.length_cons]
      omega

theorem carryInto_value (cur : UInt32) {cc : Int} (h : -2 ^ 31 < cc ∧ cc < 2 ^ 31) :
    ((carryInto cur cc).1.toNat : Int) + 2 ^ 32 * (carryInto cur cc).2 = cur.toNat + cc ∧
      -1 ≤ (carryInto cur cc).2 ∧ (carryInto cur cc).2 ≤ 1 := by
  rw [carryInto]
  split
  · have hval := sub32_value cur (UInt32.ofNat (-cc).toNat) 0
    rw [UInt32.toNat_ofNat', Nat.mod_eq_of_lt (by omega)] at hval
    refine ⟨by omega, ?_⟩
    simp only [sub32]
    split <;> omega
  · have hval := add32_value cur (UInt32.ofNat cc.toNat) 0
    rw [UInt32.toNat_ofNat', Nat.mod_eq_of_lt (by omega)] at hval
    refine ⟨by omega, ?_⟩
    simp only [add32]
    split <;> omega

/-! ## All the columns -/

/-- The number in the first chunks. -/
def lowChunks (W : List UInt32) (k : Nat) : Int :=
  ∑ j ∈ Finset.range k, 2 ^ (32 * j) * ((chunkAt W j).toNat : Int)

theorem lowChunks_succ (W : List UInt32) (k : Nat) :
    lowChunks W (k + 1) = lowChunks W k + 2 ^ (32 * k) * ((chunkAt W k).toNat : Int) := by
  rw [lowChunks, Finset.sum_range_succ, lowChunks]

theorem chunkAt_set (W : List UInt32) (i j : Nat) (x : UInt32) (hi : i < W.length) :
    chunkAt (W.set i x) j = if i = j then x else chunkAt W j := by
  simp only [chunkAt, List.getD_eq_getElem?_getD, List.getElem?_set, hi, if_true]
  split <;> simp

theorem lowChunks_set {W : List UInt32} {i k : Nat} (x : UInt32) (hi : i < W.length) :
    lowChunks (W.set i x) k =
      lowChunks W k +
        if i < k then 2 ^ (32 * i) * ((x.toNat : Int) - (chunkAt W i).toNat) else 0 := by
  induction k with
  | zero => simp [lowChunks]
  | succ k ih =>
      rw [lowChunks_succ, lowChunks_succ, ih, chunkAt_set W i k x hi]
      by_cases hik : i = k
      · subst hik
        simp only [if_true, if_pos (Nat.lt_succ_self i), if_neg (Nat.lt_irrefl i)]
        ring
      · rw [if_neg hik]
        by_cases hlt : i < k
        · rw [if_pos hlt, if_pos (by omega)]
          ring
        · rw [if_neg hlt, if_neg (by omega)]
          ring

theorem lowChunks_congr {W W' : List UInt32} {k : Nat}
    (h : ∀ j < k, chunkAt W j = chunkAt W' j) : lowChunks W k = lowChunks W' k :=
  Finset.sum_congr rfl fun j hj => by rw [h j (Finset.mem_range.1 hj)]

/-- The lines of a column read above the chunks that were stored. -/
theorem foldl_chunkStep_set {W : List UInt32} {i : Nat} (x : UInt32) (hi : i < W.length)
    {ops : List ChunkOp} (h : ∀ op ∈ ops, i < op.chunk) :
    columnSum (W.set i x) ops = columnSum W ops := by
  unfold columnSum
  congr 1
  refine List.map_congr_left fun op hop => ?_
  have hne : i ≠ op.chunk := Nat.ne_of_lt (h op hop)
  cases op with
  | add j => simp only [chunkAt_set W i j x hi, if_neg (show ¬ i = j from hne)]
  | sub j => simp only [chunkAt_set W i j x hi, if_neg (show ¬ i = j from hne)]

/-- The sums of the columns from `i` on, each at its place. -/
def columnsSum (W : List UInt32) (i : Nat) : List (List ChunkOp) → Int
  | [] => 0
  | ops :: rest => 2 ^ (32 * i) * columnSum W ops + columnsSum W (i + 1) rest

theorem columnsSum_set {W : List UInt32} {j : Nat} (x : UInt32) (hj : j < W.length)
    {columns : List (List ChunkOp)} (h : ∀ ops ∈ columns, ∀ op ∈ ops, j < op.chunk) (i : Nat) :
    columnsSum (W.set j x) i columns = columnsSum W i columns := by
  induction columns generalizing i with
  | nil => rfl
  | cons ops rest ih =>
      rw [columnsSum, columnsSum, ih (fun ops hops => h ops (List.mem_cons_of_mem _ hops)),
        foldl_chunkStep_set x hj (h ops List.mem_cons_self)]

theorem lastChunk_length (W : List UInt32) (i : Nat) (cur : UInt32) (c : Int)
    (hi : i + 2 ≤ W.length) : (lastChunk W i cur c).length = W.length := by
  simp only [lastChunk, List.length_append, List.length_take, List.length_set,
    List.length_replicate]
  omega

/-- What `LAST` leaves: the chunks, and the carry above them when it is not below zero. -/
theorem chunksValue_lastChunk {W : List UInt32} {i : Nat} (cur : UInt32) {c : Int}
    (hi : i + 2 ≤ W.length) (hc : c < 2 ^ 31) :
    chunksValue (lastChunk W i cur c) =
      lowChunks (W.set i cur) (i + 1) + 2 ^ (32 * (i + 1)) * max c 0 := by
  have hat (j : Nat) : chunkAt (lastChunk W i cur c) j =
      if j < i + 2 then
        chunkAt ((W.set i cur).set (i + 1) (if c > 0 then UInt32.ofNat c.toNat else 0)) j
      else 0 := by
    simp only [chunkAt, lastChunk, List.getD_eq_getElem?_getD]
    by_cases hj : j < i + 2
    · rw [if_pos hj, List.getElem?_append_left, List.getElem?_take_of_lt hj]
      simp only [List.length_take, List.length_set]
      omega
    · rw [if_neg hj, List.getElem?_append_right, List.getElem?_replicate]
      · split_ifs <;> rfl
      · simp only [List.length_take, List.length_set]
        omega
  have htop : ((if c > 0 then UInt32.ofNat c.toNat else 0 : UInt32).toNat : Int) = max c 0 := by
    split
    · rw [UInt32.toNat_ofNat', Nat.mod_eq_of_lt (by omega)]
      omega
    · simp only [UInt32.toNat_zero]
      omega
  have hset : i + 1 < (W.set i cur).length := by
    rw [List.length_set]
    omega
  obtain ⟨m, hm⟩ := Nat.exists_eq_add_of_le hi
  have hrest : chunksValue (lastChunk W i cur c) = lowChunks (lastChunk W i cur c) (i + 2) := by
    rw [chunksValue, lastChunk_length W i cur c hi, hm, lowChunks, Finset.sum_range_add,
      Finset.sum_eq_zero (s := Finset.range m), add_zero]
    intro j _
    rw [hat, if_neg (by omega)]
    simp
  rw [hrest, lowChunks_succ, hat (i + 1), if_pos (by omega),
    chunkAt_set _ _ _ _ hset, if_pos rfl, htop]
  congr 1
  refine lowChunks_congr fun j hj => ?_
  rw [hat, if_pos (by omega), chunkAt_set _ _ _ _ hset, if_neg (by omega)]

/-- The columns add what their lines say, each at its place. -/
theorem modColumns_value {columns : List (List ChunkOp)} {W : List UInt32} {i : Nat}
    (cur : UInt32) {c : Int} (hne : columns ≠ [])
    (hlen : i + columns.length < W.length)
    (hshort : ∀ ops ∈ columns, ops.length ≤ 126)
    (hup : ∀ ops ∈ columns, ∀ op ∈ ops, i + columns.length ≤ op.chunk)
    (hc : -1 ≤ c ∧ c ≤ 1) :
    chunksValue (modColumns W i cur c columns).1 +
        2 ^ (32 * (i + columns.length)) * min (modColumns W i cur c columns).2 0 =
      lowChunks (W.set i cur) (i + columns.length) + 2 ^ (32 * (i + 1)) * c +
        columnsSum W i columns := by
  induction columns generalizing W i cur c with
  | nil => exact absurd rfl hne
  | cons ops rest ih =>
      have hval := foldl_chunkStep W ops (cur, c)
      have hcarry := foldl_chunkStep_carry W ops (cur, c)
      have hops := hshort ops List.mem_cons_self
      set s := ops.foldl (chunkStep W) (cur, c) with hs
      have hi : i < W.length := by
        rw [List.length_cons] at hlen
        omega
      have hpow : (2 : Int) ^ (32 * (i + 1)) = 2 ^ (32 * i) * 2 ^ 32 := by
        rw [← pow_add]
        rfl
      cases rest with
      | nil =>
          have hlast := chunksValue_lastChunk (W := W) (i := i) s.1 (c := s.2)
            hlen (by simp only at hcarry; omega)
          have hset := lowChunks_set (W := W) (k := i + 1) s.1 hi
          have hset' := lowChunks_set (W := W) (k := i + 1) cur hi
          rw [if_pos (Nat.lt_succ_self i)] at hset hset'
          have hmax : max s.2 0 + min s.2 0 = s.2 := by omega
          simp only [modColumns, ← hs, columnsSum, List.length_cons, List.length_nil, add_zero,
            Nat.zero_add]
          rw [hlast, hset, hset', hpow]
          simp only at hval
          linear_combination 2 ^ (32 * i) * hval + 2 ^ (32 * i) * 2 ^ 32 * hmax
      | cons next rest =>
          have hsmall : -2 ^ 31 < s.2 ∧ s.2 < 2 ^ 31 := by
            simp only at hcarry
            omega
          obtain ⟨hnext, hlow, hhigh⟩ := carryInto_value (chunkAt (W.set i s.1) (i + 1)) hsmall
          have hlen' : i + 1 < (W.set i s.1).length := by
            simp only [List.length_cons, List.length_set] at hlen ⊢
            omega
          have htail := ih (W := W.set i s.1) (i := i + 1)
            (carryInto (chunkAt (W.set i s.1) (i + 1)) s.2).1
            (c := (carryInto (chunkAt (W.set i s.1) (i + 1)) s.2).2) (by simp)
            (by simp only [List.length_cons, List.length_set] at hlen ⊢; omega)
            (fun ops hops => hshort ops (List.mem_cons_of_mem _ hops))
            (fun ops hops op hop => by
              have := hup ops (List.mem_cons_of_mem _ hops) op hop
              simp only [List.length_cons] at this ⊢
              omega)
            ⟨hlow, hhigh⟩
          have hfix : ∀ ops ∈ next :: rest, ∀ op ∈ ops, i < op.chunk := fun ops hops op hop => by
            have := hup ops (List.mem_cons_of_mem _ hops) op hop
            simp only [List.length_cons] at this
            omega
          rw [columnsSum_set s.1 hi hfix, lowChunks_set _ hlen', lowChunks_set _ hi,
            if_pos (by simp only [List.length_cons]; omega),
            if_pos (by simp only [List.length_cons]; omega)] at htail
          have hlong : i + (ops :: next :: rest).length = i + 1 + (next :: rest).length := by
            simp only [List.length_cons]
            omega
          have hpow' : (2 : Int) ^ (32 * (i + 1 + 1)) = 2 ^ (32 * i) * 2 ^ 32 * 2 ^ 32 := by
            rw [← pow_add, ← pow_add]
            rfl
          simp only [modColumns, ← hs]
          rw [columnsSum, hlong, htail, lowChunks_set _ hi,
            if_pos (by simp only [List.length_cons]; omega), hpow, hpow']
          simp only at hval
          linear_combination 2 ^ (32 * i) * hval + 2 ^ (32 * i) * 2 ^ 32 * hnext

/-! ## What a chunk comes to -/

/-- How often a column adds a chunk, less how often it subtracts it. -/
def ChunkOp.count (j : Nat) : ChunkOp → Int
  | .add j' => if j' = j then 1 else 0
  | .sub j' => if j' = j then -1 else 0

/-- What chunk `j` comes to over all the columns. -/
def chunkWeight (j : Nat) : Nat → List (List ChunkOp) → Int
  | _, [] => 0
  | i, ops :: rest => 2 ^ (32 * i) * (ops.map (·.count j)).sum + chunkWeight j (i + 1) rest

/-- The columns take each chunk of the upper half for what it is worth. -/
structure Worth (columns : List (List ChunkOp)) (P : Nat) : Prop where
  columns_ne : columns ≠ []
  bits : mpiMsb P = 32 * columns.length
  short : ∀ ops ∈ columns, ops.length ≤ 126
  upper : ∀ ops ∈ columns, ∀ op ∈ ops,
    columns.length ≤ op.chunk ∧ op.chunk < columns.length + columns.length
  worth : ∀ l < columns.length, (P : Int) ∣
    2 ^ (32 * (columns.length + l)) - chunkWeight (columns.length + l) 0 columns

theorem columnSum_eq (W : List UInt32) {ops : List ChunkOp} {k m : Nat}
    (h : ∀ op ∈ ops, k ≤ op.chunk ∧ op.chunk < k + m) :
    columnSum W ops = ∑ l ∈ Finset.range m,
      ((chunkAt W (k + l)).toNat : Int) * (ops.map (·.count (k + l))).sum := by
  induction ops with
  | nil => simp [columnSum]
  | cons op ops ih =>
      have hop := h op List.mem_cons_self
      have hone (x : Int) (j : Nat) (hj : k ≤ j ∧ j < k + m) :
          ∑ l ∈ Finset.range m, ((chunkAt W (k + l)).toNat : Int) *
            (if j = k + l then x else 0) = (chunkAt W j).toNat * x := by
        rw [Finset.sum_eq_single (j - k)]
        · rw [if_pos (by omega), show k + (j - k) = j by omega]
        · intro l _ hl
          rw [if_neg (by omega), mul_zero]
        · intro hl
          simp only [Finset.mem_range] at hl
          omega
      have hrest := ih fun op hop => h op (List.mem_cons_of_mem _ hop)
      simp only [columnSum, List.map_cons, List.sum_cons, mul_add, Finset.sum_add_distrib]
        at hrest ⊢
      rw [hrest]
      congr 1
      cases op with
      | add j =>
          simp only [ChunkOp.count]
          rw [hone 1 j hop, mul_one]
      | sub j =>
          simp only [ChunkOp.count]
          rw [hone (-1) j hop, mul_neg, mul_one]

theorem columnsSum_eq (W : List UInt32) {columns : List (List ChunkOp)} {k m : Nat}
    (h : ∀ ops ∈ columns, ∀ op ∈ ops, k ≤ op.chunk ∧ op.chunk < k + m) (i : Nat) :
    columnsSum W i columns = ∑ l ∈ Finset.range m,
      ((chunkAt W (k + l)).toNat : Int) * chunkWeight (k + l) i columns := by
  induction columns generalizing i with
  | nil => simp [columnsSum, chunkWeight]
  | cons ops rest ih =>
      rw [columnsSum, columnSum_eq W (h ops List.mem_cons_self),
        ih (fun ops hops => h ops (List.mem_cons_of_mem _ hops)), Finset.mul_sum,
        ← Finset.sum_add_distrib]
      refine Finset.sum_congr rfl fun l _ => ?_
      rw [chunkWeight]
      ring

theorem nistMod_eq {columns : List (List ChunkOp)} {P : Nat} (hw : Worth columns P)
    {W : List UInt32} (hlen : columns.length < W.length) :
    nistMod columns W = lowChunks W columns.length + columnsSum W 0 columns := by
  have hval := modColumns_value (W := W) (i := 0) (chunkAt W 0) (c := 0) hw.columns_ne
    (by omega) hw.short (fun ops hops op hop => by
      have := (hw.upper ops hops op hop).1
      omega) (by omega)
  rw [lowChunks_set _ (by omega), sub_self, mul_zero, ite_self, mul_zero, add_zero, add_zero,
    Nat.zero_add] at hval
  rw [← hval]
  simp only [nistMod]
  split
  · next hneg =>
      rw [min_eq_left (by omega)]
      ring
  · next hpos =>
      rw [min_eq_right (by omega)]
      ring

/-- The fast reduction keeps the number modulo the prime. -/
theorem nistMod_dvd {columns : List (List ChunkOp)} {P : Nat} (hw : Worth columns P)
    {W : List UInt32} (hlen : columns.length < W.length) :
    (P : Int) ∣ lowChunks W (columns.length + columns.length) - nistMod columns W := by
  rw [nistMod_eq hw hlen, columnsSum_eq W hw.upper, lowChunks, Finset.sum_range_add, ← lowChunks,
    add_sub_add_left_eq_sub, ← Finset.sum_sub_distrib]
  refine Finset.dvd_sum fun l hl => ?_
  rw [show ∀ x y z : Int, x * y - y * z = y * (x - z) from fun x y z => by ring]
  exact Dvd.dvd.mul_left (hw.worth l (Finset.mem_range.1 hl)) _

theorem lowChunks_chunksOf (n : Nat) {k m : Nat} (hk : k ≤ m) :
    lowChunks (chunksOf n m) k = ((n % 2 ^ (32 * k) : Nat) : Int) := by
  induction k with
  | zero => simp [lowChunks, Nat.mod_one]
  | succ k ih =>
      rw [lowChunks_succ, ih (by omega)]
      have hat : chunkAt (chunksOf n m) k = UInt32.ofNat (n / 2 ^ (32 * k)) := by
        simp [chunkAt, chunksOf, List.getD_eq_getElem?_getD, show k < m by omega]
      rw [hat, UInt32.toNat_ofNat', show 32 * (k + 1) = 32 * k + 32 by ring, pow_add,
        Nat.mod_mul]
      push_cast
      ring

/-! ## The loops at the end -/

theorem addWhileNegative_spec {P : Nat} (hP : 0 < P) {fuel : Nat} {x : Int}
    (h : -x ≤ fuel) :
    0 ≤ addWhileNegative P fuel x ∧ (P : Int) ∣ addWhileNegative P fuel x - x := by
  induction fuel generalizing x with
  | zero => exact ⟨by simpa [addWhileNegative] using h, by simp [addWhileNegative]⟩
  | succ fuel ih =>
      rw [addWhileNegative]
      split
      · obtain ⟨hpos, hdvd⟩ := ih (x := x + P) (by push_cast at h; omega)
        refine ⟨hpos, ?_⟩
        have := dvd_add hdvd (dvd_refl (P : Int))
        rwa [show ∀ y : Int, y - (x + P) + P = y - x from fun y => by ring] at this
      · exact ⟨by omega, by simp⟩

theorem subWhileAbove_eq {P : Nat} (hP : 0 < P) {fuel : Nat} {x : Int}
    (hx : 0 ≤ x) (h : x ≤ fuel) : subWhileAbove P fuel x = x % P := by
  induction fuel generalizing x with
  | zero =>
      have hx0 : x = 0 := by omega
      simp [subWhileAbove, hx0]
  | succ fuel ih =>
      rw [subWhileAbove]
      split
      · rw [ih (by omega) (by push_cast at h; omega), Int.sub_emod_right]
      · exact (Int.emod_eq_of_lt hx (by omega)).symm

theorem lt_mpiMsb_iff (x : Int) (b : Nat) : b < mpiMsb x ↔ 2 ^ b ≤ x.natAbs := by
  rw [mpiMsb]
  split
  · next h => simp [h]
  · next h => rw [Nat.lt_succ_iff, Nat.le_log2 (by omega)]

/-- Where the table of chunks is right, `ecp_modp` is the remainder. -/
theorem ecpModp_eq {columns : List (List ChunkOp)} {P : Nat} (hw : Worth columns P) (N : Int) :
    ecpModp columns P N =
      if N < 0 ∨ 2 ^ (32 * (2 * columns.length)) ≤ N then .error .ecpBadInputData
      else .ok (N % P) := by
  have hk := List.length_pos_iff.2 hw.columns_ne
  have hP : 0 < P := by
    have := (lt_mpiMsb_iff (P : Int) 0).1 (by rw [hw.bits]; omega)
    simp only [pow_zero, Int.natAbs_natCast] at this
    omega
  have hfit : mpiMsb N > 2 * mpiMsb P ↔ 2 ^ (32 * (2 * columns.length)) ≤ N.natAbs := by
    rw [gt_iff_lt, lt_mpiMsb_iff, hw.bits, Nat.mul_left_comm]
  rw [ecpModp]
  by_cases hneg : N < 0
  · rw [if_pos (.inl hneg), if_pos (.inl hneg)]
  · have habs : ((N.natAbs : Nat) : Int) = N := by omega
    have hiff : (N < 0 ∨ mpiMsb N > 2 * mpiMsb P) ↔
        N < 0 ∨ (2 : Int) ^ (32 * (2 * columns.length)) ≤ N := by
      rw [hfit, ← Int.ofNat_le, habs]
      push_cast
      rfl
    simp only [hiff]
    split
    · rfl
    · next hok =>
        have hlt : N.toNat < 2 ^ (32 * (2 * columns.length)) := by
          have : ((N.toNat : Nat) : Int) < ((2 ^ (32 * (2 * columns.length)) : Nat) : Int) := by
            push_cast
            omega
          omega
        have hlow : lowChunks (chunksOf N.toNat (2 * columns.length))
            (columns.length + columns.length) = N := by
          rw [← Nat.two_mul, lowChunks_chunksOf _ (Nat.le_refl _), Nat.mod_eq_of_lt hlt]
          omega
        have hdvd := nistMod_dvd hw (W := chunksOf N.toNat (2 * columns.length)) (by
          simp only [chunksOf, List.length_map, List.length_range]
          omega)
        rw [hlow] at hdvd
        set r := nistMod columns (chunksOf N.toNat (2 * columns.length))
        obtain ⟨hr, hadd⟩ := addWhileNegative_spec hP (show -r ≤ r.natAbs by omega)
        set t := addWhileNegative P r.natAbs r
        show Except.ok (subWhileAbove P t.natAbs t) = _
        rw [subWhileAbove_eq hP hr (by omega)]
        congr 1
        have hsame : t ≡ N [ZMOD P] := by
          refine Int.modEq_iff_dvd.2 ?_
          rw [show N - t = (N - r) - (t - r) by ring]
          exact Int.dvd_sub hdvd hadd
        exact hsame

/-! ## The three primes -/

def secp224r1P : List UInt8 :=
  [0x01, 0x00, 0x00, 0x00, 0x00, 0x00, 0x00, 0x00,
   0x00, 0x00, 0x00, 0x00, 0xFF, 0xFF, 0xFF, 0xFF,
   0xFF, 0xFF, 0xFF, 0xFF, 0xFF, 0xFF, 0xFF, 0xFF,
   0xFF, 0xFF, 0xFF, 0xFF, 0x00, 0x00, 0x00, 0x00]

def secp384r1P : List UInt8 :=
  [0xFF, 0xFF, 0xFF, 0xFF, 0x00, 0x00, 0x00, 0x00,
   0x00, 0x00, 0x00, 0x00, 0xFF, 0xFF, 0xFF, 0xFF,
   0xFE, 0xFF, 0xFF, 0xFF, 0xFF, 0xFF, 0xFF, 0xFF,
   0xFF, 0xFF, 0xFF, 0xFF, 0xFF, 0xFF, 0xFF, 0xFF,
   0xFF, 0xFF, 0xFF, 0xFF, 0xFF, 0xFF, 0xFF, 0xFF,
   0xFF, 0xFF, 0xFF, 0xFF, 0xFF, 0xFF, 0xFF, 0xFF]

/-- The curves whose function reduces in chunks of 32 bits. -/
inductive NistCurve
  | secp224r1
  | secp256r1
  | secp384r1
  deriving DecidableEq, Repr

namespace NistCurve

/-- `NIST_MODP`: the function of the prime. -/
def columns : NistCurve → List (List ChunkOp)
  | .secp224r1 => modP224
  | .secp256r1 => modP256
  | .secp384r1 => modP384

def P : NistCurve → Nat
  | .secp224r1 => ecpMpiLoad secp224r1P
  | .secp256r1 => ecpMpiLoad secp256r1P
  | .secp384r1 => ecpMpiLoad secp384r1P

def pbits : NistCurve → Nat
  | .secp224r1 => 224
  | .secp256r1 => 256
  | .secp384r1 => 384

theorem columns_length (q : NistCurve) : 32 * q.columns.length = q.pbits := by
  cases q <;> rfl

theorem worth (q : NistCurve) : Worth q.columns q.P := by
  cases q <;> constructor <;> decide +kernel

/-- What the three functions of the primes and the loops after them come to: the
remainder of every number of at most twice the bits of the prime. -/
theorem ecpModp_remainder (q : NistCurve) (N : Int) :
    ecpModp q.columns q.P N =
      if N < 0 ∨ 2 ^ (2 * q.pbits) ≤ N then .error .ecpBadInputData else .ok (N % q.P) := by
  rw [ecpModp_eq q.worth, ← q.columns_length, Nat.mul_left_comm]

theorem P_le (q : NistCurve) : q.P ≤ 2 ^ q.pbits := by
  have hlt := lt_pow_mpiMsb (q.P : Int)
  rw [q.worth.bits, q.columns_length, Int.natAbs_natCast] at hlt
  exact hlt.le

/-- A product of two coordinates fits. -/
theorem ecpModp_mul (q : NistCurve) {x y : Int} (hx : 0 ≤ x ∧ x < q.P) (hy : 0 ≤ y ∧ y < q.P) :
    ecpModp q.columns q.P (x * y) = .ok (x * y % q.P) := by
  have hP : (q.P : Int) ≤ 2 ^ q.pbits := by
    have := q.P_le
    exact_mod_cast this
  have hlt : x * y < 2 ^ (2 * q.pbits) := by
    rw [Nat.two_mul, pow_add]
    exact lt_of_lt_of_le (mul_lt_mul'' hx.2 hy.2 hx.1 hy.1)
      (mul_le_mul hP hP (by positivity) (by positivity))
  rw [ecpModp_eq q.worth, Nat.mul_left_comm, q.columns_length, if_neg]
  have := mul_nonneg hx.1 hy.1
  omega

end NistCurve

end LibSmoke
