import LibSmoke.Lib.Runs
import Mathlib.Data.List.Sort
import Mathlib.Data.List.Induction
import Mathlib.Data.UInt
import Mathlib.Data.List.FinRange

/-!
# The timing report

`Benchmark` keeps a table of what ran from when to when, counted from the time
`init` was called, and `print` draws a chart of it with a line of 80 columns for
each benchmark. The scale of the chart is made of the first start and the last
end. The loop that looks for the first start takes 0 for none yet, though an
entry whose start was before `init` does start at 0 (`diff_toNat`): what it finds
is the first start only when no entry starts at 0 or the last one does
(`starttime_le_iff`). A chart is drawn to scale as long as it covers no more than seven
years (`column_to_scale`, `last_column_lt`).

Reading the clock is the one thing that is not here. Its readings come with the
calls, as counts that the signed type of their difference can hold, and what is
shown about the tables of a run is shown for a clock that does not go back.
-/

namespace LibSmoke

namespace Timing

/-! ## The clock -/

/-- A reading of the clock. -/
structure Timespec where
  sec : Nat
  nsec : Nat
  nsec_lt : nsec < 1000000000
  fits : sec * 1000000000 + nsec < 2 ^ 63

def Timespec.nanos (t : Timespec) : Nat := t.sec * 1000000000 + t.nsec

def Timespec.zero : Timespec := ⟨0, 0, by decide, by decide⟩

/-- `diff`. -/
def diff (start stop : Timespec) : UInt64 :=
  if stop.sec < start.sec ∨ stop.sec = start.sec ∧ stop.nsec < start.nsec then 0
  else if stop.nsec ≥ start.nsec then
    UInt64.ofNat ((stop.sec - start.sec) * 1000000000 + (stop.nsec - start.nsec))
  else
    UInt64.ofNat ((stop.sec - start.sec - 1) * 1000000000 +
      (1000000000 + stop.nsec - start.nsec))

/-- What is before the reference is at the reference. -/
theorem diff_toNat (start stop : Timespec) :
    (diff start stop).toNat = stop.nanos - start.nanos := by
  have hstart := start.nsec_lt
  have hstop := stop.nsec_lt
  have hfits := stop.fits
  have hlt : stop.nanos - start.nanos < 2 ^ 64 := by
    rw [Timespec.nanos]
    omega
  have hof := UInt64.toNat_ofNat_of_lt' hlt
  simp only [Timespec.nanos] at hof ⊢
  rw [diff]
  split
  · rw [UInt64.toNat_zero]
    omega
  · split
    · have hval : (stop.sec - start.sec) * 1000000000 + (stop.nsec - start.nsec) =
          stop.sec * 1000000000 + stop.nsec - (start.sec * 1000000000 + start.nsec) := by
        omega
      rw [hval, hof]
    · have hval : (stop.sec - start.sec - 1) * 1000000000 +
          (1000000000 + stop.nsec - start.nsec) =
          stop.sec * 1000000000 + stop.nsec - (start.sec * 1000000000 + start.nsec) := by
        omega
      rw [hval, hof]

theorem diff_le {start a b : Timespec} (h : a.nanos ≤ b.nanos) :
    diff start a ≤ diff start b := by
  rw [UInt64.le_iff_toNat_le, diff_toNat, diff_toNat]
  omega

/-! ## The table -/

/-- `benchmark_str`. -/
def benchmarkStr : List String :=
  ["bd1_compute_key", "bd1_gen_point", "bd1_gen_value", "bd1_init", "bd2_calc_key",
    "bd2_export_key", "bd2_import_val", "bd2_init", "bd2_make_key", "bd2_make_public",
    "bd2_make_val", "bd2_read_public", "gdh2_compute_key", "gdh2_export_key", "gdh2_init",
    "gdh2_make_firstval", "gdh2_make_val", "mka_acc_broadval", "mka_compute_key",
    "mka_init", "mka_make_broadval", "mka_set_part", "pktwrapper_packetize",
    "pktwrapper_recompose", "tcp_waiting", "tcp_read", "uart_writing", "uart_waiting",
    "uart_read", "counter_init", "counter_counting", "keyexchange_running",
    "total_exchange_time"]

/-- `BMARK_SIZE`. -/
def bmarkSize : Nat := 33

/-- `benchmark_enum`. -/
abbrev BenchmarkEnum := Fin bmarkSize

/-- `EE_bd1_compute_key`. -/
def eeBd1ComputeKey : BenchmarkEnum := ⟨0, by decide⟩

/-- `EE_bd1_gen_point`. -/
def eeBd1GenPoint : BenchmarkEnum := ⟨1, by decide⟩

/-- `timetable_t`, with `stop` for its `end`. -/
structure TimetableT where
  id : BenchmarkEnum
  start : UInt64
  stop : UInt64
  deriving DecidableEq

/-- What `Benchmark` keeps, and the last reading of the clock. -/
structure Benchmark where
  clock : Timespec
  starttimes : BenchmarkEnum → Timespec
  tableReference : Timespec
  table : List TimetableT

inductive Call where
  | init
  | start (id : BenchmarkEnum)
  | store (id : BenchmarkEnum)

namespace Benchmark

/-- Before the first call. -/
def new : Benchmark := ⟨.zero, fun _ => .zero, .zero, []⟩

/-- A call that reads `now` from the clock. -/
def call (b : Benchmark) : Call × Timespec → Benchmark
  | (.init, now) => { b with clock := now, tableReference := now }
  | (.start id, now) =>
      { b with clock := now, starttimes := Function.update b.starttimes id now }
  | (.store id, now) =>
      let t : TimetableT :=
        ⟨id, diff b.tableReference (b.starttimes id), diff b.tableReference now⟩
      { b with clock := now, table := b.table ++ [t] }

/-- The clock does not go back. -/
def Steady (b : Benchmark) (x : Call × Timespec) : Prop := b.clock.nanos ≤ x.2.nanos

instance (b : Benchmark) (x : Call × Timespec) : Decidable (b.Steady x) :=
  inferInstanceAs (Decidable (_ ≤ _))

def run (calls : List (Call × Timespec)) : Benchmark := Runs.run call new calls

/-- No start is ahead of the clock, and no entry ends before it starts. -/
structure InOrder (b : Benchmark) : Prop where
  behind : ∀ id, (b.starttimes id).nanos ≤ b.clock.nanos
  ordered : ∀ t ∈ b.table, t.start ≤ t.stop

theorem InOrder.call {b : Benchmark} (h : b.InOrder) {x : Call × Timespec}
    (hx : b.Steady x) : (b.call x).InOrder := by
  obtain ⟨c, now⟩ := x
  have hlater : ∀ id, (b.starttimes id).nanos ≤ now.nanos := fun id => (h.behind id).trans hx
  cases c with
  | init => exact ⟨hlater, h.ordered⟩
  | start id =>
      refine ⟨fun i => ?_, h.ordered⟩
      by_cases hi : i = id
      · rw [hi]
        simp [Benchmark.call]
      · simpa [Benchmark.call, Function.update_of_ne hi] using hlater i
  | store id =>
      refine ⟨hlater, fun t ht => ?_⟩
      rcases List.mem_append.mp ht with ht | ht
      · exact h.ordered t ht
      · rw [List.mem_singleton.mp ht]
        exact diff_le (hlater id)

/-- Of a run with a clock that does not go back. -/
theorem inOrder_run {calls : List (Call × Timespec)}
    (hclock : Runs.Meets call Steady new calls) : (run calls).InOrder :=
  Runs.Meets.inv (I := InOrder) (fun _ _ h hx => h.call hx) ⟨fun _ => le_refl _, nofun⟩ hclock

end Benchmark

/-! ## The report -/

/-- What the first loop of `print` adds up. -/
structure Totals where
  sum : BenchmarkEnum → UInt64
  starttime : UInt64
  endtime : UInt64

def Totals.visit (s : Totals) (t : TimetableT) : Totals where
  sum := Function.update s.sum t.id (s.sum t.id + (t.stop - t.start))
  endtime := if t.stop > s.endtime then t.stop else s.endtime
  starttime := if t.start < s.starttime ∨ s.starttime = 0 then t.start else s.starttime

def totals (table : List TimetableT) : Totals :=
  table.foldl Totals.visit ⟨fun _ => 0, 0, 0⟩

/-- The column of a time, unless the scale divides by zero. -/
def column (s : Totals) (x : UInt64) : Option UInt32 :=
  if s.endtime - s.starttime = 0 then none
  else some ((x - s.starttime) * 80 / (s.endtime - s.starttime)).toUInt32

/-- Stars on the `n` places from `k` on, unless one is outside the array. -/
def stars : List Char → Nat → Nat → Option (List Char)
  | line, _, 0 => some line
  | line, k, n + 1 =>
      if k < line.length then stars (line.set k '*') (k + 1) n else none

/-- One entry on its line. -/
def draw (s : Totals) (line : List Char) (t : TimetableT) : Option (List Char) := do
  let a ← column s t.start
  let b ← column s t.stop
  if a = b then
    let c ← (line)[a.toNat]?
    if c = ' ' then some (line.set a.toNat '.') else some line
  else stars line a.toNat (b.toNat - a.toNat)

/-- An empty line, with the byte that ends it. -/
def blank : List Char := List.replicate 80 ' ' ++ ['\x00']

def padLeft (n : Nat) (c : Char) (s : String) : String :=
  "".pushn c (n - s.length) ++ s

/-- The line of one benchmark, if it has an entry. -/
def chartLine (s : Totals) (table : List TimetableT) (i : BenchmarkEnum) : Option String := do
  let entries := table.filter (·.id = i)
  let line ← entries.foldlM (draw s) blank
  if entries = [] then some ""
  else some (padLeft 20 ' ' (benchmarkStr.getD i.val "") ++ " |" ++
    String.ofList (line.take 80) ++ "|\n")

/-- The line over the chart, with the time it covers. -/
def header (s : Totals) : String :=
  let num := (padLeft 20 '0' ((s.endtime - s.starttime) / 1000).toNat.repr).toList
  let zeros := num.takeWhile (· = '0')
  "____Timing report____" ++ "0" ++ "".pushn '_' (80 - 23) ++
    String.ofList (zeros.map (fun _ => '_') ++ num.drop zeros.length) ++ " us+\n"

/-- The sums, the smallest first; of equal ones the queue fixes no order. -/
def stats (s : Totals) : List String :=
  let data := (List.finRange bmarkSize).insertionSort fun i j => s.sum i ≤ s.sum j
  let long := data.filter fun i => s.sum i / 1000 > 0
  long.map fun i => padLeft 17 ' ' (s.sum i / 1000).toNat.repr ++ " us : " ++
    benchmarkStr.getD i.val "" ++ "\n"

/-- `print`, unless it divides by zero or leaves a line. -/
def print (table : List TimetableT) : Option String := do
  let s := totals table
  let chart ← (List.finRange bmarkSize).mapM (chartLine s table)
  some (header s ++ String.join chart ++ "".pushn '-' (80 + 23) ++ "\n" ++
    String.join (stats s))

/-! ## The first start and the last end -/

variable {table : List TimetableT} {t : TimetableT}

theorem totals_concat (table : List TimetableT) (t : TimetableT) :
    totals (table ++ [t]) = (totals table).visit t :=
  List.foldl_concat ..

theorem starttime_concat_eq_zero :
    (totals (table ++ [t])).starttime = 0 ↔ t.start = 0 := by
  rw [totals_concat, Totals.visit]
  dsimp only
  split
  · exact Iff.rfl
  · next hkeep =>
      obtain ⟨hlt, hset⟩ := not_or.mp hkeep
      refine iff_of_false hset fun hzero => hlt ?_
      rw [hzero]
      exact UInt64.pos_iff_ne_zero.mpr hset

/-- Where no entry starts at 0 the mark is not one of the starts. -/
theorem starttime_le (hzero : ∀ t ∈ table, t.start ≠ 0) :
    ∀ t ∈ table, (totals table).starttime ≤ t.start := by
  induction table using List.reverseRecOn with
  | nil => exact nofun
  | append_singleton table t ih =>
      rw [List.forall_mem_append] at hzero
      have ih := ih hzero.1
      have hset : table ≠ [] → (totals table).starttime ≠ 0 := by
        intro hne
        rcases List.eq_nil_or_concat table with rfl | ⟨l, u, rfl⟩
        · exact absurd rfl hne
        · rw [List.concat_eq_append, ne_eq, starttime_concat_eq_zero]
          exact hzero.1 u (by simp)
      rw [totals_concat, Totals.visit]
      dsimp only
      rw [List.forall_mem_append, List.forall_mem_singleton]
      split
      · next htake =>
          refine ⟨fun u hu => ?_, UInt64.le_refl _⟩
          have hlt := htake.resolve_right (hset (List.ne_nil_of_mem hu))
          exact UInt64.le_trans (UInt64.le_of_lt hlt) (ih u hu)
      · next hkeep => exact ⟨ih, UInt64.not_lt.mp (not_or.mp hkeep).1⟩

theorem starttime_mem (hne : table ≠ []) :
    ∃ t ∈ table, t.start = (totals table).starttime := by
  induction table using List.reverseRecOn with
  | nil => exact absurd rfl hne
  | append_singleton table t ih =>
      rw [totals_concat, Totals.visit]
      dsimp only
      split
      · exact ⟨t, by simp, rfl⟩
      · next hkeep =>
          have hset := (not_or.mp hkeep).2
          have hnil : table ≠ [] := by
            rintro rfl
            exact hset rfl
          obtain ⟨u, hu, hstart⟩ := ih hnil
          exact ⟨u, List.mem_append_left _ hu, hstart⟩

theorem stop_le_endtime : ∀ t ∈ table, t.stop ≤ (totals table).endtime := by
  induction table using List.reverseRecOn with
  | nil => exact nofun
  | append_singleton table t ih =>
      rw [totals_concat, Totals.visit, List.forall_mem_append, List.forall_mem_singleton]
      dsimp only
      split
      · next hgt =>
          exact ⟨fun u hu => UInt64.le_trans (ih u hu) (UInt64.le_of_lt hgt),
            UInt64.le_refl _⟩
      · next hle => exact ⟨ih, UInt64.not_lt.mp hle⟩

theorem endtime_mem (hne : table ≠ []) : ∃ t ∈ table, t.stop = (totals table).endtime := by
  induction table using List.reverseRecOn with
  | nil => exact absurd rfl hne
  | append_singleton table t ih =>
      rw [totals_concat, Totals.visit]
      dsimp only
      split
      · exact ⟨t, by simp, rfl⟩
      · next hle =>
          rcases eq_or_ne table [] with rfl | hnil
          · exact ⟨t, by simp, UInt64.le_antisymm (UInt64.not_lt.mp hle) (UInt64.zero_le)⟩
          · obtain ⟨u, hu, hstop⟩ := ih hnil
            exact ⟨u, List.mem_append_left _ hu, hstop⟩

/-- No entry starts at 0, or the last one does. -/
def MarkFree (table : List TimetableT) : Prop :=
  (∀ t ∈ table, t.start ≠ 0) ∨ ∃ t, table.getLast? = some t ∧ t.start = 0

/-- When what is found is a first start. -/
theorem starttime_le_iff (hne : table ≠ []) :
    (∀ t ∈ table, (totals table).starttime ≤ t.start) ↔ MarkFree table := by
  rcases List.eq_nil_or_concat table with rfl | ⟨l, u, rfl⟩
  · exact absurd rfl hne
  · rw [List.concat_eq_append, MarkFree, List.getLast?_concat]
    constructor
    · intro hle
      by_cases hu : u.start = 0
      · exact .inr ⟨u, rfl, hu⟩
      · refine .inl fun t ht hzero => hu ?_
        have h := hle t ht
        rw [hzero] at h
        exact starttime_concat_eq_zero.mp (UInt64.le_antisymm h UInt64.zero_le)
    · rintro (hzero | ⟨t, ht, hzero⟩)
      · exact starttime_le hzero
      · rw [← Option.some.inj ht] at hzero
        rw [starttime_concat_eq_zero.mpr hzero]
        exact fun _ _ => UInt64.zero_le

/-! ## Columns -/

/-- A distance on the scale of the chart, in 64 bits, for a chart that covers `d`. -/
theorem scaled_le {a d : Nat} (hd : 0 < d) (had : a ≤ d) : 80 * a % 2 ^ 64 / d ≤ 80 := by
  have hmod : 80 * a % 2 ^ 64 ≤ 80 * d := (Nat.mod_le _ _).trans (Nat.mul_le_mul_left 80 had)
  exact (Nat.div_le_div_right hmod).trans (Nat.mul_div_cancel 80 hd).le

/-- A time between the two ends has a column of the line. -/
theorem column_eq {s : Totals} {x : UInt64} (hspan : s.starttime < s.endtime)
    (hx : s.starttime ≤ x) (hx' : x ≤ s.endtime) :
    ∃ c, column s x = some c ∧ c ≤ 80 ∧ c.toNat =
      80 * (x.toNat - s.starttime.toNat) % 2 ^ 64 /
        (s.endtime.toNat - s.starttime.toNat) := by
  rw [UInt64.lt_iff_toNat_lt] at hspan
  have hle : s.starttime ≤ s.endtime := UInt64.le_trans hx hx'
  rw [UInt64.le_iff_toNat_le] at hx'
  have hd : (s.endtime - s.starttime).toNat = s.endtime.toNat - s.starttime.toNat :=
    UInt64.toNat_sub_of_le _ _ hle
  have hdivisor : s.endtime - s.starttime ≠ 0 := by
    intro hzero
    rw [hzero, UInt64.toNat_zero] at hd
    omega
  have hquot : ((x - s.starttime) * 80 / (s.endtime - s.starttime)).toNat =
      80 * (x.toNat - s.starttime.toNat) % 2 ^ 64 /
        (s.endtime.toNat - s.starttime.toNat) := by
    rw [UInt64.toNat_div, UInt64.toNat_mul, hd, UInt64.toNat_sub_of_le _ _ hx, Nat.mul_comm]
    rfl
  have hsmall := scaled_le (show 0 < s.endtime.toNat - s.starttime.toNat by omega)
    (show x.toNat - s.starttime.toNat ≤ s.endtime.toNat - s.starttime.toNat by omega)
  have hnat : ((x - s.starttime) * 80 / (s.endtime - s.starttime)).toUInt32.toNat =
      80 * (x.toNat - s.starttime.toNat) % 2 ^ 64 /
        (s.endtime.toNat - s.starttime.toNat) := by
    rw [UInt64.toNat_toUInt32, hquot, Nat.mod_eq_of_lt (by omega)]
  refine ⟨_, if_neg hdivisor, ?_, hnat⟩
  rw [UInt32.le_iff_toNat_le, hnat]
  exact hsmall

/-- The chart of a table stays inside its line: nothing is divided by zero, no
subtraction wraps, and every entry begins and ends in columns of the line. -/
structure Inside (table : List TimetableT) : Prop where
  span : (totals table).starttime ≤ (totals table).endtime
  divisor : (totals table).endtime - (totals table).starttime ≠ 0
  length : ∀ t ∈ table, t.start ≤ t.stop
  start : ∀ t ∈ table, (totals table).starttime ≤ t.start
  stop : ∀ t ∈ table, (totals table).starttime ≤ t.stop
  columns : ∀ t ∈ table, ∃ s e, column (totals table) t.start = some s ∧
    column (totals table) t.stop = some e ∧ s ≤ e ∧ e ≤ 80

def firstStart (table : List TimetableT) : Nat :=
  ((table.map (·.start.toNat)).min?).getD 0

def lastStop (table : List TimetableT) : Nat :=
  ((table.map (·.stop.toNat)).max?).getD 0

theorem firstStart_eq (ht : t ∈ table) (hle : ∀ u ∈ table, t.start ≤ u.start) :
    firstStart table = t.start.toNat := by
  have hmin : (table.map (·.start.toNat)).min? = some t.start.toNat := by
    rw [List.min?_eq_some_iff]
    refine ⟨List.mem_map_of_mem ht, fun n hn => ?_⟩
    obtain ⟨u, hu, rfl⟩ := List.mem_map.mp hn
    exact UInt64.le_iff_toNat_le.mp (hle u hu)
  rw [firstStart, hmin, Option.getD_some]

theorem lastStop_eq (ht : t ∈ table) (hle : ∀ u ∈ table, u.stop ≤ t.stop) :
    lastStop table = t.stop.toNat := by
  have hmax : (table.map (·.stop.toNat)).max? = some t.stop.toNat := by
    rw [List.max?_eq_some_iff]
    refine ⟨List.mem_map_of_mem ht, fun n hn => ?_⟩
    obtain ⟨u, hu, rfl⟩ := List.mem_map.mp hn
    exact UInt64.le_iff_toNat_le.mp (hle u hu)
  rw [lastStop, hmax, Option.getD_some]

/-- From the first start to the last end. -/
def spread (table : List TimetableT) : Nat := lastStop table - firstStart table

/-- Some start is not some end. -/
def Apart (table : List TimetableT) : Prop := ∃ t ∈ table, ∃ u ∈ table, t.start ≠ u.stop

/-- What a table has to be like: the first start is found, and the chart covers some
time, but not so much that a time on its scale passes 2^64. -/
structure Chartable (table : List TimetableT) : Prop where
  mark : MarkFree table
  apart : Apart table
  scale : 80 * spread table < 2 ^ 64

/-- What the loop finds in a table with a first start. -/
theorem totals_eq (hne : table ≠ []) (hmark : MarkFree table) :
    (totals table).starttime.toNat = firstStart table ∧
      (totals table).endtime.toNat = lastStop table := by
  have hle := (starttime_le_iff hne).mpr hmark
  obtain ⟨t, ht, hstart⟩ := starttime_mem hne
  obtain ⟨u, hu, hstop⟩ := endtime_mem hne
  rw [← hstart] at hle
  have hge : ∀ v ∈ table, v.stop ≤ (totals table).endtime := stop_le_endtime
  rw [← hstop] at hge
  rw [firstStart_eq ht hle, lastStop_eq hu hge, hstart, hstop]
  exact ⟨rfl, rfl⟩

section Chart

variable (hord : ∀ t ∈ table, t.start ≤ t.stop) (hmark : MarkFree table)

include hord hmark

/-- Every time of the table is between the two ends. -/
theorem between (ht : t ∈ table) :
    (totals table).starttime ≤ t.start ∧ t.start ≤ (totals table).endtime ∧
      (totals table).starttime ≤ t.stop ∧ t.stop ≤ (totals table).endtime := by
  have hstart := (starttime_le_iff (List.ne_nil_of_mem ht)).mpr hmark t ht
  have hstop := stop_le_endtime t ht
  exact ⟨hstart, UInt64.le_trans (hord t ht) hstop, UInt64.le_trans hstart (hord t ht), hstop⟩

theorem starttime_lt_endtime_iff (hne : table ≠ []) :
    (totals table).starttime < (totals table).endtime ↔ Apart table := by
  constructor
  · intro hlt
    obtain ⟨t, ht, hstart⟩ := starttime_mem hne
    obtain ⟨u, hu, hstop⟩ := endtime_mem hne
    refine ⟨t, ht, u, hu, fun heq => ?_⟩
    rw [← hstart, ← hstop, heq] at hlt
    exact UInt64.lt_irrefl _ hlt
  · rintro ⟨t, ht, u, hu, hne⟩
    have hfrom := between hord hmark ht
    have hto := between hord hmark hu
    by_contra hlt
    have hback := UInt64.not_lt.mp hlt
    refine hne (UInt64.le_antisymm ?_ ?_)
    · exact UInt64.le_trans hfrom.2.1 (UInt64.le_trans hback hto.2.2.1)
    · exact UInt64.le_trans hto.2.2.2 (UInt64.le_trans hback hfrom.1)

/-- The columns of an entry, of products in 64 bits. -/
theorem columns_eq (hspan : (totals table).starttime < (totals table).endtime)
    (ht : t ∈ table) :
    ∃ s e, column (totals table) t.start = some s ∧ column (totals table) t.stop = some e ∧
      e ≤ 80 ∧
      s.toNat = 80 * (t.start.toNat - firstStart table) % 2 ^ 64 / spread table ∧
      e.toNat = 80 * (t.stop.toNat - firstStart table) % 2 ^ 64 / spread table := by
  obtain ⟨hfrom, hfrom', hto, hto'⟩ := between hord hmark ht
  obtain ⟨hfirst, hlast⟩ := totals_eq (List.ne_nil_of_mem ht) hmark
  obtain ⟨s, hs, -, hsval⟩ := column_eq hspan hfrom hfrom'
  obtain ⟨e, he, hle, heval⟩ := column_eq hspan hto hto'
  rw [hfirst, hlast] at hsval heval
  exact ⟨s, e, hs, he, hle, hsval, heval⟩

/-- Where no product passes 2^64 the chart is drawn to scale. -/
theorem column_to_scale (hshort : 80 * spread table < 2 ^ 64)
    (hspan : (totals table).starttime < (totals table).endtime) (ht : t ∈ table) :
    ∃ s e, column (totals table) t.start = some s ∧ column (totals table) t.stop = some e ∧
      e ≤ 80 ∧ s.toNat = 80 * (t.start.toNat - firstStart table) / spread table ∧
      e.toNat = 80 * (t.stop.toNat - firstStart table) / spread table := by
  obtain ⟨-, hlast⟩ := totals_eq (List.ne_nil_of_mem ht) hmark
  have hbetween := between hord hmark ht
  have hfrom := UInt64.le_iff_toNat_le.mp hbetween.2.1
  have hto := UInt64.le_iff_toNat_le.mp hbetween.2.2.2
  rw [hlast] at hfrom hto
  obtain ⟨s, e, hs, he, hle, hsval, heval⟩ := columns_eq hord hmark hspan ht
  rw [spread] at hshort
  rw [Nat.mod_eq_of_lt (by omega)] at hsval heval
  exact ⟨s, e, hs, he, hle, hsval, heval⟩

/-- Where one does, it is that of the last end, which is then short of the last column. -/
theorem last_column_lt (hlong : 2 ^ 64 ≤ 80 * spread table)
    (hspan : (totals table).starttime < (totals table).endtime) (hne : table ≠ []) :
    ∃ t ∈ table, ∃ e, t.stop.toNat = lastStop table ∧
      column (totals table) t.stop = some e ∧ e < 80 := by
  obtain ⟨t, ht, hstop⟩ := endtime_mem hne
  obtain ⟨-, hlast⟩ := totals_eq hne hmark
  rw [← hstop] at hlast
  obtain ⟨-, e, -, he, -, -, heval⟩ := columns_eq hord hmark hspan ht
  refine ⟨t, ht, e, hlast, he, ?_⟩
  rw [UInt32.lt_iff_toNat_lt, heval, hlast]
  refine Nat.div_lt_of_lt_mul ?_
  rw [Nat.mul_comm (spread table)]
  exact lt_of_lt_of_le (Nat.mod_lt _ (by decide)) hlong

omit hmark in
/-- The chart of such a table stays inside its line. -/
theorem Chartable.inside (h : Chartable table) (hne : table ≠ []) : Inside table := by
  have hspan := (starttime_lt_endtime_iff hord h.mark hne).mpr h.apart
  have hbetween := fun u (hu : u ∈ table) => between hord h.mark hu
  refine ⟨UInt64.le_of_lt hspan, fun hzero => ?_, hord, fun t ht => (hbetween t ht).1,
    fun t ht => (hbetween t ht).2.2.1, fun t ht => ?_⟩
  · rw [sub_eq_zero.mp hzero] at hspan
    exact UInt64.lt_irrefl _ hspan
  · obtain ⟨s, e, hs, he, hle, hsval, heval⟩ :=
      column_to_scale hord h.mark h.scale hspan ht
    refine ⟨s, e, hs, he, ?_, hle⟩
    have hlen := UInt64.le_iff_toNat_le.mp (hord t ht)
    rw [UInt32.le_iff_toNat_le, hsval, heval]
    exact Nat.div_le_div_right (by omega)

omit hmark in
/-- What of it a chart inside its line cannot do without. -/
theorem Inside.mark_apart (h : Inside table) (hne : table ≠ []) :
    MarkFree table ∧ Apart table := by
  have hmark := (starttime_le_iff hne).mp h.start
  have hspan : (totals table).starttime < (totals table).endtime :=
    UInt64.lt_of_le_of_ne h.span fun heq => h.divisor (by rw [heq, UInt64.sub_self])
  exact ⟨hmark, (starttime_lt_endtime_iff hord hmark hne).mp hspan⟩

end Chart

/-- The charts of a run. In the tables that are left, which cover more than seven years,
the product for the last end passes 2^64. -/
theorem chart_inside (calls : List (Call × Timespec))
    (hclock : Runs.Meets Benchmark.call Benchmark.Steady Benchmark.new calls)
    (hne : (Benchmark.run calls).table ≠ []) :
    (Chartable (Benchmark.run calls).table → Inside (Benchmark.run calls).table) ∧
    (Inside (Benchmark.run calls).table →
      MarkFree (Benchmark.run calls).table ∧ Apart (Benchmark.run calls).table) ∧
    (MarkFree (Benchmark.run calls).table → Apart (Benchmark.run calls).table →
      2 ^ 64 ≤ 80 * spread (Benchmark.run calls).table →
      ∃ t ∈ (Benchmark.run calls).table, ∃ e,
        t.stop.toNat = lastStop (Benchmark.run calls).table ∧
        column (totals (Benchmark.run calls).table) t.stop = some e ∧ e < 80) := by
  have hord := (Benchmark.inOrder_run hclock).ordered
  refine ⟨fun h => h.inside hord hne, fun h => h.mark_apart hord hne,
    fun hmark hapart hlong => ?_⟩
  exact last_column_lt hord hmark hlong
    ((starttime_lt_endtime_iff hord hmark hne).mpr hapart) hne

theorem seconds_fits (n : UInt8) : n.toNat * 1000000000 + 0 < 2 ^ 63 := by
  have hn := n.toNat_lt
  omega

/-- A reading of whole seconds. -/
def seconds (n : UInt8) : Timespec := ⟨n.toNat, 0, by decide, seconds_fits n⟩

/-- Two benchmarks, one after the other. -/
def twoCalls : List (Call × Timespec) :=
  [(.init, seconds 1), (.start eeBd1ComputeKey, seconds 2),
    (.store eeBd1ComputeKey, seconds 3), (.start eeBd1GenPoint, seconds 3),
    (.store eeBd1GenPoint, seconds 5)]

theorem twoCalls_table : (Benchmark.run twoCalls).table =
    [⟨eeBd1ComputeKey, 1000000000, 2000000000⟩,
      ⟨eeBd1GenPoint, 2000000000, 4000000000⟩] := by
  decide +kernel

/-- Two benchmarks more than seven years apart. -/
def longCalls : List (Call × Timespec) :=
  [(.init, .zero), (.start eeBd1ComputeKey, ⟨0, 1, by decide, by decide⟩),
    (.store eeBd1ComputeKey, ⟨0, 1, by decide, by decide⟩),
    (.start eeBd1GenPoint, ⟨230584300, 921369396, by decide, by decide⟩),
    (.store eeBd1GenPoint, ⟨230584300, 921369397, by decide, by decide⟩)]

theorem longCalls_table : (Benchmark.run longCalls).table =
    [⟨eeBd1ComputeKey, 1, 1⟩,
      ⟨eeBd1GenPoint, 230584300921369396, 230584300921369397⟩] := by
  decide +kernel

theorem chart_inside_two :
    Inside (Benchmark.run twoCalls).table ∧
    ∃ t ∈ (Benchmark.run longCalls).table, ∃ e,
      t.stop.toNat = lastStop (Benchmark.run longCalls).table ∧
      column (totals (Benchmark.run longCalls).table) t.stop = some e ∧ e < 80 := by
  have htwo : Runs.Meets Benchmark.call Benchmark.Steady Benchmark.new twoCalls := by
    decide +kernel
  have hlong : Runs.Meets Benchmark.call Benchmark.Steady Benchmark.new longCalls := by
    decide +kernel
  constructor
  · refine (chart_inside twoCalls htwo (by rw [twoCalls_table]; exact nofun)).1 ?_
    rw [twoCalls_table]
    exact ⟨.inl (by decide), ⟨_, .head _, _, .head _, by decide⟩, by decide +kernel⟩
  · refine (chart_inside longCalls hlong (by rw [longCalls_table]; exact nofun)).2.2 ?_ ?_ ?_
    · rw [longCalls_table]
      exact .inl (by decide)
    · rw [longCalls_table]
      exact ⟨_, .head _, _, .tail _ (.head _), by decide⟩
    · rw [longCalls_table]
      decide +kernel

/-- The column of the last end is before that of its start. -/
example : column (totals (Benchmark.run longCalls).table) 230584300921369396 = some 79 ∧
    column (totals (Benchmark.run longCalls).table) 230584300921369397 = some 0 := by
  decide +kernel

/-- The first one is started before `init`. -/
def clampedCalls : List (Call × Timespec) :=
  [(.start eeBd1ComputeKey, seconds 5), (.init, seconds 10),
    (.store eeBd1ComputeKey, seconds 20), (.start eeBd1GenPoint, seconds 30),
    (.store eeBd1GenPoint, seconds 40)]

/-- The first start is taken for none yet, and the first entry is drawn far off. -/
theorem clampedCalls_not_inside :
    Runs.Meets Benchmark.call Benchmark.Steady Benchmark.new clampedCalls ∧
      (Benchmark.run clampedCalls).table =
        [⟨eeBd1ComputeKey, 0, 10000000000⟩,
          ⟨eeBd1GenPoint, 20000000000, 30000000000⟩] ∧
      (totals (Benchmark.run clampedCalls).table).starttime = 20000000000 ∧
      column (totals (Benchmark.run clampedCalls).table) 0 = some 1844674247 ∧
      print (Benchmark.run clampedCalls).table = none ∧
      ¬Inside (Benchmark.run clampedCalls).table := by
  have htable : (Benchmark.run clampedCalls).table =
      [⟨eeBd1ComputeKey, 0, 10000000000⟩,
        ⟨eeBd1GenPoint, 20000000000, 30000000000⟩] := by decide +kernel
  have hstart : (totals (Benchmark.run clampedCalls).table).starttime = 20000000000 := by
    decide +kernel
  refine ⟨by decide +kernel, htable, hstart, by decide +kernel, by decide +kernel, ?_⟩
  intro h
  have hle := h.start ⟨eeBd1ComputeKey, 0, 10000000000⟩ (by rw [htable]; simp)
  rw [hstart] at hle
  exact absurd hle (by decide)

/-- A table of one instant. -/
example : print [⟨eeBd1ComputeKey, 7, 7⟩] = none := by decide +kernel

/-! ## Drawing -/

/-- A line of 80 places and the byte that ends it. -/
def Line (line : List Char) : Prop := line.length = 81 ∧ (line)[80]? = some '\x00'

theorem line_blank : Line blank := by
  rw [Line, blank]
  decide

theorem Line.set {line : List Char} (h : Line line) {k : Nat} (hk : k < 80) (c : Char) :
    Line (line.set k c) := by
  obtain ⟨hlen, hend⟩ := h
  refine ⟨by rw [List.length_set, hlen], ?_⟩
  rw [List.getElem?_set_ne (by omega), hend]

theorem stars_spec {line : List Char} (h : Line line) {k n : Nat} (hn : k + n ≤ 80) :
    ∃ line', stars line k n = some line' ∧ Line line' := by
  induction n generalizing line k with
  | zero => exact ⟨line, rfl, h⟩
  | succ n ih =>
      have hk : k < line.length := by
        rw [h.1]
        omega
      rw [stars, if_pos hk]
      exact ih (h.set (by omega) '*') (by omega)

/-- An entry whose columns are in order stays on the line, and leaves its end. -/
theorem draw_spec {s : Totals} {line : List Char} (h : Line line) {a b : UInt32}
    (ha : column s t.start = some a) (hb : column s t.stop = some b) (hab : a ≤ b)
    (hle : b ≤ 80) : ∃ line', draw s line t = some line' ∧ Line line' := by
  rw [UInt32.le_iff_toNat_le] at hab hle
  have hlen : a.toNat < line.length := by
    rw [h.1]
    exact Nat.lt_succ_of_le (hab.trans hle)
  simp only [draw, ha, hb, Option.bind_eq_bind, Option.bind_some,
    List.getElem?_eq_getElem hlen]
  split
  · split
    · next hspace =>
        -- the byte at the end is no blank
        have hne : a.toNat ≠ 80 := by
          intro heq
          have hget := List.getElem?_eq_getElem hlen
          rw [hspace, heq, h.2] at hget
          cases hget
        refine ⟨_, rfl, h.set (lt_of_le_of_ne (hab.trans hle) hne) _⟩
    · exact ⟨line, rfl, h⟩
  · refine stars_spec h ?_
    rw [Nat.add_sub_cancel' hab]
    exact hle

theorem foldlM_draw {s : Totals} {entries : List TimetableT}
    (hcols : ∀ t ∈ entries, ∃ a b, column s t.start = some a ∧
      column s t.stop = some b ∧ a ≤ b ∧ b ≤ 80) {line : List Char} (h : Line line) :
    ∃ line', entries.foldlM (draw s) line = some line' ∧ Line line' := by
  induction entries generalizing line with
  | nil => exact ⟨line, rfl, h⟩
  | cons t entries ih =>
      rw [List.forall_mem_cons] at hcols
      obtain ⟨a, b, ha, hb, hab, hle⟩ := hcols.1
      obtain ⟨line', hline', h'⟩ := draw_spec h ha hb hab hle
      rw [List.foldlM_cons, hline']
      exact ih hcols.2 h'

theorem mapM_isSome {α β : Type} {f : α → Option β} (hf : ∀ x, (f x).isSome) (l : List α) :
    (l.mapM f).isSome := by
  induction l with
  | nil => rfl
  | cons x l ih =>
      obtain ⟨y, hy⟩ := Option.isSome_iff_exists.mp (hf x)
      obtain ⟨ys, hys⟩ := Option.isSome_iff_exists.mp ih
      rw [List.mapM_cons, hy, hys]
      rfl

/-- So the report comes out. -/
theorem Inside.print_isSome (h : Inside table) : (print table).isSome := by
  have hlines : ∀ i, (chartLine (totals table) table i).isSome := by
    intro i
    have hcols := fun t (ht : t ∈ table.filter (·.id = i)) =>
      h.columns t (List.mem_of_mem_filter ht)
    obtain ⟨line, hline, -⟩ := foldlM_draw hcols line_blank
    rw [chartLine, hline]
    dsimp only [Option.bind_eq_bind, Option.bind_some]
    split
    · rfl
    · rfl
  obtain ⟨chart, hchart⟩ := Option.isSome_iff_exists.mp
    (mapM_isSome hlines (List.finRange bmarkSize))
  rw [print, hchart]
  rfl

end Timing

end LibSmoke
