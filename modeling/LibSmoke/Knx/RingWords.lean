import LibSmoke.Lib.Fifo
import LibSmoke.Lib.Runs
import LibSmoke.Knx.RingBuffer
import Mathlib.Data.UInt

/-!
# The byte ring in machine words

`RingBuffer` over the words it is made of: the sums of `write`, `peek` and `remove` are
sums of `size_t`, and a copy that would leave the buffer ends the run here. As long as
no sum wraps this is the ring over numbers (`Holds`), and so a bounded queue. The one
sum that can wrap is that in the guard of `write`.
-/

namespace LibSmoke

open Runs

/-- One call of the ring over numbers. -/
def RingBuffer.call (r : RingBuffer) : Fifo.Op UInt8 → RingBuffer × Fifo.Result UInt8
  | .write d len => ((r.write (Fifo.elems d len)).1, .ended (r.write (Fifo.elems d len)).2)
  | .peek len => (r, .got (r.peek len))
  | .remove len => ((r.remove len).1, .ended (r.remove len).2)
  | .read len => ((r.read len).1, .got (r.read len).2)

/-- The ring over numbers is a queue. -/
theorem RingBuffer.call_fifo (r : RingBuffer) (op : Fifo.Op UInt8) :
    (r.call op).1.contents = (Fifo.step r.bufsize r.contents op).1 ∧
    (r.call op).2 = (Fifo.step r.bufsize r.contents op).2 ∧
    (r.call op).1.bufsize = r.bufsize := by
  cases op with
  | write d len =>
      obtain ⟨hok, hcap, hbytes⟩ := r.write_eq (Fifo.elems d len)
      rw [Fifo.length_elems] at hok hbytes
      rw [call, Fifo.step, contents_length, hok, hbytes]
      split
      · next hfit => exact ⟨rfl, by rw [decide_eq_true hfit], hcap⟩
      · next hfit => exact ⟨rfl, by rw [decide_eq_false hfit], hcap⟩
  | peek len =>
      rw [call, Fifo.step, contents_length, peek_eq]
      exact ⟨rfl, rfl, rfl⟩
  | remove len =>
      obtain ⟨hok, hcap, hbytes⟩ := r.remove_eq len
      rw [call, Fifo.step, contents_length, hok, hbytes]
      split
      · next hle => exact ⟨rfl, by rw [decide_eq_true hle], hcap⟩
      · next hle => exact ⟨rfl, by rw [decide_eq_false hle], hcap⟩
  | read len =>
      obtain ⟨-, hcap, hbytes⟩ := r.remove_eq len
      rw [call, Fifo.step, contents_length, read_eq]
      split
      · next hle => exact ⟨hbytes.trans (if_pos hle), rfl, hcap⟩
      · exact ⟨rfl, rfl, rfl⟩

structure RingWords where
  buf : List UInt8
  bufsize : UInt64
  pstart : UInt64
  plen : UInt64

namespace RingWords

def new (size : UInt64) : RingWords := ⟨List.replicate size.toNat 0, size, 0, 0⟩

/-- `memcpy` into the buffer, if it stays inside. -/
def copyIn (buf : List UInt8) (off : UInt64) (d : Nat → UInt8) (len : UInt64) :
    Option (List UInt8) :=
  if off.toNat + len.toNat ≤ buf.length then
    some (memcpy buf off.toNat (Fifo.elems d len.toNat))
  else none

/-- `memcpy` out of the buffer, if it stays inside. -/
def copyOut (buf : List UInt8) (off len : UInt64) : Option (List UInt8) :=
  if off.toNat + len.toNat ≤ buf.length then some ((buf.drop off.toNat).take len.toNat)
  else none

/-- `write`; `d` are the bytes from `data` on. -/
def write (d : Nat → UInt8) (len : UInt64) (r : RingWords) : Option (RingWords × Bool) :=
  if r.plen + len > r.bufsize then some (r, false)
  else
    let x := (r.pstart + r.plen) % r.bufsize
    let delta := r.bufsize - x
    let copied :=
      if x + len < r.bufsize then copyIn r.buf x d len
      else (copyIn r.buf x d delta).bind fun buf =>
        copyIn buf 0 (fun i => d (delta.toNat + i)) (len - delta)
    copied.map fun buf => ({ r with buf := buf, plen := r.plen + len }, true)

/-- `peek`: the bytes it copies out. -/
def peek (len : UInt64) (r : RingWords) : Option (Option (List UInt8)) :=
  if len > r.plen then some none
  else if r.pstart + len < r.bufsize then (copyOut r.buf r.pstart len).map some
  else
    let delta := r.bufsize - r.pstart
    (copyOut r.buf r.pstart delta).bind fun data =>
      (copyOut r.buf 0 (len - delta)).map fun rest => some (data ++ rest)

def remove (len : UInt64) (r : RingWords) : RingWords × Bool :=
  if len > r.plen then (r, false)
  else ({ r with pstart := (r.pstart + len) % r.bufsize, plen := r.plen - len }, true)

/-- `read`: `peek` and `remove`. -/
def read (len : UInt64) (r : RingWords) : Option (RingWords × Option (List UInt8)) :=
  (r.peek len).map fun
    | none => (r, none)
    | some data =>
        let res := r.remove len
        (res.1, if res.2 then some data else none)

def size (r : RingWords) : UInt64 := r.plen

/-- A call of the ring. -/
inductive Call
  | write (d : Nat → UInt8) (len : UInt64)
  | peek (len : UInt64)
  | remove (len : UInt64)
  | read (len : UInt64)

/-- The call as one of a queue. -/
def Call.op : Call → Fifo.Op UInt8
  | .write d len => .write d len.toNat
  | .peek len => .peek len.toNat
  | .remove len => .remove len.toNat
  | .read len => .read len.toNat

/-- One call; nothing if a copy leaves the buffer. -/
def call (r : RingWords) : Call → Option (RingWords × Fifo.Result UInt8)
  | .write d len => (r.write d len).map fun res => (res.1, .ended res.2)
  | .peek len => (r.peek len).map fun data => (r, .got data)
  | .remove len => some ((r.remove len).1, .ended (r.remove len).2)
  | .read len => (r.read len).map fun res => (res.1, .got res.2)

/-- The bytes held, oldest first. -/
def contents (r : RingWords) : List UInt8 :=
  (r.buf.drop r.pstart.toNat ++ r.buf.take r.pstart.toNat).take r.plen.toNat

/-- What a queue of the same history should hold. -/
def Queues (r : RingWords) (q : List UInt8) : Prop :=
  r.contents = q ∧ r.size.toNat = q.length

/-- The stored bytes and those of a write can be counted in a word. -/
def Counts (q : List UInt8) : Call → Prop
  | .write _ len => q.length + len.toNat < 2 ^ 64
  | _ => True

instance Counts.decidable (q : List UInt8) : ∀ c, Decidable (Counts q c)
  | .write _ _ => inferInstanceAs (Decidable (_ < _))
  | .peek _ | .remove _ | .read _ => inferInstanceAs (Decidable True)

/-- The words are those of a ring over numbers; `new[]` gives no array of `2 ^ 63`
bytes. -/
structure Holds (w : RingWords) (r : RingBuffer) : Prop where
  buf : w.buf = r.buf
  bufsize : w.bufsize.toNat = r.bufsize
  pstart : w.pstart.toNat = r.pstart
  plen : w.plen.toNat = r.plen
  small : r.bufsize < 2 ^ 63

/-! ## The ring over numbers -/

section Holds

variable {w : RingWords} {r : RingBuffer}

theorem toNat_add_of_lt {a b : UInt64} (h : a.toNat + b.toNat < 2 ^ 64) :
    (a + b).toNat = a.toNat + b.toNat := by
  rw [UInt64.toNat_add, Nat.mod_eq_of_lt h]

theorem Holds.contents (h : Holds w r) : w.contents = r.contents := by
  rw [RingWords.contents, RingBuffer.contents, h.buf, h.pstart, h.plen]

theorem Holds.queues (h : Holds w r) : w.Queues r.contents :=
  ⟨h.contents, h.plen.trans r.contents_length.symm⟩

theorem Holds.lt_bufsize (h : Holds w r) {x len : UInt64}
    (hsum : x.toNat + len.toNat < 2 ^ 64) :
    x + len < w.bufsize ↔ x.toNat + len.toNat < r.bufsize := by
  rw [UInt64.lt_iff_toNat_lt, toNat_add_of_lt hsum, h.bufsize]

theorem Holds.plen_lt (h : Holds w r) (len : UInt64) :
    w.plen < len ↔ r.plen < len.toNat := by
  rw [UInt64.lt_iff_toNat_lt, h.plen]

/-- The bytes from a position to the end of the buffer. -/
theorem Holds.delta (h : Holds w r) {x : UInt64} (hx : x.toNat < r.bufsize) :
    (w.bufsize - x).toNat = r.bufsize - x.toNat := by
  rw [UInt64.toNat_sub_of_le, h.bufsize]
  rw [UInt64.le_iff_toNat_le, h.bufsize]
  exact Nat.le_of_lt hx

/-- The bytes that go to the front. -/
theorem Holds.rest (h : Holds w r) {x len : UInt64} (hx : x.toNat < r.bufsize)
    (hwrap : ¬ x.toNat + len.toNat < r.bufsize) :
    (len - (w.bufsize - x)).toNat = len.toNat - (r.bufsize - x.toNat) := by
  rw [UInt64.toNat_sub_of_le, h.delta hx]
  rw [UInt64.le_iff_toNat_le, h.delta hx]
  omega

/-- The copy of a write that fits is that of the ring over numbers. -/
theorem Holds.store (h : Holds w r) (d : Nat → UInt8) {x len : UInt64}
    (hx : x.toNat < r.bufsize) (hlen : len.toNat ≤ r.bufsize) :
    (if x + len < w.bufsize then copyIn w.buf x d len
      else (copyIn w.buf x d (w.bufsize - x)).bind fun buf =>
        copyIn buf 0 (fun i => d ((w.bufsize - x).toNat + i)) (len - (w.bufsize - x))) =
      some (RingBuffer.store r.buf r.bufsize x.toNat (Fifo.elems d len.toNat)) := by
  have hbuf := r.buf_length
  have hsmall := h.small
  have hlt := h.lt_bufsize (show x.toNat + len.toNat < 2 ^ 64 by omega)
  rw [RingBuffer.store, Fifo.length_elems]
  by_cases hfit : x.toNat + len.toNat < r.bufsize
  · rw [if_pos (hlt.mpr hfit), if_pos hfit, copyIn, h.buf, if_pos (by omega)]
  · have hpieces : Fifo.elems d len.toNat =
        Fifo.elems d (r.bufsize - x.toNat) ++
          Fifo.elems (fun i => d (r.bufsize - x.toNat + i))
            (len.toNat - (r.bufsize - x.toNat)) := by
      rw [← Fifo.elems_append]
      congr 1
      omega
    have hpass : (memcpy r.buf x.toNat (Fifo.elems d (r.bufsize - x.toNat))).length =
        r.bufsize := by
      rw [memcpy_length (by rw [Fifo.length_elems]; omega), hbuf]
    rw [if_neg (mt hlt.mp hfit), if_neg hfit, copyIn, h.delta hx, h.buf, if_pos (by omega),
      Option.bind_some, copyIn, h.rest hx hfit, hpass, UInt64.toNat_zero, if_pos (by omega),
      hpieces]
    simp only []
    rw [List.take_left' (Fifo.length_elems ..), List.drop_left' (Fifo.length_elems ..)]

theorem Holds.write (h : Holds w r) (d : Nat → UInt8) {len : UInt64}
    (hlen : r.plen + len.toNat < 2 ^ 64) :
    ∃ w', w.write d len = some (w', (r.write (Fifo.elems d len.toNat)).2) ∧
      Holds w' (r.write (Fifo.elems d len.toNat)).1 := by
  have hsmall := h.small
  have hstart := r.pstart_lt
  have hplen := r.plen_le
  have hsum : (w.plen + len).toNat = r.plen + len.toNat := by
    rw [toNat_add_of_lt (by rw [h.plen]; exact hlen), h.plen]
  by_cases hfit : r.plen + len.toNat > r.bufsize
  · have hgt : w.plen + len > w.bufsize := by
      rw [gt_iff_lt, UInt64.lt_iff_toNat_lt, hsum, h.bufsize]
      exact hfit
    refine ⟨w, ?_, ?_⟩
    · rw [RingWords.write, if_pos hgt, RingBuffer.write,
        dif_pos (by rw [Fifo.length_elems]; exact hfit)]
    · rw [RingBuffer.write, dif_pos (by rw [Fifo.length_elems]; exact hfit)]
      exact h
  · have hngt : ¬ w.plen + len > w.bufsize := by
      rw [gt_iff_lt, UInt64.lt_iff_toNat_lt, hsum, h.bufsize]
      exact hfit
    have hx : ((w.pstart + w.plen) % w.bufsize).toNat = (r.pstart + r.plen) % r.bufsize := by
      rw [UInt64.toNat_mod, toNat_add_of_lt (by rw [h.pstart, h.plen]; omega), h.pstart,
        h.plen, h.bufsize]
    have hlt : ((w.pstart + w.plen) % w.bufsize).toNat < r.bufsize := by
      rw [hx]
      exact Nat.mod_lt _ (by omega)
    have hcopied := h.store d hlt (show len.toNat ≤ r.bufsize by omega)
    rw [hx] at hcopied
    refine ⟨⟨RingBuffer.store r.buf r.bufsize ((r.pstart + r.plen) % r.bufsize)
      (Fifo.elems d len.toNat), w.bufsize, w.pstart, w.plen + len⟩, ?_, ?_⟩
    · rw [RingWords.write, if_neg hngt]
      simp only [hcopied]
      rw [RingBuffer.write, dif_neg (by rw [Fifo.length_elems]; exact hfit)]
      rfl
    · rw [RingBuffer.write, dif_neg (by rw [Fifo.length_elems]; exact hfit)]
      exact ⟨rfl, h.bufsize, h.pstart,
        hsum.trans (congrArg (r.plen + ·) (Fifo.length_elems ..).symm), hsmall⟩

theorem Holds.peek (h : Holds w r) (len : UInt64) :
    w.peek len = some (r.peek len.toNat) := by
  have hbuf := r.buf_length
  have hsmall := h.small
  have hstart := r.pstart_lt
  have hplen := r.plen_le
  rw [RingWords.peek, RingBuffer.peek]
  by_cases hlen : len.toNat > r.plen
  · rw [if_pos ((h.plen_lt len).mpr hlen), if_pos hlen]
  · have hx : w.pstart.toNat < r.bufsize := h.pstart.trans_lt hstart
    have hlt := h.lt_bufsize (show w.pstart.toNat + len.toNat < 2 ^ 64 by omega)
    rw [h.pstart] at hlt
    rw [if_neg (mt (h.plen_lt len).mp hlen), if_neg hlen]
    by_cases hfit : r.pstart + len.toNat < r.bufsize
    · rw [if_pos (hlt.mpr hfit), if_pos hfit, copyOut, h.buf, h.pstart, if_pos (by omega)]
      rfl
    · have hrest := h.rest hx (show ¬ w.pstart.toNat + len.toNat < r.bufsize by
        rwa [h.pstart])
      rw [if_neg (mt hlt.mp hfit), if_neg hfit]
      simp only []
      rw [copyOut, h.delta hx, h.buf, h.pstart, if_pos (by omega), Option.bind_some, copyOut,
        hrest, h.pstart, UInt64.toNat_zero, if_pos (by omega), List.drop_zero]
      rfl

theorem Holds.remove (h : Holds w r) (len : UInt64) :
    (w.remove len).2 = (r.remove len.toNat).2 ∧
    Holds (w.remove len).1 (r.remove len.toNat).1 := by
  have hsmall := h.small
  have hstart := r.pstart_lt
  have hplen := r.plen_le
  rw [RingWords.remove, RingBuffer.remove]
  by_cases hlen : len.toNat > r.plen
  · rw [if_pos ((h.plen_lt len).mpr hlen), if_pos hlen]
    exact ⟨rfl, h⟩
  · have hngt : ¬ w.plen < len := mt (h.plen_lt len).mp hlen
    rw [if_neg hngt, if_neg hlen]
    refine ⟨rfl, h.buf, h.bufsize, ?_, ?_, hsmall⟩
    · simp only []
      rw [UInt64.toNat_mod, toNat_add_of_lt (by rw [h.pstart]; omega), h.pstart, h.bufsize]
    · simp only []
      rw [UInt64.toNat_sub_of_le _ _ (UInt64.not_lt.mp hngt), h.plen]

theorem Holds.read (h : Holds w r) (len : UInt64) :
    ∃ w', w.read len = some (w', (r.read len.toNat).2) ∧
      Holds w' (r.read len.toNat).1 := by
  obtain ⟨hres, hnext⟩ := h.remove len
  rw [RingWords.read, h.peek, RingBuffer.read]
  cases hpeek : r.peek len.toNat with
  | none => exact ⟨w, rfl, h⟩
  | some data =>
      have hle : len.toNat ≤ r.size := by
        by_contra hno
        rw [RingBuffer.peek_eq, if_neg hno] at hpeek
        cases hpeek
      have hok : (r.remove len.toNat).2 = true := by
        rw [(RingBuffer.remove_eq ..).1, decide_eq_true hle]
      refine ⟨(w.remove len).1, ?_, ?_⟩
      · rw [Option.map_some]
        simp only []
        rw [hres, hok, if_pos rfl]
        rw [show r.remove len.toNat = ((r.remove len.toNat).1, true) from Prod.ext rfl hok]
      · rw [show r.remove len.toNat = ((r.remove len.toNat).1, true) from
          Prod.ext rfl hok] at hnext ⊢
        exact hnext

theorem Holds.call (h : Holds w r) {c : Call} (hc : Counts r.contents c) :
    ∃ w', w.call c = some (w', (r.call c.op).2) ∧ Holds w' (r.call c.op).1 := by
  cases c with
  | write d len =>
      rw [Counts, RingBuffer.contents_length] at hc
      obtain ⟨w', hres, hw'⟩ := h.write d hc
      exact ⟨w', by rw [RingWords.call, hres]; rfl, hw'⟩
  | peek len => exact ⟨w, by rw [RingWords.call, h.peek]; rfl, h⟩
  | remove len =>
      obtain ⟨hres, hw'⟩ := h.remove len
      exact ⟨(w.remove len).1, by rw [RingWords.call, hres]; rfl, hw'⟩
  | read len =>
      obtain ⟨w', hres, hw'⟩ := h.read len
      exact ⟨w', by rw [RingWords.call, hres]; rfl, hw'⟩

/-- A write whose sum wraps is not refused. -/
theorem Holds.wraps (h : Holds w r) (d : Nat → UInt8) {len : UInt64}
    (hlen : 2 ^ 64 ≤ r.plen + len.toNat) (w' : RingWords) :
    w.write d len ≠ some (w', false) := by
  have hplen := r.plen_le
  have hlt := UInt64.toNat_lt len
  have hsmall := h.small
  have hngt : ¬ w.plen + len > w.bufsize := by
    rw [gt_iff_lt, UInt64.lt_iff_toNat_lt, UInt64.toNat_add, h.plen, h.bufsize]
    omega
  rw [RingWords.write, if_neg hngt]
  intro hw
  obtain ⟨buf, -, hres⟩ := Option.map_eq_some_iff.mp hw
  cases congrArg Prod.snd hres

end Holds

/-! ## A run -/

theorem holds_new {size : UInt64} (h : 0 < size) (hsize : size.toNat < 2 ^ 63) :
    Holds (new size) (RingBuffer.new size.toNat (UInt64.lt_iff_toNat_lt.mp h)) :=
  ⟨rfl, rfl, rfl, rfl, hsize⟩

/-- In every run of calls no copy leaves the buffer and every call does to the bytes
held, and shows, what it does on a queue, exactly if whenever `write` is called the
stored bytes and those of the call can be counted in a word. -/
theorem fifo_iff {size : UInt64} (h : 0 < size) (hsize : size.toNat < 2 ^ 63)
    (calls : List Call) :
    Follows call (fun q c => Fifo.step size.toNat q c.op) Queues (new size) [] calls ↔
      Meets (fun q c => (Fifo.step size.toNat q c.op).1) Counts [] calls := by
  refine Follows.iff_meets
    (I := fun w q => ∃ r, Holds w r ∧ r.bufsize = size.toNat ∧ r.contents = q)
    ?_ ?_ ?_ ⟨_, holds_new h hsize, rfl, RingBuffer.contents_new _⟩ calls
  · rintro w q ⟨r, hw, -, rfl⟩
    exact hw.queues
  · rintro w q c ⟨r, hw, hcap, rfl⟩ hc
    obtain ⟨w', hres, hw'⟩ := hw.call hc
    obtain ⟨hbytes, hshown, hcap'⟩ := r.call_fifo c.op
    rw [hcap] at hbytes hshown hcap'
    exact ⟨w', hshown ▸ hres, _, hw', hcap', hbytes⟩
  · rintro w q c ⟨r, hw, hcap, rfl⟩ hc w' hres
    cases c with
    | write d len =>
        rw [Counts, RingBuffer.contents_length, Nat.not_lt] at hc
        have hfull : ¬ r.contents.length + len.toNat ≤ size.toNat := by
          rw [RingBuffer.contents_length]
          omega
        rw [Call.op, Fifo.step, if_neg hfull, RingWords.call] at hres
        obtain ⟨⟨w'', ok⟩, hwrite, hok⟩ := Option.map_eq_some_iff.mp hres
        cases hok
        exact hw.wraps d hc _ hwrite
    | peek len => exact hc trivial
    | remove len => exact hc trivial
    | read len => exact hc trivial

/-- A byte is stored in a ring of one, and then a length is given that no word holds
together with it. -/
def fullThen (len : UInt64) : List Call := [.write (fun _ => 7) 1, .write (fun _ => 7) len]

theorem fifo_full : Follows call (fun q c => Fifo.step (UInt64.toNat 1) q c.op) Queues
    (new 1) [] (fullThen 5) :=
  (fifo_iff (show 0 < 1 by decide) (by decide) (fullThen 5)).mpr (by decide)

theorem write_wraps : ¬ ∀ (size : UInt64) (calls : List Call), 0 < size →
    Follows call (fun q c => Fifo.step size.toNat q c.op) Queues (new size) [] calls := by
  intro h
  obtain ⟨w, hw, -, w', hw', -⟩ := h 1 (fullThen (2 ^ 64 - 1)) (by decide)
  have hnone : ((new 1).call (.write (fun _ => 7) 1)).bind
      (fun res => res.1.call (.write (fun _ => 7) (2 ^ 64 - 1))) = none := by
    decide +kernel
  rw [hw, Option.bind_some, hw'] at hnone
  cases hnone

end RingWords

end LibSmoke
