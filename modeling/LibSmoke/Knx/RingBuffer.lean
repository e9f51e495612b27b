import Mathlib.Data.List.Basic

/-!
# The byte ring

`RingBuffer` is the fixed-size circular buffer under every stream decoder of
the stack. A value carries the three bounds its copies rely on, so a ring whose
next copy could leave the buffer cannot be built.

The bytes it holds, oldest first, are `contents`. `write_eq`, `peek_eq`,
`remove_eq` and `read_eq` say what each operation does to them; everything
above this file argues about `contents` and never looks at the buffer again.
-/

namespace LibSmoke

/-- `memcpy(dst + off, src, src.length)`. -/
def memcpy (dst : List UInt8) (off : Nat) (src : List UInt8) : List UInt8 :=
  dst.take off ++ src ++ dst.drop (off + src.length)

theorem memcpy_length {dst src : List UInt8} {off : Nat}
    (h : off + src.length ≤ dst.length) :
    (memcpy dst off src).length = dst.length := by
  simp only [memcpy, List.length_append, List.length_take, List.length_drop]
  omega

/-- What is there up to the end of the copy. -/
theorem take_memcpy {dst : List UInt8} {off : Nat} (h : off ≤ dst.length)
    (src : List UInt8) :
    (memcpy dst off src).take (off + src.length) = dst.take off ++ src := by
  have hlen : (dst.take off ++ src).length = off + src.length := by
    rw [List.length_append, List.length_take, Nat.min_eq_left h]
  rw [memcpy, ← hlen, List.take_left]

theorem getElem?_memcpy {dst src : List UInt8} {off : Nat}
    (h : off + src.length ≤ dst.length) (i : Nat) :
    (memcpy dst off src)[i]? =
      if off ≤ i ∧ i < off + src.length then src[i - off]? else dst[i]? := by
  have htake : (dst.take off).length = off := by
    rw [List.length_take]; omega
  rw [memcpy, List.append_assoc]
  by_cases hlo : i < off
  · rw [List.getElem?_append_left (by omega), List.getElem?_take_of_lt hlo,
      if_neg (by omega)]
  · rw [List.getElem?_append_right (by omega), htake]
    by_cases hhi : i < off + src.length
    · rw [List.getElem?_append_left (by omega), if_pos (by omega)]
    · rw [List.getElem?_append_right (by omega), List.getElem?_drop,
        if_neg (by omega)]
      congr 1
      omega

/-- A sum of two positions on the ring passes the end at most once. -/
theorem wrap_eq {a b n : Nat} (ha : a < n) (hb : b ≤ n) :
    (a + b) % n = if a + b < n then a + b else a + b - n := by
  split
  · next h => exact Nat.mod_eq_of_lt h
  · next h =>
      rw [Nat.mod_eq_sub_mod (by omega), Nat.mod_eq_of_lt (by omega)]

structure RingBuffer where
  buf : List UInt8
  bufsize : Nat
  pstart : Nat
  plen : Nat
  buf_length : buf.length = bufsize
  pstart_lt : pstart < bufsize
  plen_le : plen ≤ bufsize
  deriving DecidableEq

namespace RingBuffer

/-- The constructor; the buffer starts out unspecified, here as zeros. -/
def new (size : Nat) (h : 0 < size) : RingBuffer where
  buf := List.replicate size 0
  bufsize := size
  pstart := 0
  plen := 0
  buf_length := List.length_replicate
  pstart_lt := h
  plen_le := Nat.zero_le _

def size (r : RingBuffer) : Nat := r.plen

/-- The copy of `write`: in one pass when it ends before the end of the buffer,
in two passes around the end otherwise. -/
def store (buf : List UInt8) (bufsize x : Nat) (data : List UInt8) :
    List UInt8 :=
  if x + data.length < bufsize then memcpy buf x data
  else
    let delta := bufsize - x
    memcpy (memcpy buf x (data.take delta)) 0 (data.drop delta)

theorem store_length {buf : List UInt8} {x : Nat} (hx : x < buf.length)
    {data : List UInt8} (hdata : data.length ≤ buf.length) :
    (store buf buf.length x data).length = buf.length := by
  rw [store]
  split
  · next h => exact memcpy_length (Nat.le_of_lt h)
  · next h =>
      have htake : (data.take (buf.length - x)).length = buf.length - x := by
        rw [List.length_take]; omega
      have hpass : (memcpy buf x (data.take (buf.length - x))).length =
          buf.length := memcpy_length (by omega)
      rw [memcpy_length (by rw [hpass, List.length_drop]; omega), hpass]

/-- What a cell holds after the copy: the byte that landed on it, before or
after the wrap, or what it held before. -/
theorem getElem?_store {buf data : List UInt8} {x : Nat} (hx : x < buf.length)
    (hdata : data.length ≤ buf.length) {j : Nat} (hj : j < buf.length) :
    (store buf buf.length x data)[j]? =
      if x ≤ j ∧ j < x + data.length then data[j - x]?
      else if j + buf.length < x + data.length then data[j + buf.length - x]?
      else buf[j]? := by
  rw [store]
  split
  · next h =>
      rw [getElem?_memcpy (Nat.le_of_lt h)]
      split
      · rfl
      · rw [if_neg (by omega)]
  · next h =>
      have htake : (data.take (buf.length - x)).length = buf.length - x := by
        rw [List.length_take]; omega
      have hpass : (memcpy buf x (data.take (buf.length - x))).length =
          buf.length := memcpy_length (by omega)
      rw [getElem?_memcpy (by rw [hpass, List.length_drop]; omega),
        getElem?_memcpy (by omega), htake, List.length_drop, List.getElem?_drop]
      by_cases hin : x ≤ j
      · rw [if_neg (by omega), if_pos (by omega), if_pos (by omega),
          List.getElem?_take_of_lt (by omega)]
      · rw [if_neg (show ¬ (x ≤ j ∧ j < x + data.length) by omega)]
        by_cases hlow : j + buf.length < x + data.length
        · rw [if_pos (by omega), if_pos hlow]
          congr 1
          omega
        · rw [if_neg (by omega), if_neg (by omega), if_neg hlow]

/-- Append `data`, or refuse it whole when it does not fit. -/
def write (r : RingBuffer) (data : List UInt8) : RingBuffer × Bool :=
  if h : r.plen + data.length > r.bufsize then (r, false)
  else
    let x := (r.pstart + r.plen) % r.bufsize
    ({ r with
        buf := store r.buf r.bufsize x data
        plen := r.plen + data.length
        buf_length := by
          have hx : x < r.buf.length := by
            rw [r.buf_length]
            exact Nat.mod_lt _ (Nat.lt_of_le_of_lt (Nat.zero_le _) r.pstart_lt)
          have := store_length hx (show data.length ≤ _ by
            have := r.buf_length; omega)
          rwa [r.buf_length] at this
        plen_le := by omega }, true)

/-- Copy the oldest `len` bytes out. -/
def peek (r : RingBuffer) (len : Nat) : Option (List UInt8) :=
  if len > r.plen then none
  else if r.pstart + len < r.bufsize then
    some ((r.buf.drop r.pstart).take len)
  else
    let delta := r.bufsize - r.pstart
    some ((r.buf.drop r.pstart).take delta ++ r.buf.take (len - delta))

/-- Drop the oldest `len` bytes. -/
def remove (r : RingBuffer) (len : Nat) : RingBuffer × Bool :=
  if len > r.plen then (r, false)
  else
    ({ r with
        pstart := (r.pstart + len) % r.bufsize
        plen := r.plen - len
        pstart_lt :=
          Nat.mod_lt _ (Nat.lt_of_le_of_lt (Nat.zero_le _) r.pstart_lt)
        plen_le := Nat.le_trans (Nat.sub_le _ _) r.plen_le }, true)

/-- `peek` and `remove`; the bytes, or nothing and the ring as it was. -/
def read (r : RingBuffer) (len : Nat) : RingBuffer × Option (List UInt8) :=
  match r.peek len with
  | none => (r, none)
  | some data =>
      match r.remove len with
      | (_, false) => (r, none)
      | (r', true) => (r', some data)

/-! ## The bytes held -/

/-- The bytes held, oldest first. -/
def contents (r : RingBuffer) : List UInt8 :=
  (r.buf.drop r.pstart ++ r.buf.take r.pstart).take r.plen

@[simp] theorem contents_length (r : RingBuffer) :
    r.contents.length = r.size := by
  have := r.buf_length
  have := r.pstart_lt
  have := r.plen_le
  simp only [contents, size, List.length_take, List.length_append,
    List.length_drop]
  omega

theorem contents_eq_nil_iff {r : RingBuffer} : r.contents = [] ↔ r.size = 0 := by
  rw [← contents_length, List.length_eq_zero_iff]

@[simp] theorem contents_new {size : Nat} (h : 0 < size) :
    (new size h).contents = [] := by
  rw [contents, new, List.take_zero]

/-- The `i`-th byte held sits `i` cells after the start, around the end. -/
theorem getElem?_contents (r : RingBuffer) (i : Nat) :
    r.contents[i]? =
      if i < r.plen then r.buf[(r.pstart + i) % r.bufsize]? else none := by
  have hbuf := r.buf_length
  have hstart := r.pstart_lt
  have hlen := r.plen_le
  by_cases hi : i < r.plen
  · rw [if_pos hi, contents, List.getElem?_take_of_lt hi,
      wrap_eq hstart (by omega)]
    by_cases hw : r.pstart + i < r.bufsize
    · rw [if_pos hw, List.getElem?_append_left (by rw [List.length_drop]; omega),
        List.getElem?_drop]
    · rw [if_neg hw,
        List.getElem?_append_right (by rw [List.length_drop]; omega),
        List.length_drop, List.getElem?_take_of_lt (by omega)]
      congr 1
      omega
  · rw [if_neg hi, List.getElem?_eq_none]
    rw [contents_length]
    exact Nat.le_of_not_lt hi

theorem contents_write {r : RingBuffer} {data : List UInt8}
    (h : r.size + data.length ≤ r.bufsize) :
    (r.write data).1.contents = r.contents ++ data := by
  have hbuf := r.buf_length
  have hstart := r.pstart_lt
  rw [size] at h
  rw [write, dif_neg (by omega)]
  apply List.ext_getElem?
  intro i
  rw [getElem?_contents]
  simp only []
  by_cases hi : i < r.plen + data.length
  · have hx : (r.pstart + r.plen) % r.bufsize < r.bufsize :=
      Nat.mod_lt _ (by omega)
    have hj : (r.pstart + i) % r.bufsize < r.bufsize :=
      Nat.mod_lt _ (by omega)
    rw [if_pos hi]
    simp only [← hbuf] at hx hj h ⊢
    rw [getElem?_store hx (by omega) hj]
    rw [wrap_eq (n := r.buf.length) (by omega) (show r.plen ≤ _ by omega),
      wrap_eq (n := r.buf.length) (by omega) (show i ≤ _ by omega)]
    by_cases hold : i < r.plen
    · rw [List.getElem?_append_left (by rw [contents_length]; exact hold),
        getElem?_contents, if_pos hold, ← hbuf,
        wrap_eq (n := r.buf.length) (by omega) (show i ≤ _ by omega)]
      split <;> split <;> rw [if_neg (by omega), if_neg (by omega)]
    · have hge : r.contents.length ≤ i := by
        rw [contents_length]
        exact Nat.le_of_not_lt hold
      rw [List.getElem?_append_right hge, contents_length, size]
      split <;> split
      · rw [if_pos (by omega)]
        congr 1
        omega
      · rw [if_neg (by omega), if_pos (by omega)]
        congr 1
        omega
      · omega
      · rw [if_pos (by omega)]
        congr 1
        omega
  · rw [if_neg hi]
    symm
    apply List.getElem?_eq_none
    rw [List.length_append, contents_length, size]
    omega

/-- `write` appends exactly when the data fits, and otherwise changes nothing. -/
theorem write_eq (r : RingBuffer) (data : List UInt8) :
    (r.write data).2 = decide (r.size + data.length ≤ r.bufsize) ∧
      (r.write data).1.bufsize = r.bufsize ∧
      (r.write data).1.contents =
        if r.size + data.length ≤ r.bufsize then r.contents ++ data
        else r.contents := by
  by_cases h : r.size + data.length ≤ r.bufsize
  · refine ⟨?_, ?_, by rw [if_pos h, contents_write h]⟩
    · rw [write, dif_neg (by rw [size] at h; omega), decide_eq_true h]
    · rw [write, dif_neg (by rw [size] at h; omega)]
  · have hgt : r.plen + data.length > r.bufsize := by rw [size] at h; omega
    refine ⟨?_, ?_, ?_⟩
    · rw [write, dif_pos hgt, decide_eq_false h]
    · rw [write, dif_pos hgt]
    · rw [write, dif_pos hgt, if_neg h]

/-- `peek` shows the oldest bytes, exactly when that many are held. -/
theorem peek_eq (r : RingBuffer) (len : Nat) :
    r.peek len = if len ≤ r.size then some (r.contents.take len) else none := by
  have hbuf := r.buf_length
  have hstart := r.pstart_lt
  have hlen := r.plen_le
  rw [peek, size]
  by_cases h : len ≤ r.plen
  · rw [if_neg (by omega), if_pos h, contents, List.take_take,
      Nat.min_eq_left h]
    split
    · next hw =>
        rw [List.take_append_of_le_length (by rw [List.length_drop]; omega)]
    · next hw =>
        have hdrop : (r.buf.drop r.pstart).length = r.bufsize - r.pstart := by
          rw [List.length_drop, hbuf]
        have hall : ∀ n, r.bufsize - r.pstart ≤ n →
            (r.buf.drop r.pstart).take n = r.buf.drop r.pstart :=
          fun n hn => List.take_of_length_le (by rw [hdrop]; exact hn)
        rw [List.take_append, hdrop, List.take_take,
          Nat.min_eq_left (by omega), hall len (by omega)]
        simp only [hall _ (Nat.le_refl _)]
  · rw [if_pos (by omega), if_neg h]

theorem contents_remove {r : RingBuffer} {len : Nat} (h : len ≤ r.size) :
    (r.remove len).1.contents = r.contents.drop len := by
  have hbuf := r.buf_length
  have hstart := r.pstart_lt
  have hlen := r.plen_le
  rw [size] at h
  rw [remove, if_neg (by omega)]
  apply List.ext_getElem?
  intro i
  rw [List.getElem?_drop, getElem?_contents, getElem?_contents]
  simp only []
  by_cases hi : i < r.plen - len
  · rw [if_pos hi, if_pos (by omega), Nat.mod_add_mod, Nat.add_assoc]
  · rw [if_neg hi, if_neg (by omega)]

/-- `remove` drops the oldest bytes, exactly when that many are held. -/
theorem remove_eq (r : RingBuffer) (len : Nat) :
    (r.remove len).2 = decide (len ≤ r.size) ∧
      (r.remove len).1.bufsize = r.bufsize ∧
      (r.remove len).1.contents =
        if len ≤ r.size then r.contents.drop len else r.contents := by
  by_cases h : len ≤ r.size
  · refine ⟨?_, ?_, by rw [if_pos h, contents_remove h]⟩
    · rw [remove, if_neg (by rw [size] at h; omega), decide_eq_true h]
    · rw [remove, if_neg (by rw [size] at h; omega)]
  · have hgt : len > r.plen := by rw [size] at h; omega
    refine ⟨?_, ?_, ?_⟩
    · rw [remove, if_pos hgt, decide_eq_false h]
    · rw [remove, if_pos hgt]
    · rw [remove, if_pos hgt, if_neg h]

/-- `read` takes the oldest bytes out, exactly when that many are held. -/
theorem read_eq (r : RingBuffer) (len : Nat) :
    r.read len = if len ≤ r.size then ((r.remove len).1, some (r.contents.take len))
      else (r, none) := by
  rw [read, peek_eq]
  by_cases h : len ≤ r.size
  · rw [if_pos h, if_pos h]
    simp only []
    have hok : (r.remove len).2 = true := by
      rw [(remove_eq r len).1, decide_eq_true h]
    rw [show r.remove len = ((r.remove len).1, true) from Prod.ext rfl hok]
  · rw [if_neg h, if_neg h]

end RingBuffer

end LibSmoke
