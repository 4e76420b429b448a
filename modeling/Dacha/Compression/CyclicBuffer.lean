import Mathlib
import Dacha.Compression.Inflate

/-!
# The window of past bytes (`compression/src/deflate/cyclic_buffer.rs`)

`CyclicBuffer` keeps the last `size` bytes of a stream in a vector used as a ring: the byte at
absolute offset `idx` (bytes since the buffer was made) sits at `idx % size`, and
`extend_from_slice` writes new bytes where the oldest were, in at most two passes.
`slice_from` reads the bytes from an absolute offset to the end as a `ConcatSlice` of at most
two pieces of the vector, the part up to the end of the vector and the part that wrapped.

The vector is a function from positions below `size` to bytes; `new` asserts `size > 0`, which
is the hypothesis of every theorem here. `Holds b stream` relates a buffer to the whole stream
it was fed: every offset it still retains reads the stream's byte there. `Holds` is made by
`new`, kept by `extend_from_slice` (`Holds.extendFromSlice`), and gives `slice_from` as the
stream's suffix (`Holds.toVec_sliceFrom`).
-/

namespace Dacha.Compression.Ring

/-- `ConcatSlice`: slices read one after the other (a `FixedVec` of at most four; the window
never uses more than three). -/
structure ConcatSlice where
  inner : List (List UInt8)

namespace ConcatSlice

/-- `ConcatSlice::with`. -/
def withSlice (s : List UInt8) : ConcatSlice := ⟨[s]⟩

def append (c : ConcatSlice) (s : List UInt8) : ConcatSlice := ⟨c.inner ++ [s]⟩

def len (c : ConcatSlice) : Nat := (c.inner.map List.length).sum

def toVec (c : ConcatSlice) : List UInt8 := c.inner.flatten

/-- The loop of `ConcatSlice::index` over the pieces; `None` where it panics past the end. -/
def indexLoop : List (List UInt8) → Nat → Option UInt8
  | [], _ => none
  | s :: ss, idx => if idx < s.length then s[idx]? else indexLoop ss (idx - s.length)

def index (c : ConcatSlice) (idx : Nat) : Option UInt8 := indexLoop c.inner idx

theorem indexLoop_eq : ∀ (ss : List (List UInt8)) (idx : Nat), indexLoop ss idx = ss.flatten[idx]?
  | [], _ => rfl
  | s :: ss, idx => by
    rw [indexLoop, List.flatten_cons]
    split_ifs with h
    · rw [List.getElem?_append_left h]
    · rw [List.getElem?_append_right (by omega), indexLoop_eq ss]

theorem index_eq (c : ConcatSlice) (idx : Nat) : c.index idx = c.toVec[idx]? :=
  indexLoop_eq c.inner idx

theorem len_eq (c : ConcatSlice) : c.len = c.toVec.length := by
  simp [len, toVec, List.length_flatten]

@[simp] theorem toVec_withSlice (s : List UInt8) : (withSlice s).toVec = s := by
  simp [withSlice, toVec]

@[simp] theorem toVec_append (c : ConcatSlice) (s : List UInt8) :
    (c.append s).toVec = c.toVec ++ s := by
  simp [append, toVec]

end ConcatSlice

/-- `CyclicBuffer`: the ring `data` of `size` bytes and the absolute offset of its end. -/
structure CyclicBuffer where
  data : Nat → UInt8
  size : Nat
  endOffset : Nat

namespace CyclicBuffer

/-- `CyclicBuffer::new`: `size` zero bytes (the source asserts `size > 0`). -/
def new (size : Nat) : CyclicBuffer := ⟨fun _ => 0, size, 0⟩

/-- `(&mut data[off..(off + n)]).copy_from_slice(chunk)` with `n = chunk.len()`. -/
def copyInto (data : Nat → UInt8) (off : Nat) (chunk : List UInt8) : Nat → UInt8 :=
  fun j => if off ≤ j ∧ j < off + chunk.length then chunk.getD (j - off) 0 else data j

/-- `&data[off..(off + n)]`. -/
def readRange (data : Nat → UInt8) (off n : Nat) : List UInt8 :=
  (List.range n).map fun j => data (off + j)

/-- One pass of the loop of `extend_from_slice`: `chunk` copied from the end's position on, and
the end moved past it. -/
def writePass (b : CyclicBuffer) (chunk : List UInt8) : CyclicBuffer :=
  { b with data := copyInto b.data (b.endOffset % b.size) chunk,
           endOffset := b.endOffset + chunk.length }

/-- The `while` loop of `extend_from_slice`: each pass copies what fits between the end's
position and the end of the vector. Each pass takes at least one byte, so `data.len()` passes
are enough fuel. -/
def writeLoop : Nat → CyclicBuffer → List UInt8 → CyclicBuffer
  | 0, b, _ => b
  | fuel + 1, b, data =>
    if data.length > 0 then
      let n := min (b.size - b.endOffset % b.size) data.length
      writeLoop fuel (writePass b (data.take n)) (data.drop n)
    else b

/-- `CyclicBuffer::extend_from_slice`: whole cycles of a long `data` are skipped, then the rest
is written. -/
def extendFromSlice (b : CyclicBuffer) (data : List UInt8) : CyclicBuffer :=
  if data.length ≥ b.size then
    let nskip := data.length - b.size
    writeLoop (data.length - nskip) { b with endOffset := b.endOffset + nskip } (data.drop nskip)
  else writeLoop data.length b data

/-- `CyclicBuffer::start_offset`: the lowest absolute offset still held. -/
def startOffset (b : CyclicBuffer) : Nat :=
  if b.endOffset > b.size then b.endOffset - b.size else 0

/-- `CyclicBuffer::index` (the source asserts `start_offset() <= idx < end_offset()`). -/
def index (b : CyclicBuffer) (idx : Nat) : UInt8 := b.data (idx % b.size)

/-- `CyclicBuffer::slice_from` (the source asserts
`start_offset() <= start_off <= end_offset`). -/
def sliceFrom (b : CyclicBuffer) (startOff : Nat) : ConcatSlice :=
  let off := startOff % b.size
  let n := b.endOffset - startOff
  let rem := min n (b.size - off)
  let s := ConcatSlice.withSlice (readRange b.data off rem)
  if n - rem > 0 then s.append (readRange b.data 0 (n - rem)) else s

/-! ## Positions in the ring -/

theorem mod_add_of_lt {e j size : Nat} (h : e % size + j < size) :
    (e + j) % size = e % size + j := by
  have he := Nat.div_add_mod e size
  calc (e + j) % size = (e % size + j + size * (e / size)) % size := by congr 1; omega
    _ = (e % size + j) % size := Nat.add_mul_mod_self_left _ _ _
    _ = e % size + j := Nat.mod_eq_of_lt h

/-- An offset below `e` but within `size - n` of it does not sit in the `n` positions from `e`'s:
a pass writing `n` bytes at the end overwrites none of the bytes still retained. -/
theorem mod_not_written {e n idx size : Nat} (hsize : 0 < size) (hlo : e + n ≤ idx + size)
    (hidx : idx < e) : idx % size < e % size ∨ e % size + n ≤ idx % size := by
  have he := Nat.div_add_mod e size
  have hr := Nat.mod_lt e hsize
  generalize e / size = q at he
  generalize e % size = r at he hr ⊢
  by_cases hd : e - idx ≤ r
  · -- no wrap between `idx` and `e`
    left
    have : idx % size = r - (e - idx) := by
      calc idx % size = (r - (e - idx) + size * q) % size := by congr 1; omega
        _ = r - (e - idx) := by rw [Nat.add_mul_mod_self_left, Nat.mod_eq_of_lt (by omega)]
    omega
  · -- `idx` sits one turn back
    right
    have hq : 1 ≤ q := by
      rcases Nat.eq_zero_or_pos q with h0 | h0
      · subst h0
        simp at he
        omega
      · exact h0
    have hm : size * (q - 1) = size * q - size := Nat.mul_sub_one size q
    have hle : size ≤ size * q := by
      calc size = size * 1 := (Nat.mul_one size).symm
        _ ≤ size * q := Nat.mul_le_mul_left size hq
    have : idx % size = size + r - (e - idx) := by
      calc idx % size = (size + r - (e - idx) + size * (q - 1)) % size := by congr 1; omega
        _ = size + r - (e - idx) := by
          rw [Nat.add_mul_mod_self_left, Nat.mod_eq_of_lt (by omega)]
    omega

/-! ## What the buffer holds -/

theorem startOffset_eq (b : CyclicBuffer) : b.startOffset = b.endOffset - b.size := by
  unfold startOffset
  split_ifs <;> omega

/-- The buffer holds the stream from offset `lo` on: its end is the stream's length, and every
offset from `lo` it still retains reads the stream's byte there. -/
structure HoldsFrom (b : CyclicBuffer) (stream : List UInt8) (lo : Nat) : Prop where
  size_pos : 0 < b.size
  endOffset_eq : b.endOffset = stream.length
  read : ∀ idx, lo ≤ idx → b.startOffset ≤ idx → idx < b.endOffset →
    stream[idx]? = some (b.index idx)

/-- The buffer holds the stream at every offset it retains. -/
abbrev Holds (b : CyclicBuffer) (stream : List UInt8) : Prop := HoldsFrom b stream 0

theorem holds_new {size : Nat} (h : 0 < size) : Holds (new size) [] :=
  ⟨h, rfl, fun idx _ _ hi => by simp [new] at hi⟩

@[simp] theorem size_writePass (b : CyclicBuffer) (chunk : List UInt8) :
    (writePass b chunk).size = b.size := rfl

@[simp] theorem endOffset_writePass (b : CyclicBuffer) (chunk : List UInt8) :
    (writePass b chunk).endOffset = b.endOffset + chunk.length := rfl

/-- One pass of the write loop: `chunk` written at the end, no further than the end of the
vector. -/
theorem HoldsFrom.writePass {b : CyclicBuffer} {s : List UInt8} {lo : Nat} (hb : HoldsFrom b s lo)
    {chunk : List UInt8} (hchunk : chunk.length ≤ b.size - b.endOffset % b.size) :
    HoldsFrom (b.writePass chunk) (s ++ chunk) lo := by
  have hpos := hb.size_pos
  have hr := Nat.mod_lt b.endOffset hpos
  have hlen := hb.endOffset_eq
  refine ⟨hpos, by simp [hlen], ?_⟩
  intro idx hlo hstart hend
  simp only [startOffset_eq, size_writePass, endOffset_writePass] at hstart hend
  simp only [index, CyclicBuffer.writePass, copyInto]
  by_cases hnew : b.endOffset ≤ idx
  · -- a byte of `chunk`, at its position after the end's
    have hj : idx - b.endOffset < chunk.length := by omega
    have hmod : idx % b.size = b.endOffset % b.size + (idx - b.endOffset) := by
      have := @mod_add_of_lt b.endOffset (idx - b.endOffset) b.size (by omega)
      rwa [Nat.add_sub_cancel' hnew] at this
    rw [if_pos (by omega), hmod, Nat.add_sub_cancel_left,
      List.getElem?_append_right (by omega), ← hb.endOffset_eq, List.getD_eq_getElem _ _ hj,
      List.getElem?_eq_getElem hj]
  · -- a byte retained from before, whose position the pass does not touch
    have hside := mod_not_written hpos (show b.endOffset + chunk.length ≤ idx + b.size by omega)
      (show idx < b.endOffset by omega)
    rw [if_neg (by omega), List.getElem?_append_left (by omega)]
    exact hb.read idx hlo (by rw [startOffset_eq]; omega) (by omega)

theorem size_writeLoop : ∀ (fuel : Nat) (b : CyclicBuffer) (data : List UInt8),
    (writeLoop fuel b data).size = b.size
  | 0, _, _ => rfl
  | fuel + 1, b, data => by
    rw [writeLoop]
    split_ifs
    · exact (size_writeLoop fuel _ _).trans (size_writePass _ _)
    · rfl

theorem endOffset_writeLoop : ∀ (fuel : Nat) (b : CyclicBuffer) (data : List UInt8),
    data.length ≤ fuel → 0 < b.size →
      (writeLoop fuel b data).endOffset = b.endOffset + data.length
  | 0, b, data, hfuel, _ => by
    have hnil : data = [] := List.eq_nil_of_length_eq_zero (by omega)
    rw [writeLoop, hnil]
    rfl
  | fuel + 1, b, data, hfuel, hpos => by
    have hr := Nat.mod_lt b.endOffset hpos
    rw [writeLoop]
    split_ifs with hne
    · dsimp only
      set n := min (b.size - b.endOffset % b.size) data.length with hn
      rw [endOffset_writeLoop fuel (b.writePass (data.take n)) (data.drop n) (by simp; omega)
        (by simpa using hpos)]
      simp only [endOffset_writePass, List.length_take, List.length_drop]
      omega
    · simp only [gt_iff_lt, Nat.not_lt, Nat.le_zero] at hne
      simp [hne]

/-- The write loop, given a pass for each byte, writes all of `data`. -/
theorem HoldsFrom.writeLoop : ∀ (fuel : Nat) {b : CyclicBuffer} {s : List UInt8} {lo : Nat}
    (data : List UInt8), HoldsFrom b s lo → data.length ≤ fuel →
      HoldsFrom (CyclicBuffer.writeLoop fuel b data) (s ++ data) lo
  | 0, b, s, lo, data, hb, hfuel => by
    have hnil : data = [] := List.eq_nil_of_length_eq_zero (by omega)
    rw [CyclicBuffer.writeLoop, hnil, List.append_nil]
    exact hb
  | fuel + 1, b, s, lo, data, hb, hfuel => by
    have hr := Nat.mod_lt b.endOffset hb.size_pos
    rw [CyclicBuffer.writeLoop]
    split_ifs with hne
    · -- a pass of at least one byte, then the rest
      dsimp only
      set n := min (b.size - b.endOffset % b.size) data.length with hn
      have hpass : HoldsFrom (b.writePass (data.take n)) (s ++ data.take n) lo :=
        hb.writePass (by simp [hn])
      have hrest := HoldsFrom.writeLoop fuel (data.drop n) hpass (by simp; omega)
      rwa [List.append_assoc, List.take_append_drop] at hrest
    · have hnil : data = [] := List.eq_nil_of_length_eq_zero (by omega)
      rw [hnil, List.append_nil]
      exact hb

/-- `extend_from_slice` appends `data` to the stream the buffer holds. -/
theorem Holds.extendFromSlice {b : CyclicBuffer} {s : List UInt8} (hb : Holds b s)
    (data : List UInt8) : Holds (b.extendFromSlice data) (s ++ data) := by
  have hpos := hb.size_pos
  unfold CyclicBuffer.extendFromSlice
  split_ifs with hlong
  · -- the skipped bytes are never read: the last `size` bytes overwrite every position
    dsimp only
    have hskip : HoldsFrom { b with endOffset := b.endOffset + (data.length - b.size) }
        (s ++ data.take (data.length - b.size)) (b.endOffset + (data.length - b.size)) :=
      ⟨hpos, by simp only [List.length_append, List.length_take, hb.endOffset_eq]; omega,
        fun idx hlo _ hend => by simp at hend; omega⟩
    have hw := hskip.writeLoop (data.length - (data.length - b.size))
      (data.drop (data.length - b.size)) (by simp)
    rw [List.append_assoc, List.take_append_drop] at hw
    refine ⟨by rw [size_writeLoop]; exact hpos, hw.endOffset_eq,
      fun idx _ hstart hend => hw.read idx ?_ hstart hend⟩
    have hend' := endOffset_writeLoop (data.length - (data.length - b.size))
      { b with endOffset := b.endOffset + (data.length - b.size) }
      (data.drop (data.length - b.size)) (by simp) hpos
    rw [startOffset_eq, size_writeLoop] at hstart
    dsimp only at hstart hend'
    simp only [List.length_drop] at hend'
    omega
  · exact hb.writeLoop data.length data (le_refl _)

theorem mod_wrap {off j size : Nat} (hsize : 0 < size) (hj : j < size) :
    (off + (size - off % size) + j) % size = j := by
  have he := Nat.div_add_mod off size
  have hr := Nat.mod_lt off hsize
  calc (off + (size - off % size) + j) % size = (j + size * (off / size + 1)) % size := by
        congr 1
        rw [Nat.mul_add_one]
        omega
    _ = j := by rw [Nat.add_mul_mod_self_left, Nat.mod_eq_of_lt hj]

theorem readRange_eq {data : Nat → UInt8} {off n a : Nat} {s : List UInt8}
    (h : ∀ j, j < n → s[a + j]? = some (data (off + j))) :
    readRange data off n = (s.drop a).take n := by
  apply List.ext_getElem?
  intro j
  simp only [readRange, List.getElem?_map, List.getElem?_take, List.getElem?_drop]
  by_cases hj : j < n
  · simp [hj, h j hj]
  · simp [hj]

/-- `slice_from` reads the stream from `off` to the end. -/
theorem Holds.toVec_sliceFrom {b : CyclicBuffer} {s : List UInt8} (hb : Holds b s) {off : Nat}
    (hstart : b.startOffset ≤ off) (hend : off ≤ b.endOffset) :
    (b.sliceFrom off).toVec = s.drop off := by
  have hpos := hb.size_pos
  have hlen := hb.endOffset_eq
  have hr := Nat.mod_lt off hpos
  rw [startOffset_eq] at hstart
  have hread : ∀ j, j < b.endOffset - off → s[off + j]? = some (b.data ((off + j) % b.size)) :=
    fun j hj => hb.read (off + j) (Nat.zero_le _) (by rw [startOffset_eq]; omega) (by omega)
  have hfirst : readRange b.data (off % b.size) (min (b.endOffset - off) (b.size - off % b.size)) =
      (s.drop off).take (min (b.endOffset - off) (b.size - off % b.size)) :=
    readRange_eq fun j hj => by rw [hread j (by omega), mod_add_of_lt (by omega)]
  unfold sliceFrom
  dsimp only
  split_ifs with hwrap
  · -- the rest wrapped to the start of the vector
    have hrem : min (b.endOffset - off) (b.size - off % b.size) = b.size - off % b.size := by
      omega
    have hsecond : readRange b.data 0 (b.endOffset - off - (b.size - off % b.size)) =
        (s.drop (off + (b.size - off % b.size))).take
          (b.endOffset - off - (b.size - off % b.size)) :=
      readRange_eq fun j hj => by
        rw [Nat.add_assoc, hread _ (by omega), ← Nat.add_assoc, mod_wrap hpos (by omega),
          Nat.zero_add]
    have hrest : ((s.drop off).drop (b.size - off % b.size)).take
        (b.endOffset - off - (b.size - off % b.size)) = (s.drop off).drop (b.size - off % b.size) :=
      List.take_of_length_le (by simp; omega)
    rw [ConcatSlice.toVec_append, ConcatSlice.toVec_withSlice, hfirst, hrem, hsecond,
      ← List.drop_drop, hrest, List.take_append_drop]
  · -- all in one piece
    rw [ConcatSlice.toVec_withSlice, hfirst, List.take_of_length_le (by simp; omega)]

/-! ## The window `Inflate.lean` reads -/

/-- The ring refines the window the inflater is modelled over (`Compression.CyclicBuffer`, its
size and every byte written to it). -/
structure Refines (b : CyclicBuffer) (w : Compression.CyclicBuffer) : Prop where
  holds : Holds b w.written
  size_eq : b.size = w.size

theorem refines_new {size : Nat} (h : 0 < size) :
    Refines (new size) (Compression.CyclicBuffer.new size) :=
  ⟨holds_new h, rfl⟩

/-- `extend_from_slice` on the ring is `extend_from_slice` on the window. -/
theorem Refines.extendFromSlice {b : CyclicBuffer} {w : Compression.CyclicBuffer}
    (h : Refines b w) (data : List UInt8) :
    Refines (b.extendFromSlice data) (w.extendFromSlice data) :=
  ⟨h.holds.extendFromSlice data, by
    rw [CyclicBuffer.extendFromSlice]
    split_ifs <;> simp [size_writeLoop, h.size_eq, Compression.CyclicBuffer.extendFromSlice]⟩

theorem Refines.endOffset_eq {b : CyclicBuffer} {w : Compression.CyclicBuffer} (h : Refines b w) :
    b.endOffset = w.endOffset :=
  h.holds.endOffset_eq

theorem Refines.startOffset_eq {b : CyclicBuffer} {w : Compression.CyclicBuffer}
    (h : Refines b w) : b.startOffset = w.startOffset := by
  simp only [startOffset, Compression.CyclicBuffer.startOffset, h.endOffset_eq, h.size_eq]

/-- Every offset the ring retains reads what the window has there. -/
theorem Refines.index_eq {b : CyclicBuffer} {w : Compression.CyclicBuffer} (h : Refines b w)
    {idx : Nat} (hstart : b.startOffset ≤ idx) (hend : idx < b.endOffset) :
    b.index idx = w.get idx := by
  have hread := h.holds.read idx (Nat.zero_le _) hstart hend
  rw [Compression.CyclicBuffer.get, List.getD_eq_getElem?_getD, hread, Option.getD_some]

end CyclicBuffer

end Dacha.Compression.Ring
