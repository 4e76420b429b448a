import Mathlib
import Dacha.Compression.Huffman
import Dacha.Compression.Deflate

/-!
# `BitReader` (`common/src/bits.rs:307-605`) and `read_code` on it

| here | there |
| --- | --- |
| `BitReader`, `BitReaderRawState` | `:315-342`, in `BitOrder::LSBFirst` over a `Cursor` |
| `BitReader.new`, `loadRaw`, `intoUnconsumedRaw` | `new`, `load_raw`, `into_unconsumed_raw` |
| `BitReader.nextBit`, `readBitsLoop`, `readBits`, `readBitsExact` | `read_bits` (`:425-484`), `read_bits_exact` |
| `BitReader.consume`, `alignToByte` | `consume`, `align_to_byte` (`:503-518`) |
| `readBytes`, `readBytesExact`, `readBytesAndConsume` | `read_bytes`, `read_bytes_exact`, `read_bytes_and_consume` (`:537-605`) |
| `HuffmanTree.readCodeFrom`, `readCodeAt` | `HuffmanTree::read_code` (`huffman.rs:122-149`) on a `BitReader` |

The reader pulls whole bytes from the cursor into `buffer`, least significant bit first, when a
read reaches its end. Reads advance `offset`; `consume` moves `consumed_offset` up to it, and
`into_unconsumed_raw` keeps the buffer from there for the next reader, so a step that runs out of
bits can be read again once more input comes.

A read is a `BitRead`: a value or an error, and the reader after it. What a read changed before
it failed stays changed, as through the source's `&mut self`; a caller that rolls back does so by
`consume` and `into_unconsumed_raw`, not by the model dropping the state. The errors are
`CodeError`s: `BitIoError::NotEnoughBits`, or an error with its message. A read from a `Cursor`
never fails, so those are the only ones.
-/

namespace Dacha.Compression

/-- `BitReader`: the bits pulled from the cursor so far, the next one to read, the first one
not yet consumed, and the bytes the cursor has not given yet. -/
structure BitReader where
  buffer : List Bool
  offset : Nat
  consumedOffset : Nat
  input : List UInt8
  deriving DecidableEq, Repr

/-- `BitReaderRawState`: what one reader hands to the next. -/
structure BitReaderRawState where
  buffer : List Bool
  consumedOffset : Nat
  deriving DecidableEq, Repr

/-- A read of a `BitReader`: its value or error, and the reader after it. -/
abbrev BitRead (α : Type) := ExceptT CodeError (StateM BitReader) α

namespace BitReader

/-- `BitReader::new` over a cursor of `input`. -/
def new (input : List UInt8) : BitReader := ⟨[], 0, 0, input⟩

/-- `load_raw`: the bits of an earlier reader come before the cursor's. -/
def loadRaw (r : BitReader) (raw : BitReaderRawState) : Except CodeError BitReader :=
  if r.offset ≠ r.buffer.length then .error (.msg "Already have pending bits loaded")
  else .ok { r with buffer := raw.buffer, offset := raw.consumedOffset,
                    consumedOffset := raw.consumedOffset }

def intoUnconsumedRaw (r : BitReader) : BitReaderRawState := ⟨r.buffer, r.consumedOffset⟩

/-- One pass of the loop of `read_bits`: at the end of the buffer the next byte of the cursor is
pulled into it first; `none` when the cursor is done. -/
def nextBit (r : BitReader) : Option (Bool × BitReader) :=
  let pulled : Option BitReader :=
    if r.offset = r.buffer.length then
      match r.input with
      | [] => none
      | b :: rest => some { r with buffer := r.buffer ++ bitsOf b.toNat 8, input := rest }
    else some r
  pulled.map fun r => (r.buffer.getD r.offset false, { r with offset := r.offset + 1 })

/-- The loop of `read_bits` from bit `i` on, `k` bits to go and the value `out` so far: bit `i`
is bit `i` of the value. A cursor done before the first bit is `None`, after it an error. -/
def readBitsLoop : Nat → Nat → Nat → BitReader → Except CodeError (Option Nat) × BitReader
  | _, 0, out, r => (.ok (some out), r)
  | i, k + 1, out, r =>
    match r.nextBit with
    | some (bit, r') => readBitsLoop (i + 1) k (out ||| (if bit then 1 else 0) <<< i) r'
    | none => (if i = 0 then .ok none else .error .notEnoughBits, r)

/-- `read_bits(n)`. -/
def readBits (n : Nat) : BitRead (Option Nat) := fun r => readBitsLoop 0 n 0 r

/-- `read_bits_exact(n)`. -/
def readBitsExact (n : Nat) : BitRead Nat := do
  match ← readBits n with
  | some v => pure v
  | none => throw .notEnoughBits

/-- `consume`: a buffer read to its end is dropped. -/
def consume (r : BitReader) : BitReader :=
  let r := if r.offset = r.buffer.length then { r with buffer := [], offset := 0 } else r
  { r with consumedOffset := r.offset }

/-- `align_to_byte`: the buffer holds whole bytes, so this is the next byte boundary. -/
def alignToByte (r : BitReader) : BitReader :=
  { r with offset := r.offset + (r.buffer.length - r.offset) % 8 }

/-- The text of the error of the byte reads off a byte boundary. -/
def notAlignedMsg : String :=
  "BitReader not aligned to a whole byte offset: regular reading not supported"

/-- The loop of `read_bytes` for `k` more bytes: it stops at the end of the input. -/
def readBytesLoop : Nat → BitRead (List UInt8)
  | 0 => pure []
  | k + 1 => do
    let b ← tryCatch (some <$> readBitsExact 8) fun e =>
      match e with
      | .notEnoughBits => pure none
      | e => throw e
    match b with
    | none => pure []
    | some b => return UInt8.ofNat b :: (← readBytesLoop k)

/-- `read_bytes`: up to `n` whole bytes. -/
def readBytes (n : Nat) : BitRead (List UInt8) := do
  let r ← get
  if (r.buffer.length - r.offset) % 8 ≠ 0 then throw (.msg notAlignedMsg)
  readBytesLoop n

def readBytesExact (n : Nat) : BitRead (List UInt8) := do
  let bs ← readBytes n
  if bs.length ≠ n then throw .notEnoughBits
  pure bs

/-- The first loop of `read_bytes_and_consume`: the bytes still in the buffer, up to `k`. -/
def readBufferedBytes : Nat → BitRead (List UInt8)
  | 0 => pure []
  | k + 1 => do
    let r ← get
    if r.offset < r.buffer.length then
      let b ← readBitsExact 8
      return UInt8.ofNat b :: (← readBufferedBytes k)
    else pure []

/-- `read_bytes_and_consume`: the buffered bytes, then the rest straight from the cursor. -/
def readBytesAndConsume (n : Nat) : BitRead (List UInt8) := do
  let r ← get
  if (r.buffer.length - r.offset) % 8 ≠ 0 then throw (.msg notAlignedMsg)
  let buffered ← readBufferedBytes n
  modify consume
  let r ← get
  let direct := r.input.take (n - buffered.length)
  set { r with input := r.input.drop (n - buffered.length) }
  pure (buffered ++ direct)

/-! ### What a reader gives

The reads are specified by the bits a reader gives from where it stands: the rest of its buffer,
then the cursor's bytes. A read takes a prefix of them and leaves a reader that gives the rest;
that is `Reads`, and reads in sequence take the prefixes in sequence (`Reads.bind`). -/

/-- The bits the reader gives from here, least significant bit of each byte first. -/
def upcoming (r : BitReader) : List Bool :=
  r.buffer.drop r.offset ++ r.input.flatMap fun b => bitsOf b.toNat 8

theorem upcoming_def (r : BitReader) :
    r.upcoming = r.buffer.drop r.offset ++ r.input.flatMap fun b => bitsOf b.toNat 8 := rfl

/-- The offset is within the buffer. -/
def WF (r : BitReader) : Prop := r.offset ≤ r.buffer.length

@[simp] theorem length_bitsOf (val len : Nat) : (bitsOf val len).length = len := by
  simp [bitsOf]

theorem upcoming_new (input : List UInt8) :
    (new input).upcoming = input.flatMap fun b => bitsOf b.toNat 8 := by
  simp [upcoming_def, new]

theorem wf_new (input : List UInt8) : (new input).WF := Nat.le_refl 0

theorem upcoming_of_lt {r : BitReader} (hlt : r.offset < r.buffer.length) :
    r.upcoming = r.buffer.getD r.offset false :: { r with offset := r.offset + 1 }.upcoming := by
  simp only [upcoming_def, List.drop_eq_getElem_cons hlt, List.getD_eq_getElem?_getD,
    List.getElem?_eq_getElem hlt, Option.getD_some, List.cons_append]

theorem upcoming_pull {r : BitReader} (hoff : r.offset = r.buffer.length) {c : UInt8}
    {cs : List UInt8} (hin : r.input = c :: cs) :
    { r with buffer := r.buffer ++ bitsOf c.toNat 8, input := cs }.upcoming = r.upcoming := by
  simp [upcoming_def, hin, hoff]

/-- The next bit is the first the reader gives, and the reader after gives the others. -/
theorem nextBit_of_upcoming {r : BitReader} (hwf : r.WF) {b : Bool} {bs : List Bool}
    (hu : r.upcoming = b :: bs) : ∃ r', r.nextBit = some (b, r') ∧ r'.WF ∧ r'.upcoming = bs := by
  have hread : ∀ r : BitReader, r.offset < r.buffer.length → r.upcoming = b :: bs →
      r.buffer.getD r.offset false = b ∧
        WF { r with offset := r.offset + 1 } ∧ { r with offset := r.offset + 1 }.upcoming = bs := by
    intro r hlt hu
    rw [upcoming_of_lt hlt, List.cons.injEq] at hu
    exact ⟨hu.1, hlt, hu.2⟩
  by_cases hoff : r.offset = r.buffer.length
  · cases hin : r.input with
    | nil => simp [upcoming_def, hoff, hin] at hu
    | cons c cs =>
      have hlt : r.offset < (r.buffer ++ bitsOf c.toNat 8).length := by simp; omega
      obtain ⟨heq, hwf', hu'⟩ := hread { r with buffer := r.buffer ++ bitsOf c.toNat 8, input := cs }
        hlt (by rw [upcoming_pull hoff hin, hu])
      refine ⟨_, ?_, hwf', hu'⟩
      simp only at heq
      simp only [nextBit, if_pos hoff, hin, Option.map_some, heq]
  · obtain ⟨heq, hwf', hu'⟩ := hread r (lt_of_le_of_ne hwf hoff) hu
    refine ⟨_, ?_, hwf', hu'⟩
    simp only [nextBit, if_neg hoff, Option.map_some, heq]

theorem consume_spec {r : BitReader} (hwf : r.WF) : r.consume.WF ∧ r.consume.upcoming = r.upcoming := by
  by_cases hoff : r.offset = r.buffer.length
  · simp [consume, WF, upcoming_def, hoff]
  · simp [consume, hoff]
    exact ⟨hwf, rfl⟩

/-- The value the loop of `read_bits` builds from the bits `u`, bit `i` on. -/
def bitsValue : Nat → Nat → List Bool → Nat
  | _, out, [] => out
  | i, out, b :: bs => bitsValue (i + 1) (out ||| (if b then 1 else 0) <<< i) bs

theorem readBitsLoop_of_upcoming : ∀ (u : List Bool) {i out : Nat} {r : BitReader} {v : List Bool},
    r.WF → r.upcoming = u ++ v →
      ∃ r', readBitsLoop i u.length out r = (.ok (some (bitsValue i out u)), r') ∧ r'.WF ∧
        r'.upcoming = v
  | [], _, _, r, _, hwf, hu => ⟨r, rfl, hwf, hu⟩
  | b :: bs, i, out, r, v, hwf, hu => by
    obtain ⟨r1, hnext, hwf1, hu1⟩ := nextBit_of_upcoming hwf hu
    obtain ⟨r', hloop, hwf', hu'⟩ := readBitsLoop_of_upcoming bs hwf1 hu1
    refine ⟨r', ?_, hwf', hu'⟩
    rw [List.length_cons, readBitsLoop, hnext]
    exact hloop

/-- `x` reads the bits `u` and returns `a`: from a reader that gives `u` and then `v`, it returns
`a` and leaves a reader that gives `v`. -/
def Reads {α : Type} (x : BitRead α) (u : List Bool) (a : α) : Prop :=
  ∀ r v, WF r → upcoming r = u ++ v → ∃ r', x.run.run r = (.ok a, r') ∧ r'.WF ∧ r'.upcoming = v

theorem run_bind_of_ok {α β : Type} {x : BitRead α} {f : α → BitRead β} {r r' : BitReader}
    {a : α} (h : x.run.run r = (.ok a, r')) : (x >>= f).run.run r = (f a).run.run r' := by
  simp only [ExceptT.run_bind, StateT.run_bind, h]
  rfl

theorem Reads.pure {α : Type} (a : α) : Reads (Pure.pure a) [] a :=
  fun r _ hwf hu => ⟨r, rfl, hwf, hu⟩

theorem Reads.bind {α β : Type} {x : BitRead α} {f : α → BitRead β} {u w : List Bool} {a : α}
    {b : β} (hx : Reads x u a) (hf : Reads (f a) w b) : Reads (x >>= f) (u ++ w) b := by
  intro r v hwf hu
  obtain ⟨r1, h1, hwf1, hu1⟩ := hx r (w ++ v) hwf (by rw [hu, List.append_assoc])
  obtain ⟨r2, h2, hwf2, hu2⟩ := hf r1 v hwf1 hu1
  exact ⟨r2, by rw [run_bind_of_ok h1, h2], hwf2, hu2⟩

theorem Reads.map {α β : Type} {x : BitRead α} {u : List Bool} {a : α} (hx : Reads x u a)
    (g : α → β) : Reads (x >>= fun a => Pure.pure (g a)) u (g a) := by
  have h : Reads (x >>= fun a => Pure.pure (g a)) (u ++ []) (g a) := hx.bind (Reads.pure _)
  rwa [List.append_nil] at h

theorem Reads.foldlM_cons {α β : Type} {f : β → α → BitRead β} {b b' c : β} {a : α} {l : List α}
    {u w : List Bool} (hx : Reads (f b a) u b') (hr : Reads (l.foldlM f b') w c) :
    Reads ((a :: l).foldlM f b) (u ++ w) c := by
  rw [List.foldlM_cons]
  exact hx.bind hr

/-- `read_bits_exact(n)` reads the next `n` bits, the first the least significant. -/
theorem reads_readBitsExact (u : List Bool) :
    Reads (readBitsExact u.length) u (bitsValue 0 0 u) := by
  intro r v hwf hu
  obtain ⟨r', hloop, hwf', hu'⟩ := readBitsLoop_of_upcoming u hwf hu
  refine ⟨r', ?_, hwf', hu'⟩
  have hread : (readBits u.length).run.run r = (.ok (some (bitsValue 0 0 u)), r') := hloop
  rw [readBitsExact, run_bind_of_ok hread]
  rfl

end BitReader

/-! ## `read_code` on a reader -/

open BitReader HuffmanNode

/-- The loop of `read_code` at an inner node: the next bit picks a child; a leaf is the symbol,
an inner node the next pass, an empty slot an error. -/
def readCodeAt : HuffmanNode → BitRead Nat
  | .inner left right => do
    let b ← readBitsExact 1
    if b = 0 then readCodeAt.child left (readCodeAt left)
    else readCodeAt.child right (readCodeAt right)
  | _ => throw (.msg "Invalid code prefix read")
where
  /-- What the loop does at the child `next`, with `walk` the pass from it. -/
  child (next : HuffmanNode) (walk : BitRead Nat) : BitRead Nat :=
    match next with
    | .leaf sym => pure sym
    | .inner _ _ => walk
    | .empty => throw (.msg "Invalid code prefix read")

/-- `HuffmanTree::read_code`. -/
def HuffmanTree.readCodeFrom (t : HuffmanTree) : BitRead Nat :=
  match t.root with
  | .inner l r => readCodeAt (.inner l r)
  | _ => throw (.msg "Empty tree")

/-- Reading a leaf's code on a reader returns its symbol and takes exactly the code's bits. -/
theorem reads_readCodeAt {s : Nat} :
    ∀ {code : List Bool} {left right : HuffmanNode}, LeafAt (.inner left right) code s →
      Reads (readCodeAt (.inner left right)) code s
  | [], _, _, h => by simp at h
  | b :: code, left, right, h => by
    simp only [leafAt_inner_cons] at h
    have hchild : Reads (readCodeAt.child (if b then right else left)
        (readCodeAt (if b then right else left))) code s := by
      generalize (if b then right else left) = next at h ⊢
      cases next with
      | empty => simp at h
      | leaf s' =>
        cases code with
        | nil => simp only [leafAt_leaf_nil] at h; subst h; exact Reads.pure _
        | cons => simp at h
      | inner l r =>
        cases code with
        | nil => simp at h
        | cons => exact reads_readCodeAt h
    have hbit : Reads (readBitsExact 1) [b] (if b then 1 else 0) := by
      cases b <;> exact reads_readBitsExact _
    rw [readCodeAt]
    exact Reads.bind hbit (by cases b <;> exact hchild)

theorem reads_readCodeFrom {t : HuffmanTree} {code : List Bool} {s : Nat}
    (hroot : InnerAt t.root []) (h : LeafAt t.root code s) : Reads t.readCodeFrom code s := by
  match hr : t.root, hroot with
  | .inner l r, _ =>
    rw [hr] at h
    simp only [HuffmanTree.readCodeFrom, hr]
    exact reads_readCodeAt h

end Dacha.Compression
