import Mathlib

/-!
# `PatternReader` (`http/src/reader.rs`)

| here | there |
| --- | --- |
| `Error`, `Outcome` | `common::errors::Error` as the modelled code builds it; a call that returns or panics |
| `Delivery`, `readSource` | the `Box<dyn SharedReadable>` under the reader: the stream, in the pieces it delivers |
| `Matcher`, `LineMatcher` | `Matcher`, `LineMatcher` (`:6-71`) |
| `PatternReader`, `StreamBufferOptions`, `StreamReadUntil` | `:79-95`, `:197-227` |
| `PatternReader.readMatching` | `read_matching` (`:101-171`) |
| `PatternReader.read` | `Readable::read` (`:174-195`) |
| `PatternReader.readExact` | `Readable::read_exact` (`common/src/io.rs:443-465`) |

The stream under the reader is a list of deliveries: each `read` of the underlying stream
returns bytes of the first piece (at most as many as the buffer holds, the rest stays for the
next call) or an I/O error, and an empty list is the end of the stream. Any split of a byte
stream into pieces is one such list.

`read_matching` fills a buffer from the reader's `head` (bytes read past the last match) or
from the stream, gives each new slice to the matcher, and grows the buffer by `buffer_size`
up to `max_buffer_size`. Its loop runs on fuel: each round but the first takes at least one
byte from the stream, so `2 +` the stream's length is enough (`readMatching_eq_loop`). Its
`assert_eq!(idx, 0)` never fires, since `head` is emptied by the round that reads it
(`readMatching_ne_panic`). `max_buffer_size - buf.len()` is a `usize` subtraction; it is
truncated here, and does not underflow with the options of the source, whose `buffer_size`
is below `max_buffer_size`.
-/

namespace Dacha.Http

/-- The errors the modelled code returns. -/
inductive Error where
  /-- `err_msg(text)` -/
  | msg (text : String)
  /-- an error of the underlying stream, passed on -/
  | io
  /-- `IoErrorKind::UnexpectedEof { num_read }` of `read_exact` -/
  | unexpectedEof (numRead : Nat)
  deriving DecidableEq, Repr

/-- How a call on a `&mut self` receiver ends: it returns a `Result` and leaves the receiver
in a new state, or it panics. -/
inductive Outcome (σ α : Type) where
  | ret (result : Except Error α) (self : σ)
  | panic (msg : String)
  deriving DecidableEq, Repr

/-- One `read` of the underlying stream: some bytes, or an I/O error. -/
inductive Delivery where
  | data (bytes : List UInt8)
  | ioError
  deriving DecidableEq, Repr

/-- A `read` of the underlying stream into a buffer of `n` bytes. -/
def readSource : List Delivery → Nat → Except Error (List UInt8) × List Delivery
  | [], _ => (.ok [], [])
  | .ioError :: rest, _ => (.error .io, rest)
  | .data bytes :: rest, n =>
    (.ok (bytes.take n), if n < bytes.length then .data (bytes.drop n) :: rest else rest)

/-- The number of bytes left in the stream. -/
def sourceLength : List Delivery → Nat
  | [] => 0
  | .ioError :: rest => sourceLength rest
  | .data bytes :: rest => bytes.length + sourceLength rest

/-! ## Matchers -/

/-- `Matcher`: fed the stream slice by slice, it reports the index just after the first match
in the slice it was given. -/
class Matcher (M : Type) where
  process : M → List UInt8 → Option Nat × M

structure LineMatcher where
  seenCr : Bool
  curLength : Nat
  emptyOnly : Bool
  deriving DecidableEq, Repr

namespace LineMatcher

def any : LineMatcher := ⟨false, 0, false⟩

def empty : LineMatcher := ⟨false, 0, true⟩

/-- The loop of `process` from byte `i` of the slice. A CR clears nothing; the byte after it
ends the line if it is an LF, and then matches unless only empty lines are wanted and the line
had more than the two bytes of its CRLF. -/
def process.go : LineMatcher → Nat → List UInt8 → Option Nat × LineMatcher
  | m, _, [] => (none, m)
  | m, i, v :: vs =>
    if m.seenCr && v == 0x0a then
      if m.curLength + 1 == 2 || !m.emptyOnly then (some (i + 1), ⟨false, 0, m.emptyOnly⟩)
      else go ⟨false, 0, m.emptyOnly⟩ (i + 1) vs
    else go ⟨v == 0x0d, m.curLength + 1, m.emptyOnly⟩ (i + 1) vs

def process (m : LineMatcher) (data : List UInt8) : Option Nat × LineMatcher := process.go m 0 data

instance : Matcher LineMatcher := ⟨process⟩

end LineMatcher

/-! ## The reader -/

structure StreamBufferOptions where
  bufferSize : Nat
  maxBufferSize : Nat
  deriving DecidableEq, Repr

def StreamBufferOptions.default : StreamBufferOptions := ⟨1024, 16 * 1024⟩

/-- `MESSAGE_HEAD_BUFFER_OPTIONS` (`message.rs:11-14`) -/
def MESSAGE_HEAD_BUFFER_OPTIONS : StreamBufferOptions := ⟨1024, 256 * 1024⟩

inductive StreamReadUntil where
  | Value (v : List UInt8)
  | TooLarge
  | Incomplete (v : List UInt8)
  | EndOfStream
  deriving DecidableEq, Repr

/-- `PatternReader`: the stream, the bytes read past the last match, and the options. -/
structure PatternReader where
  source : List Delivery
  head : List UInt8
  options : StreamBufferOptions
  deriving DecidableEq, Repr

/-- `Vec::resize(n, 0)` -/
def resize (buf : List UInt8) (n : Nat) : List UInt8 := buf.take n ++ List.replicate (n - buf.length) 0

/-- `buf[at..at + data.len()].copy_from_slice(data)` -/
def copyInto (buf : List UInt8) (at_ : Nat) (data : List UInt8) : List UInt8 :=
  buf.take at_ ++ data ++ buf.drop (at_ + data.length)

namespace PatternReader

def new (source : List Delivery) (options : StreamBufferOptions) : PatternReader :=
  ⟨source, [], options⟩

variable {M : Type} [Matcher M]

/-- The bytes a round of `read_matching` adds to the buffer: the `head` left by the last match,
copied to the front, else one read of the stream after `idx`. `none` is the end of the stream. -/
def readMatching.fill (r : PatternReader) (buf : List UInt8) (idx : Nat) :
    Outcome PatternReader (Option (List UInt8 × Nat)) :=
  if r.head.length > 0 then
    if r.head.length > r.options.maxBufferSize then
      .ret (.error (.msg "No much data remaining from last run")) r
    else if idx ≠ 0 then .panic "assertion `left == right` failed"
    else
      let n := r.head.length
      .ret (.ok (some (copyInto (resize buf (max buf.length n)) 0 r.head, n))) { r with head := [] }
  else
    match readSource r.source (buf.length - idx) with
    | (.error e, source) => .ret (.error e) { r with source }
    | (.ok data, source) =>
      if data.length = 0 then .ret (.ok none) { r with source }
      else .ret (.ok (some (copyInto buf idx data, idx + data.length))) { r with source }

/-- The loop of `read_matching` and what follows it, on fuel. `buf` is the buffer, `idx` the
index up to which it has been filled. -/
def readMatching.loop (r : PatternReader) : Nat → List UInt8 → Nat → M →
    Outcome PatternReader StreamReadUntil
  | 0, _, _, _ => .ret (.ok .EndOfStream) r
  | fuel + 1, buf, idx, matcher =>
    match readMatching.fill r buf idx with
    | .panic msg => .panic msg
    | .ret (.error e) r => .ret (.error e) r
    | .ret (.ok none) r => .ret (.ok (if idx ≠ 0 then .Incomplete buf else .EndOfStream)) r
    | .ret (.ok (some (buf, nextIdx))) r =>
      match Matcher.process matcher ((buf.drop idx).take (nextIdx - idx)) with
      | (some i, _) =>
        let b := buf.take nextIdx
        .ret (.ok (.Value (b.take (idx + i)))) { r with head := b.drop (idx + i) }
      | (none, matcher) =>
        if buf.length - nextIdx < r.options.bufferSize then
          let numToAdd := min r.options.bufferSize (r.options.maxBufferSize - buf.length)
          if numToAdd = 0 then .ret (.ok .TooLarge) r
          else readMatching.loop r fuel (resize buf (buf.length + numToAdd)) nextIdx matcher
        else readMatching.loop r fuel buf nextIdx matcher

def readMatching (r : PatternReader) (matcher : M) : Outcome PatternReader StreamReadUntil :=
  readMatching.loop r (sourceLength r.source + 2) (List.replicate r.options.bufferSize 0) 0 matcher

/-- `Readable::read` into a buffer of `n` bytes: first from `head`, then one read of the
stream for the rest. -/
def read (r : PatternReader) (n : Nat) : Except Error (List UInt8) × PatternReader :=
  let fromHead := r.head.take n
  let r := { r with head := r.head.drop n }
  if n - fromHead.length > 0 then
    match readSource r.source (n - fromHead.length) with
    | (.error e, source) => (.error e, { r with source })
    | (.ok data, source) => (.ok (fromHead ++ data), { r with source })
  else (.ok fromHead, r)

/-- The loop of `read_exact`, with `want` bytes still to read and `numRead` read. Each round
reads at least one byte or ends, so `want` rounds are enough. -/
def readExact.loop (r : PatternReader) (numRead : Nat) : Nat → Nat →
    Except Error (List UInt8) × PatternReader
  | 0, _ => (.ok [], r)
  | fuel + 1, want =>
    if want = 0 then (.ok [], r)
    else
      match r.read want with
      | (.error e, r) => (.error e, r)
      | (.ok data, r) =>
        if data.length = 0 then (.error (.unexpectedEof numRead), r)
        else
          match readExact.loop r (numRead + data.length) fuel (want - data.length) with
          | (.ok more, r) => (.ok (data ++ more), r)
          | (.error e, r) => (.error e, r)

/-- `read_exact` into a buffer of `n` bytes. -/
def readExact (r : PatternReader) (n : Nat) : Except Error (List UInt8) × PatternReader :=
  readExact.loop r 0 n n

/-! ## What a read takes from the stream -/

theorem readSource_of_ok {src src' : List Delivery} {n : Nat} {data : List UInt8}
    (h : readSource src n = (.ok data, src')) :
    data.length ≤ n ∧ sourceLength src' + data.length = sourceLength src := by
  match src, h with
  | [], h =>
    simp only [readSource, Prod.mk.injEq, Except.ok.injEq] at h
    obtain ⟨rfl, rfl⟩ := h
    simp
  | .ioError :: _, h => simp [readSource] at h
  | .data bytes :: rest, h =>
    simp only [readSource, Prod.mk.injEq, Except.ok.injEq] at h
    obtain ⟨rfl, rfl⟩ := h
    split <;> simp [sourceLength, List.length_take] <;> omega

/-- `read` into a buffer of `n` bytes fills at most `n` of them. -/
theorem read_length_le {r r' : PatternReader} {n : Nat} {data : List UInt8}
    (h : r.read n = (.ok data, r')) : data.length ≤ n := by
  unfold read at h
  dsimp only at h
  split at h
  · split at h
    · cases h
    · next data' src hsrc =>
      simp only [Prod.mk.injEq, Except.ok.injEq] at h
      obtain ⟨rfl, -⟩ := h
      have := (readSource_of_ok hsrc).1
      simp only [List.length_append, List.length_take] at this ⊢
      omega
  · simp only [Prod.mk.injEq, Except.ok.injEq] at h
    obtain ⟨rfl, -⟩ := h
    simp

/-! ## `read_matching`

The measure of the loop is the stream's length, plus one while a `head` is left: every round
that goes on lowers it (`readMatching.fill_measure`), so fuel beyond it is never used up. -/

/-- The bytes the reader still has: the stream, and one more for a pending `head`. -/
def measure (r : PatternReader) : Nat := sourceLength r.source + if r.head = [] then 0 else 1

section ReadMatching

variable {M : Type} [Matcher M]

theorem readMatching.fill_measure {r r' : PatternReader} {buf buf' : List UInt8}
    {idx nextIdx : Nat} (h : fill r buf idx = .ret (.ok (some (buf', nextIdx))) r') :
    r'.head = [] ∧ measure r' < measure r := by
  unfold fill at h
  split at h
  · next hhead =>
    split at h
    · cases h
    · split at h
      · cases h
      · cases h
        have hne : r.head ≠ [] := List.ne_nil_of_length_pos hhead
        simp [measure, hne]
  · next hhead =>
    have hnil : r.head = [] := List.eq_nil_of_length_eq_zero (by omega)
    split at h
    · cases h
    · next data src hsrc =>
      split at h
      · cases h
      · next hpos =>
        cases h
        have := (readSource_of_ok hsrc).2
        refine ⟨hnil, ?_⟩
        simp only [measure, hnil, if_true]
        omega

/-- The `assert_eq!(idx, 0)` holds: a `head` is only read in the first round. -/
theorem readMatching.fill_ne_panic {r : PatternReader} {buf : List UInt8} {idx : Nat}
    (h : r.head = [] ∨ idx = 0) (msg : String) : fill r buf idx ≠ .panic msg := by
  unfold fill
  split
  · next hhead =>
    have hne : r.head ≠ [] := List.ne_nil_of_length_pos hhead
    have hidx : idx = 0 := h.resolve_left hne
    split
    · simp
    · simp [hidx]
  · split
    · simp
    · split <;> simp

theorem readMatching.loop_ne_panic : ∀ (fuel : Nat) (r : PatternReader) (buf : List UInt8)
    (idx : Nat) (m : M), (r.head = [] ∨ idx = 0) → ∀ msg, loop r fuel buf idx m ≠ .panic msg
  | 0, _, _, _, _, _, _ => by simp [loop]
  | fuel + 1, r, buf, idx, m, h, msg => by
    unfold loop
    split
    · next msg' hfill => exact absurd hfill (fill_ne_panic h msg')
    · simp
    · simp
    · next buf' nextIdx r' hfill =>
      have hhead := (fill_measure hfill).1
      split
      · simp
      · split
        · dsimp only
          split
          · simp
          · exact loop_ne_panic fuel r' _ nextIdx _ (.inl hhead) msg
        · exact loop_ne_panic fuel r' _ nextIdx _ (.inl hhead) msg

/-- `read_matching` never panics. -/
theorem readMatching_ne_panic (r : PatternReader) (m : M) (msg : String) :
    r.readMatching m ≠ .panic msg :=
  readMatching.loop_ne_panic _ r _ 0 m (.inr rfl) msg

theorem readMatching.loop_congr : ∀ (fuel fuel' : Nat) (r : PatternReader) (buf : List UInt8)
    (idx : Nat) (m : M), measure r < fuel → measure r < fuel' →
      loop r fuel buf idx m = loop r fuel' buf idx m
  | 0, _, _, _, _, _, h, _ => absurd h (Nat.not_lt_zero _)
  | _ + 1, 0, _, _, _, _, _, h' => absurd h' (Nat.not_lt_zero _)
  | fuel + 1, fuel' + 1, r, buf, idx, m, h, h' => by
    unfold loop
    split
    · rfl
    · rfl
    · rfl
    · next buf' nextIdx r' hfill =>
      have hlt := (fill_measure hfill).2
      split
      · rfl
      · split
        · dsimp only
          split
          · rfl
          · exact loop_congr fuel fuel' r' _ nextIdx _ (by omega) (by omega)
        · exact loop_congr fuel fuel' r' _ nextIdx _ (by omega) (by omega)

/-- Any fuel beyond the measure gives `read_matching`'s result: the model's loop never runs out. -/
theorem readMatching_eq_loop (r : PatternReader) (m : M) {fuel : Nat} (h : measure r < fuel) :
    r.readMatching m = readMatching.loop r fuel (List.replicate r.options.bufferSize 0) 0 m := by
  apply readMatching.loop_congr _ _ r _ 0 m _ h
  unfold measure
  split <;> omega

end ReadMatching

/-- `read_exact`'s loop: any fuel of at least the bytes wanted gives the same result, since each
round reads one byte or more. -/
theorem readExact.loop_congr : ∀ (fuel fuel' : Nat) (r : PatternReader) (numRead want : Nat),
    want ≤ fuel → want ≤ fuel' → loop r numRead fuel want = loop r numRead fuel' want
  | 0, 0, _, _, _, _, _ => rfl
  | 0, _ + 1, r, numRead, want, h, _ => by
    have hw : want = 0 := by omega
    subst hw
    simp [loop]
  | _ + 1, 0, r, numRead, want, _, h' => by
    have hw : want = 0 := by omega
    subst hw
    simp [loop]
  | fuel + 1, fuel' + 1, r, numRead, want, h, h' => by
    unfold loop
    split
    · rfl
    · split
      · rfl
      · next data r' hread =>
        have hle := read_length_le hread
        split
        · rfl
        · rw [loop_congr fuel fuel' r' _ (want - data.length) (by omega) (by omega)]

end PatternReader

end Dacha.Http
