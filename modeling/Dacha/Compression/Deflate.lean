import Mathlib

/-!
# `Deflater::update_impl` (`compression/src/deflate/deflate.rs:116-236`)

| here | there |
| --- | --- |
| `BitWriter` | `common/src/bits.rs:681-760`, least significant bit first |
| `BufferQueue` | `compression/src/buffer_queue.rs:8-53` |
| `Deflater`, `Deflater.new` | `:52-104`; the matching window is the data compressed so far |
| `BlockCoder`, `compressChunk` | `compress_chunk` (`:240-384`) |
| `Deflater.compressFullChunks` | the loop of `:176-191` |
| `Deflater.updateImpl` | `update_impl` (`:116-236`) |
| `Deflater.run` | successive `Transform::update` calls (`:396-405`) |

`compress_chunk` writes a block: the header bits `BFINAL` and `BTYPE = 2`, then the Huffman
tables and codes of the chunk, which depend on the chunk and on the matching window, that is on
the data compressed before. The coding itself is left as a parameter `coder`, and every
theorem here holds for every coder; what is modelled is the streaming around it: how input is
buffered into chunks of `CHUNK_SIZE`, which block is marked final, and how bits and bytes reach
the caller.

Input that does not fill a chunk is kept in `input_buffer` for the next call. When the next call
has `end_of_input` and does not fill the chunk either, that buffer is never compressed: the
`if self.input_buffer.len() > 0` branch only compresses a full chunk, and the final branch only
looks at the call's own input (`:164-205`). Two calls `a` then `b` with `end_of_input`, whose
lengths add up to less than a chunk, write no byte at all (`run_two_short_calls`): there is no
block, final or not, and nothing for an inflater to decode. The state after an `Err` is not
modelled: a run stops at its first error.
-/

namespace Dacha.Compression

/-! ## Bits -/

/-- The `len` low bits of `val`, least significant first, as `write_bits(val, len)` takes them. -/
def bitsOf (val len : Nat) : List Bool := (List.range len).map val.testBit

/-- The byte of eight bits, the first one least significant. -/
def byteOfBits (bits : List Bool) : UInt8 :=
  UInt8.ofNat (bits.foldr (fun b acc => 2 * acc + if b then 1 else 0) 0)

/-- `BitWriter` on a `Vec<u8>`: the bytes written, and the bits of `current_byte` not yet
written. -/
structure BitWriter where
  out : List UInt8
  pending : List Bool
  deriving DecidableEq, Repr

namespace BitWriter

/-- One bit of `write_bits`: a byte is written when eight are pending. -/
def writeBit (w : BitWriter) (b : Bool) : BitWriter :=
  if w.pending.length + 1 = 8 then ⟨w.out ++ [byteOfBits (w.pending ++ [b])], []⟩
  else ⟨w.out, w.pending ++ [b]⟩

/-- `write_bits` and `write_bitvec` -/
def writeBits (w : BitWriter) (bits : List Bool) : BitWriter := bits.foldl writeBit w

/-- `finish`: the pending bits are written as one byte, padded with zeros. -/
def finish (w : BitWriter) : BitWriter :=
  if w.pending = [] then w else ⟨w.out ++ [byteOfBits w.pending], []⟩

@[simp] theorem writeBits_nil (w : BitWriter) : w.writeBits [] = w := rfl

@[simp] theorem finish_of_pending_nil {w : BitWriter} (h : w.pending = []) : w.finish = w := by
  simp [finish, h]

end BitWriter

/-! ## The output queue -/

structure BufferQueue where
  buffer : List UInt8
  bufferOffset : Nat
  deriving DecidableEq, Repr

namespace BufferQueue

/-- `copy_to` into a buffer of `n` bytes: the bytes copied, and the queue after. -/
def copyTo (q : BufferQueue) (n : Nat) : List UInt8 × BufferQueue :=
  let k := min (q.buffer.length - q.bufferOffset) n
  let copied := (q.buffer.drop q.bufferOffset).take k
  let offset := q.bufferOffset + k
  (copied, if offset = q.buffer.length then ⟨[], 0⟩ else ⟨q.buffer, offset⟩)

def isEmpty (q : BufferQueue) : Bool := q.buffer.isEmpty

end BufferQueue

/-! ## The deflater -/

/-- `CHUNK_SIZE` (`:30`) -/
def CHUNK_SIZE : Nat := 8192

/-- `BTYPE_DYNAMIC_CODES` (`deflate/shared.rs:9`) -/
def BTYPE_DYNAMIC_CODES : Nat := 2

/-- The coding part of `compress_chunk`: from the data compressed before (the matching window)
and the chunk, the bits after the block header, or an error. -/
abbrev BlockCoder := List UInt8 → List UInt8 → Except String (List Bool)

/-- `compress_chunk`: the block header, then the coded chunk. -/
def compressChunk (coder : BlockCoder) (history chunk : List UInt8) (w : BitWriter)
    (isFinal : Bool) : Except String BitWriter := do
  let w := w.writeBits (bitsOf (if isFinal then 1 else 0) 1)
  let w := w.writeBits (bitsOf BTYPE_DYNAMIC_CODES 2)
  let body ← coder history chunk
  pure (w.writeBits body)

structure Deflater where
  /-- what the matching window has seen: every chunk compressed so far -/
  history : List UInt8
  inputBuffer : List UInt8
  outputBuffer : BufferQueue
  outputBufferEnd : List Bool
  endOfInput : Bool
  deriving DecidableEq, Repr

/-- `TransformProgress` (`transform.rs:32-47`) -/
structure TransformProgress where
  inputRead : Nat
  outputWritten : Nat
  done : Bool
  deriving DecidableEq, Repr

namespace Deflater

def new : Deflater := ⟨[], [], ⟨[], 0⟩, [], false⟩

/-- How many bytes of `input` top up the buffered input (`:164-166`). -/
def fillCount (inputBuffer input : List UInt8) : Nat :=
  if inputBuffer.length > 0 then min (CHUNK_SIZE - inputBuffer.length) input.length else 0

theorem fillCount_of_nil (input : List UInt8) : fillCount [] input = 0 := rfl

theorem fillCount_of_short {inputBuffer input : List UInt8} (hne : inputBuffer ≠ [])
    (h : inputBuffer.length + input.length < CHUNK_SIZE) :
    fillCount inputBuffer input = input.length := by
  have hpos : inputBuffer.length > 0 := List.length_pos_iff.mpr hne
  simp only [fillCount, hpos, if_true]
  omega

/-- The loop over the `k` full chunks of `input` from byte `i` (`:176-191`): the chunk that ends
at the end of `input` is marked final, whether or not the input ends there. -/
def compressFullChunks (coder : BlockCoder) (input : List UInt8) :
    Nat → Nat → List UInt8 → BitWriter → Except String (List UInt8 × BitWriter)
  | 0, _, history, w => .ok (history, w)
  | k + 1, i, history, w => do
    let chunk := (input.drop i).take CHUNK_SIZE
    let w ← compressChunk coder history chunk w (i + CHUNK_SIZE == input.length)
    compressFullChunks coder input k (i + CHUNK_SIZE) (history ++ chunk) w

/-- `update_impl` with an output buffer of `outLen` bytes: the progress, the bytes written into
the output buffer, and the deflater after. -/
def updateImpl (coder : BlockCoder) (d : Deflater) (input : List UInt8) (endOfInput : Bool)
    (outLen : Nat) : Except String (TransformProgress × List UInt8 × Deflater) := do
  if endOfInput then
    if d.endOfInput && input.length ≠ 0 then
      throw "Received extra data after end of input hint"
  else if d.endOfInput then
    throw "No longer seeing end_of_input"
  let flag := d.endOfInput || endOfInput
  let (copied, queue) := if outLen > 0 then d.outputBuffer.copyTo outLen else ([], d.outputBuffer)
  let w : BitWriter := (BitWriter.mk queue.buffer []).writeBits d.outputBufferEnd
  let fill := fillCount d.inputBuffer input
  let buffered := d.inputBuffer ++ input.take fill
  let input := input.drop fill
  let (history, buffered, w) ←
    if d.inputBuffer.length > 0 ∧ buffered.length = CHUNK_SIZE then do
      let w ← compressChunk coder d.history buffered w (endOfInput && input.length == 0)
      pure (d.history ++ buffered, [], w)
    else pure (d.history, buffered, w)
  let remaining := input.length % CHUNK_SIZE
  let (history, w) ← compressFullChunks coder input (input.length / CHUNK_SIZE) 0 history w
  let i := input.length - remaining
  -- the rest: compressed as the last block at the end of the input, buffered otherwise
  let (history, buffered, w) ←
    if remaining > 0 then
      if endOfInput then do
        let w ← compressChunk coder history (input.drop i) w endOfInput
        pure (history ++ input.drop i, buffered, w)
      else pure (history, buffered ++ input.drop i, w)
    else pure (history, buffered, w)
  let w := if endOfInput then w.finish else w
  let queue : BufferQueue := ⟨w.out, queue.bufferOffset⟩
  let (copied', queue) := queue.copyTo (outLen - copied.length)
  pure (⟨fill + (input.length - remaining) + remaining, copied.length + copied'.length,
      endOfInput && queue.isEmpty⟩, copied ++ copied',
    ⟨history, buffered, queue, w.pending, flag⟩)

/-- Successive `update` calls, each with its input, its `end_of_input` and the size of its
output buffer: the bytes written into the output buffers, in order, and the deflater after. -/
def run (coder : BlockCoder) : Deflater → List (List UInt8 × Bool × Nat) →
    Except String (List UInt8 × Deflater)
  | d, [] => .ok ([], d)
  | d, (input, endOfInput, outLen) :: calls => do
    let (_, written, d) ← d.updateImpl coder input endOfInput outLen
    let (more, d) ← run coder d calls
    pure (written ++ more, d)

/-! ## Short input -/

/-- A call without `end_of_input` that leaves the buffered input short of a chunk only buffers
its input. -/
theorem updateImpl_of_short (coder : BlockCoder) {d : Deflater} {input : List UInt8} {outLen : Nat}
    (hend : d.endOfInput = false) (hout : d.outputBuffer = ⟨[], 0⟩) (hbits : d.outputBufferEnd = [])
    (hshort : d.inputBuffer.length + input.length < CHUNK_SIZE) :
    d.updateImpl coder input false outLen =
      .ok (⟨input.length, 0, false⟩, [], { d with inputBuffer := d.inputBuffer ++ input }) := by
  have hlt : input.length < CHUNK_SIZE := by omega
  by_cases hbuf : d.inputBuffer = []
  · -- nothing buffered: the input is the rest of the call, and is buffered
    have hmod : input.length % CHUNK_SIZE = input.length := Nat.mod_eq_of_lt hlt
    have hdiv : input.length / CHUNK_SIZE = 0 := Nat.div_eq_of_lt hlt
    by_cases hnil : input = []
    · subst hnil
      simp [updateImpl, hend, hout, hbits, hbuf, fillCount_of_nil, BufferQueue.copyTo,
        compressFullChunks, bind, Except.bind, pure, Except.pure]
    · have hpos : 0 < input.length := List.length_pos_iff.mpr hnil
      simp [updateImpl, hend, hout, hbits, hbuf, fillCount_of_nil, BufferQueue.copyTo, hmod, hdiv,
        compressFullChunks, bind, Except.bind, pure, Except.pure, hpos]
  · -- something buffered: the whole input tops it up, short of a chunk
    have hfill := fillCount_of_short hbuf hshort
    have hne : ¬ d.inputBuffer.length + input.length = CHUNK_SIZE := by omega
    simp [updateImpl, hend, hout, hbits, hfill, BufferQueue.copyTo, hne,
      compressFullChunks, bind, Except.bind, pure, Except.pure]

/-- A call with `end_of_input` that tops up buffered input without filling a chunk compresses
nothing and writes nothing: the buffered bytes are never compressed. -/
theorem updateImpl_end_of_short (coder : BlockCoder) {d : Deflater} {input : List UInt8}
    {outLen : Nat} (hend : d.endOfInput = false) (hout : d.outputBuffer = ⟨[], 0⟩)
    (hbits : d.outputBufferEnd = []) (hbuf : d.inputBuffer ≠ [])
    (hshort : d.inputBuffer.length + input.length < CHUNK_SIZE) :
    d.updateImpl coder input true outLen =
      .ok (⟨input.length, 0, true⟩, [],
        { d with inputBuffer := d.inputBuffer ++ input, endOfInput := true }) := by
  have hfill := fillCount_of_short hbuf hshort
  have hne : ¬ d.inputBuffer.length + input.length = CHUNK_SIZE := by omega
  simp [updateImpl, hend, hout, hbits, hfill, BufferQueue.copyTo, hne,
    compressFullChunks, bind, Except.bind, pure, Except.pure, BufferQueue.isEmpty]

/-- Input split into a short call and a short last call is never compressed: the deflater
writes no byte, whatever the coder and the output buffers. -/
theorem run_two_short_calls (coder : BlockCoder) {a b : List UInt8} (ha : a ≠ [])
    (hab : a.length + b.length < CHUNK_SIZE) (outA outB : Nat) :
    run coder new [(a, false, outA), (b, true, outB)] = .ok ([], ⟨[], a ++ b, ⟨[], 0⟩, [], true⟩) := by
  have hfirst : new.updateImpl coder a false outA =
      .ok (⟨a.length, 0, false⟩, [], ⟨[], a, ⟨[], 0⟩, [], false⟩) := by
    rw [@updateImpl_of_short coder new a outA rfl rfl rfl (by simp [new]; omega)]
    rfl
  have hsecond : (Deflater.mk [] a ⟨[], 0⟩ [] false).updateImpl coder b true outB =
      .ok (⟨b.length, 0, true⟩, [], ⟨[], a ++ b, ⟨[], 0⟩, [], true⟩) :=
    @updateImpl_end_of_short coder ⟨[], a, ⟨[], 0⟩, [], false⟩ b outB rfl rfl rfl ha hab
  simp only [run, hfirst, hsecond, bind, Except.bind, pure, Except.pure, List.append_nil]

end Deflater

/-- The input `ab`, given as `a` and then `b` with `end_of_input`, comes out as nothing at all:
no byte is written, so there is no block and nothing to inflate. -/
theorem split_input_writes_nothing (coder : BlockCoder) (outA outB : Nat) :
    Deflater.run coder Deflater.new [([0x61], false, outA), ([0x62], true, outB)] =
      .ok ([], ⟨[], [0x61, 0x62], ⟨[], 0⟩, [], true⟩) :=
  Deflater.run_two_short_calls coder (by decide) (by decide) outA outB

end Dacha.Compression
