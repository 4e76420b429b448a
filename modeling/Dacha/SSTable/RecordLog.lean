import Dacha.Lib.Bytes
import Dacha.Crypto.Crc32c

/-!
# The record log (`pkg/sstable/src/record_log.rs`)

The LevelDB log format. The file is cut into blocks of `BLOCK_SIZE` bytes. A record is written
as one or more fragments, each a seven-byte header (masked CRC-32C of the type and the data,
the data's length, the type) and the data. A fragment never crosses a block boundary, so a
record longer than what is left of the block is split into `FIRST`, `MIDDLE`s and `LAST`; one
that fits is `FULL`. A block whose tail is too short for a header is padded with zeros.

| model | source |
| --- | --- |
| `Fragment.parse` | `Fragment::parse` (`:43-98`) |
| `readBlockRemainder`, `readBlock` | `read_block_remainder`, `read_block` (`:417-464`) |
| `readFragment`, `parseFragment` | `read_fragment` (`:366-410`), its last `match` |
| `readInner`, `readRaw`, `read` | `read_inner`, `read_raw`, `read` (`:258-364`) |
| `RecordWriter.append`, `appendLoop` | `RecordWriter::append` (`:625-681`) |

The file a reader sees is a fixed byte list: the reads of `read_block_remainder` return its bytes
and never fail, so `IoFailure` does not arise. The writer's output is the list of the bytes it
has written; `write_all` does not fail. The two `while` loops get a bound: `readInner` at most
one iteration per byte of the file (every fragment is at least a header long), `appendLoop` one
per byte of the record and two more. Running out is `RecordReadError.OutOfFuel` and `none`,
which the source does not have. The writer's `u64` subtraction
`(BLOCK_SIZE - extent % BLOCK_SIZE) - FRAGMENT_HEADER_SIZE` would underflow with fewer than seven
bytes left in the block; that panic is `none` too.

`readRecords` is the caller's loop: `read` until it gives `None`.
-/

namespace Dacha.SSTable

open Dacha.Bytes Dacha.Crypto

def BLOCK_SIZE : Nat := 32 * 1024

/-- Number of bytes needed to represent just the header of a single fragment. -/
def FRAGMENT_HEADER_SIZE : Nat := 7

inductive FragmentType
  | ZERO
  | FULL
  | FIRST
  | MIDDLE
  | LAST
  deriving DecidableEq, Repr

namespace FragmentType

def toValue : FragmentType → UInt8
  | ZERO => 0
  | FULL => 1
  | FIRST => 2
  | MIDDLE => 3
  | LAST => 4

def fromValue (v : UInt8) : Option FragmentType :=
  match v.toNat with
  | 0 => some ZERO
  | 1 => some FULL
  | 2 => some FIRST
  | 3 => some MIDDLE
  | 4 => some LAST
  | _ => none

@[simp] theorem fromValue_toValue (t : FragmentType) : fromValue t.toValue = some t := by
  cases t <;> rfl

end FragmentType

structure Fragment where
  typ : FragmentType
  data : List UInt8
  deriving DecidableEq, Repr

inductive RecordReadError
  | EndOfFile
  | Corrupt
  | Dropped
  | Incomplete
  /-- The model's bound on the iterations of `read_inner` ran out. -/
  | OutOfFuel
  deriving DecidableEq, Repr

inductive RecordRecoveryMode
  | Strict
  | AllowIncomplete
  deriving DecidableEq, Repr

structure RecordBuffer where
  started : Bool
  ended : Bool
  startFileOffset : Nat
  data : List UInt8
  deriving DecidableEq, Repr

structure RecordReader where
  recoveryMode : RecordRecoveryMode
  fileOffset : Nat
  block : List UInt8
  blockOffset : Nat
  blockCorrupt : Bool
  outputBuffer : Option RecordBuffer
  deriving DecidableEq, Repr

def checkZeroPadding (data : List UInt8) : Bool := data.all (· = 0)

/-- `Fragment::parse`: the next fragment of `input`, the data of the block from the current
offset on, and the offset after it. -/
def Fragment.parse (input : List UInt8) (remainingBlockLength : Nat) :
    Except RecordReadError (Fragment × Nat) :=
  if remainingBlockLength < FRAGMENT_HEADER_SIZE then .error .Corrupt
  else if input.length = 0 then .error .EndOfFile
  else if h : input.length < FRAGMENT_HEADER_SIZE then .error .Incomplete
  else
    let checksum := fromLe (input.take 4)
    let length := fromLe ((input.drop 4).take 2)
    match FragmentType.fromValue (input.get ⟨6, by simp only [FRAGMENT_HEADER_SIZE] at h; omega⟩) with
    | none => .error .Corrupt
    | some typ =>
      let dataEnd := FRAGMENT_HEADER_SIZE + length
      -- A `ZERO` fragment takes up the remainder of the block.
      if typ = .ZERO then
        if remainingBlockLength ≠ input.length then .error .Incomplete
        else if checkZeroPadding input then .ok (⟨.ZERO, []⟩, input.length)
        else .error .Corrupt
      else if remainingBlockLength < dataEnd then .error .Corrupt
      else if input.length < dataEnd then .error .Incomplete
      else
        let checksumExpected := (CRC32CHasher.new.update ((input.take dataEnd).drop 6)).masked
        if checksum ≠ checksumExpected.toNat then .error .Corrupt
        else .ok (⟨typ, (input.take dataEnd).drop FRAGMENT_HEADER_SIZE⟩, dataEnd)

def RecordReader.open : RecordReader :=
  ⟨.AllowIncomplete, 0, [], 0, false, none⟩

section Reader

variable (file : List UInt8)

/-- `read_block_remainder`: fill the block up to `BLOCK_SIZE` bytes or the end of the file. -/
def readBlockRemainder (r : RecordReader) : RecordReader :=
  if r.block.length = BLOCK_SIZE then r
  else
    { r with
      block := r.block ++ ((file.drop (r.fileOffset + r.block.length)).take
        (BLOCK_SIZE - r.block.length)) }

def readBlock (r : RecordReader) (off : Nat) : RecordReader :=
  readBlockRemainder file { r with fileOffset := off, block := [], blockOffset := 0 }

/-- The end of `read_fragment`: parse at the current offset of the block. -/
def parseFragment (r : RecordReader) : Except RecordReadError Fragment × RecordReader :=
  match Fragment.parse (r.block.drop r.blockOffset) (BLOCK_SIZE - r.blockOffset) with
  | .ok (fragment, fragmentSize) => (.ok fragment, { r with blockOffset := r.blockOffset + fragmentSize })
  | .error e => (.error e, if e = .Corrupt then { r with blockCorrupt := true } else r)

/-- `read_fragment`. A corrupt block is skipped first; a block tail too short for a header
must be zero padding, after which the next block is read. -/
def readFragment (r : RecordReader) : Except RecordReadError Fragment × RecordReader :=
  let r := if r.blockCorrupt then
      { r with
        fileOffset := r.fileOffset + BLOCK_SIZE
        blockOffset := 0
        block := [] }
    else r
  let r := readBlockRemainder file r
  if BLOCK_SIZE - r.blockOffset < FRAGMENT_HEADER_SIZE then
    if ¬ checkZeroPadding (r.block.drop r.blockOffset) then
      (.error .Corrupt, { r with blockCorrupt := true })
    else if r.block.length = BLOCK_SIZE then parseFragment (readBlock file r (r.fileOffset + BLOCK_SIZE))
    else (.error .EndOfFile, r)
  else parseFragment r

/-- `read_inner`: read fragments into `out` until it holds a whole record. -/
def readInner : Nat → RecordBuffer → RecordReader →
    Except RecordReadError Unit × RecordBuffer × RecordReader
  | 0, out, r => (.error .OutOfFuel, out, r)
  | fuel + 1, out, r =>
    if out.ended then (.ok (), out, r)
    else
      match readFragment file r with
      | (.error e, r) => (.error e, out, r)
      | (.ok fragment, r) =>
        match fragment.typ with
        | .ZERO =>
          -- Zeros may end a block, but not in the middle of a record.
          if out.started then (.error .Corrupt, out, r) else readInner fuel out r
        | .FULL =>
          let dropping := out.started
          let out := { out with data := out.data ++ fragment.data, started := true, ended := true }
          if dropping then (.error .Dropped, out, r) else readInner fuel out r
        | .FIRST =>
          let dropping := out.started
          let out := { out with data := out.data ++ fragment.data, started := true }
          if dropping then (.error .Dropped, out, r) else readInner fuel out r
        | .MIDDLE =>
          if ¬ out.started then (.error .Corrupt, out, r)
          else readInner fuel { out with data := out.data ++ fragment.data } r
        | .LAST =>
          if ¬ out.started then (.error .Corrupt, out, r)
          else readInner fuel { out with data := out.data ++ fragment.data, ended := true } r

theorem readInner_zero (out : RecordBuffer) (r : RecordReader) :
    readInner file 0 out r = (.error .OutOfFuel, out, r) := rfl

/-- Once the record is whole, `read_inner` returns it and reads nothing more. -/
theorem readInner_of_ended {out : RecordBuffer} (he : out.ended = true) (fuel : Nat)
    (r : RecordReader) : readInner file (fuel + 1) out r = (.ok (), out, r) := by
  simp [readInner, he]

/-- `read_raw`: a failed read keeps its partial record for the next call, unless it is
corrupt. -/
def readRaw (r : RecordReader) : Except RecordReadError (List UInt8) × RecordReader :=
  let out := r.outputBuffer.getD ⟨false, false, r.fileOffset + r.blockOffset, []⟩
  match readInner file (file.length + 1) out { r with outputBuffer := none } with
  | (.ok (), out, r) => (.ok out.data, r)
  | (.error .Corrupt, _, r) => (.error .Corrupt, r)
  | (.error e, out, r) =>
    let e := if e = .EndOfFile ∧ out.started then .Incomplete else e
    (.error e, { r with outputBuffer := some out })

/-- `read`: the next record, or `None` at the end of the file (and, when allowed, at an
incomplete record). -/
def read (r : RecordReader) : Except RecordReadError (Option (List UInt8)) × RecordReader :=
  match readRaw file r with
  | (.ok v, r) => (.ok (some v), r)
  | (.error .EndOfFile, r) => (.ok none, r)
  | (.error .Incomplete, r) =>
    match r.recoveryMode with
    | .Strict => (.error .Incomplete, r)
    | .AllowIncomplete => (.ok none, r)
  | (.error e, r) => (.error e, r)

/-- Call `read` until it gives `None` or fails, at most `fuel` times: the records read, and
whether `None` came. -/
def readRecords : Nat → RecordReader → Except RecordReadError (List (List UInt8) × Bool)
  | 0, _ => .ok ([], false)
  | fuel + 1, r =>
    match read file r with
    | (.ok (some v), r) => (readRecords fuel r).map fun (vs, done) => (v :: vs, done)
    | (.ok none, _) => .ok ([], true)
    | (.error e, _) => .error e

end Reader

structure RecordWriter where
  /-- Everything written so far. -/
  output : List UInt8
  /-- Byte offset at which we will next write in the file. -/
  extent : Nat
  deriving DecidableEq, Repr

def RecordWriter.new : RecordWriter := ⟨[], 0⟩

/-- The header of a fragment: the masked checksum of `[type, data]`, the length as a `u16`, and
the type. -/
def fragmentHeader (typ : UInt8) (data : List UInt8) : List UInt8 :=
  toLe ((CRC32CHasher.new.update [typ]).update data).masked.toNat 4 ++ toLe data.length 2 ++ [typ]

/-- The `while` loop of `append`, one fragment an iteration; `rest` is `data[pos..]`. -/
def appendLoop : Nat → RecordWriter → List UInt8 → Bool → Option RecordWriter
  | 0, _, _, _ => none
  | fuel + 1, w, rest, firstRecord =>
    if rest = [] ∧ ¬ firstRecord then some w
    else if BLOCK_SIZE - w.extent % BLOCK_SIZE < FRAGMENT_HEADER_SIZE then none
    else
      let rem := BLOCK_SIZE - w.extent % BLOCK_SIZE - FRAGMENT_HEADER_SIZE
      let take := min rem rest.length
      let typ :=
        if firstRecord then (if take = rest.length then FragmentType.FULL else .FIRST)
        else (if take = rest.length then .LAST else .MIDDLE)
      let dataSlice := rest.take take
      appendLoop fuel
        ⟨w.output ++ fragmentHeader typ.toValue dataSlice ++ dataSlice,
          w.extent + (FRAGMENT_HEADER_SIZE + take)⟩
        (rest.drop take) false

/-- At the end of a record that is not the first call's, the loop stops. -/
theorem appendLoop_exit {fuel : Nat} {w : RecordWriter} : appendLoop (fuel + 1) w [] false = some w := by
  simp [appendLoop]

/-- `RecordWriter::append`: zero padding when the block cannot hold a header, then the
fragments. -/
def RecordWriter.append (w : RecordWriter) (data : List UInt8) : Option RecordWriter :=
  let rem := BLOCK_SIZE - w.extent % BLOCK_SIZE
  let w := if rem < FRAGMENT_HEADER_SIZE then ⟨w.output ++ List.replicate rem 0, w.extent + rem⟩ else w
  appendLoop (data.length + 2) w data true

/-- `append` for each record in turn. -/
def RecordWriter.appendAll (w : RecordWriter) : List (List UInt8) → Option RecordWriter
  | [] => some w
  | data :: records => (w.append data).bind fun w => w.appendAll records

/-- The test `writing_fragments` (`record_log.rs:752-767`): one `FULL` record. -/
example : (RecordWriter.new.append [0x68, 0x69, 0x21]).map (·.output) =
    some [0x35, 0x9a, 0x49, 0x51, 0x03, 0x00, 0x01, 0x68, 0x69, 0x21] := by
  decide +kernel

end Dacha.SSTable
