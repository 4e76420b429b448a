import Mathlib
import Dacha.Lib.Bytes

/-!
# Table filters (`table/bloom.rs`, `table/filter_block.rs`)

| here | there |
| --- | --- |
| `hash`, `hashWords`, `bloomHash` | `hash`, `bloom_hash` (`bloom.rs:3-35`) |
| `getBit`, `setBit` | `Bit::get`, `Bit::set` (`:37-56`) |
| `BloomFilterPolicy.new` | `BloomFilterPolicy::new` (`:72-87`) |
| `BloomFilterPolicy.create`, `createProbes` | `create` (`:94-120`) and its probe loop |
| `BloomFilterPolicy.keyMayMatch`, `matchProbes` | `key_may_match` (`:122-146`) and its probe loop |
| `FilterBlockRef.parse` | `FilterBlockRef::parse` (`filter_block.rs:58-103`) |
| `FilterBlockRef.keyMayMatch` | `FilterBlockRef::key_may_match` (`:105-125`) |

Arithmetic is the arithmetic of the workspace's `dev` profile, which keeps Rust's overflow checks:
`hash` uses `wrapping_add` and `wrapping_mul`, which are `UInt32` arithmetic here, while the
probe step `h += delta` of both probe loops is a plain `+=` on `u32` and panics when the sum
leaves the type. A panic is an `.error` with Rust's message.

`num_probes` is `(bits_per_key as f64 * 0.69) as usize`, clamped to `1..=30`. The model takes
`bits_per_key * 69 / 100`: below 44 bits per key the product is at least `0.01` away from an
integer unless it is `0`, far more than the error of the `f64` product, and from 44 on both are
at least 30.

A filter block holds the filters one after another, then their start offsets as `u32`s, the
start of that array and the base-2 logarithm of the block size a filter covers. `parse` checks
that the offsets are inside the filters and that the first is zero, but not that they increase:
`key_may_match` then slices the filters from one offset to the next.
-/

namespace Dacha.SSTable

open Dacha.Bytes

/-! ## The hash -/

/-- `hash`'s loop over the four-byte words of the data; the bytes that do not make a word are
returned with the state. -/
def hashWords (m : UInt32) : List UInt8 → UInt32 → UInt32 × List UInt8
  | b0 :: b1 :: b2 :: b3 :: rest, h =>
    let h := (h + UInt32.ofNat (fromLe [b0, b1, b2, b3])) * m
    hashWords m rest (h ^^^ (h >>> 16))
  | rest, h => (h, rest)

/-- `hash`, the LevelDB hash, with wrapping arithmetic throughout. -/
def hash (data : List UInt8) (seed : UInt32) : UInt32 :=
  let m : UInt32 := 0xc6a4a793
  let r : UInt32 := 24
  let (h, rest) := hashWords m data (seed ^^^ (m * UInt32.ofNat data.length))
  let h := if rest.length = 3 then h + ((rest.getD 2 0).toUInt32 <<< 16) else h
  let h := if rest.length ≥ 2 then h + ((rest.getD 1 0).toUInt32 <<< 8) else h
  if rest.length ≥ 1 then
    let h := (h + (rest.getD 0 0).toUInt32) * m
    h ^^^ (h >>> r)
  else h

/-- `test_hash`: the vectors of LevelDB's `hash_test.cc`. -/
example : hash [] 0xbc9f1d34 = 0xbc9f1d34 ∧ hash [0x62] 0xbc9f1d34 = 0xef1345c4 ∧
    hash [0xc3, 0x97] 0xbc9f1d34 = 0x5b663814 ∧ hash [0xe2, 0x99, 0xa5] 0xbc9f1d34 = 0x323c078f ∧
    hash [0xe1, 0x80, 0xb9, 0x32] 0xbc9f1d34 = 0xed21633a := by
  decide

def bloomHash (data : List UInt8) : UInt32 := hash data 0xbc9f1d34

def rotateRight17 (h : UInt32) : UInt32 := (h >>> 17) ||| (h <<< 15)

/-! ## Bits of a filter -/

/-- `Bit::get`. The position is always inside the filter where the source reads it. -/
def getBit (data : List UInt8) (pos : Nat) : Bool :=
  (data.getD (pos / 8) 0 &&& ((1 : UInt8) <<< UInt8.ofNat (pos % 8))) != 0

/-- `Bit::set`. -/
def setBit (data : List UInt8) (pos : Nat) : List UInt8 :=
  data.modify (pos / 8) (· ||| ((1 : UInt8) <<< UInt8.ofNat (pos % 8)))

/-! ## The Bloom filter policy -/

structure BloomFilterPolicy where
  bitsPerKey : Nat
  numProbes : Nat
  deriving DecidableEq, Repr

/-- The panic of a `u32` addition that overflows in a build with overflow checks. -/
def ADD_OVERFLOW : String := "attempt to add with overflow"

/-- The panic of `%` by zero. -/
def REM_BY_ZERO : String := "attempt to calculate the remainder with a divisor of zero"

namespace BloomFilterPolicy

def new (bitsPerKey : Nat) : BloomFilterPolicy :=
  ⟨bitsPerKey, min 30 (max 1 (bitsPerKey * 69 / 100))⟩

/-- The probe loop of `create` for one key: set the probe's bit, then step to the next probe. -/
def createProbes (nbits delta : UInt32) : Nat → UInt32 → List UInt8 → Except String (List UInt8)
  | 0, _, filter => .ok filter
  | n + 1, h, filter =>
    if nbits = 0 then .error REM_BY_ZERO
    else
      let filter := setBit filter (h % nbits).toNat
      if h.toNat + delta.toNat ≥ 2 ^ 32 then .error ADD_OVERFLOW
      else createProbes nbits delta n (h + delta) filter

/-- `create`: a filter of `bits_per_key` bits a key, at least 64, and the number of probes after
it, appended to `out`. -/
def create (p : BloomFilterPolicy) (keys : List (List UInt8)) (out : List UInt8) :
    Except String (List UInt8) := do
  let nbytes := (max (keys.length * p.bitsPerKey) 64 + 7) / 8
  let nbits := UInt32.ofNat (nbytes * 8)
  let filter ← keys.foldlM (fun filter key =>
      let h := bloomHash key
      createProbes nbits (rotateRight17 h) p.numProbes h filter)
    (List.replicate nbytes 0)
  pure (out ++ filter ++ [UInt8.ofNat p.numProbes])

/-- The probe loop of `key_may_match`: a clear bit ends it with `false`. -/
def matchProbes (filter : List UInt8) (nbits delta : UInt32) : Nat → UInt32 → Except String Bool
  | 0, _ => .ok true
  | n + 1, h =>
    if nbits = 0 then .error REM_BY_ZERO
    else if !getBit filter (h % nbits).toNat then .ok false
    else if h.toNat + delta.toNat ≥ 2 ^ 32 then .error ADD_OVERFLOW
    else matchProbes filter nbits delta n (h + delta)

/-- `key_may_match`: the number of probes is the filter's last byte. -/
def keyMayMatch (key filter : List UInt8) : Except String Bool :=
  if filter.length < 2 then .ok false
  else
    let numProbes := (filter.getLast?.getD 0).toNat
    if numProbes > 30 then .ok true
    else
      let h := bloomHash key
      matchProbes filter (UInt32.ofNat (8 * (filter.length - 1))) (rotateRight17 h) numProbes h

end BloomFilterPolicy

/-- With the default ten bits a key there are six probes. The key `b` hashes to `0xef1345c4`,
and its first probe step adds `0xa2e27789`, which leaves `u32`: `create` panics on the first
key. -/
theorem bloom_probe_step_overflows :
    (BloomFilterPolicy.new 10).numProbes = 6 ∧ bloomHash [0x62] = 0xef1345c4 ∧
      rotateRight17 0xef1345c4 = 0xa2e27789 ∧
      (BloomFilterPolicy.new 10).create [[0x62]] [] = .error ADD_OVERFLOW := by
  decide

/-! ## The filter block -/

structure FilterBlockRef where
  filters : List UInt8
  /-- The start of every filter and, last, the end of the filters. -/
  offsets : List Nat
  logBase : Nat
  deriving DecidableEq, Repr

/-- The little-endian `u32`s of a byte string whose length is a multiple of four. -/
def words : List UInt8 → List Nat
  | b0 :: b1 :: b2 :: b3 :: rest => fromLe [b0, b1, b2, b3] :: words rest
  | _ => []

namespace FilterBlockRef

def parse (input : List UInt8) : Except String FilterBlockRef := do
  if input.length < 4 + 1 then throw "Input buffer too small"
  let logBase := (input.getD (input.length - 1) 0).toNat
  let footerStart := input.length - 5
  let offsetsOffset := fromLe ((input.drop footerStart).take 4)
  if offsetsOffset > footerStart then throw "Out of range offsets array"
  -- the array read runs up to the log byte: its last offset is `offsets_offset` itself
  let buf := (input.take (input.length - 1)).drop offsetsOffset
  if buf.length % 4 ≠ 0 then throw "Misaligned offsets array"
  let offsets := words buf
  match offsets with
  | [] => if offsetsOffset ≠ 0 then throw "Unknown data before offsets array"
  | first :: _ => if first ≠ 0 then throw "First filter does not start at zero"
  if offsets.any (· > offsetsOffset) then throw "Out of range filter offset"
  pure ⟨input.take offsetsOffset, offsets, logBase⟩

/-- `key_may_match` with the table's filter policy: `true` where no filter covers the block. -/
def keyMayMatch (r : FilterBlockRef) (policy : List UInt8 → List UInt8 → Except String Bool)
    (blockOffset : Nat) (key : List UInt8) : Except String Bool :=
  if r.logBase ≥ 64 then .error "attempt to shift right with overflow"
  else if r.offsets.length = 0 then .error "attempt to subtract with overflow"
  else
    let filterIdx := blockOffset >>> r.logBase
    if filterIdx ≥ r.offsets.length - 1 then .ok true
    else
      let startOffset := r.offsets.getD filterIdx 0
      let endOffset := r.offsets.getD (filterIdx + 1) 0
      let filtersLength := r.filters.length
      if startOffset > endOffset then
        .error s!"slice index starts at {startOffset} but ends at {endOffset}"
      else if endOffset > filtersLength then
        .error s!"range end index {endOffset} out of range for slice of length {filtersLength}"
      else policy key ((r.filters.drop startOffset).take (endOffset - startOffset))

end FilterBlockRef

/-- Eight bytes of filters, the offsets `0, 8, 4`, the array's start `8`, and a filter per byte
of the table. -/
def decreasingOffsetsBlock : List UInt8 :=
  [0, 0, 0, 0, 0, 0, 0, 0, 0, 0, 0, 0, 8, 0, 0, 0, 4, 0, 0, 0, 8, 0, 0, 0, 0]

/-- `parse` accepts the block: every offset is inside the filters and the first is zero. The
filter of the block at offset 1 runs from offset 8 to offset 4, and slicing it panics whatever
the policy and the key. -/
theorem decreasing_offsets_slice_panics :
    ∃ r, FilterBlockRef.parse decreasingOffsetsBlock = .ok r ∧
      ∀ policy key, r.keyMayMatch policy 1 key = .error "slice index starts at 8 but ends at 4" := by
  refine ⟨⟨[0, 0, 0, 0, 0, 0, 0, 0], [0, 8, 4, 8], 0⟩, by decide, fun policy key => ?_⟩
  rfl

end Dacha.SSTable
