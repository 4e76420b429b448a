import Mathlib

/-!
# CRC-32C (`pkg/crypto/src/checksum/crc.rs:166-260`)

`CRC32CHasher` keeps the running remainder `val`, starts from `!0`, and `update_lut` folds the
data into it one byte at a time through `CRC32C_TABLE`. The SSE4.2 and ARM paths compute the
same remainder with the CPU's instruction; the model follows the table path.

`CRC32C_TABLE` is the byte table of the reflected polynomial `0x82F63B78`; the model computes
each entry by the eight shift-and-xor steps the table was generated with, and the examples
below check entries against the literal table.

The one property the record log needs is that `update` is a fold: feeding `a` and then `b` is
feeding `a ++ b` (`update_append`).
-/

namespace Dacha.Crypto

/-- `CRC32C_TABLE[i]`. -/
def crc32cTable (i : UInt8) : UInt32 :=
  (List.range 8).foldl (fun c _ => if c &&& 1 = 1 then (c >>> 1) ^^^ 0x82F63B78 else c >>> 1)
    i.toUInt32

example : crc32cTable 1 = 0xF26B8303 := by decide
example : crc32cTable 255 = 0xAD7D5351 := by decide

structure CRC32CHasher where
  val : UInt32
  deriving DecidableEq, Repr

namespace CRC32CHasher

def new : CRC32CHasher := ⟨~~~0⟩

/-- `update` (`update_lut`): one table step per byte. -/
def update (h : CRC32CHasher) (data : List UInt8) : CRC32CHasher :=
  data.foldl (fun h byte => ⟨(h.val >>> 8) ^^^ crc32cTable (h.val.toUInt8 ^^^ byte)⟩) h

def finishU32 (h : CRC32CHasher) : UInt32 := ~~~h.val

/-- `masked`: `finish_u32().rotate_right(15).wrapping_add(0xa282ead8)`. -/
def masked (h : CRC32CHasher) : UInt32 :=
  ((h.finishU32 >>> 15) ||| (h.finishU32 <<< 17)) + 0xa282ead8

theorem update_append (h : CRC32CHasher) (a b : List UInt8) :
    (h.update a).update b = h.update (a ++ b) := by
  simp [update, List.foldl_append]

end CRC32CHasher

end Dacha.Crypto
