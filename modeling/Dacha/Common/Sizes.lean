import Mathlib

/-!
# `ceil_div` and `block_size_remainder` (`common/src/lib.rs:199-217`)

Two helpers on sizes that the hashes and the big integers share: the number of blocks that
hold `a` units, and how far an offset is from the next block boundary. The boundary that
`block_size_remainder` reaches is a multiple of the block size (`add_blockSizeRemainder_mod`),
and the nearest one (`blockSizeRemainder_eq`).
-/

namespace Dacha.Common

def ceilDiv (a b : Nat) : Nat := if a % b ≠ 0 then a / b + 1 else a / b

/-- `common::block_size_remainder`: how far `endOffset` is from the next multiple of
`blockSize`. -/
def blockSizeRemainder (blockSize endOffset : Nat) : Nat :=
  if endOffset % blockSize = 0 then 0 else blockSize - endOffset % blockSize

/-- A whole number of blocks needs exactly that many. -/
theorem ceilDiv_mul {b : Nat} (hb : 0 < b) (k : Nat) : ceilDiv (k * b) b = k := by
  simp [ceilDiv, Nat.mul_div_cancel k hb]

/-- One unit past a whole number of blocks needs one block more. -/
theorem ceilDiv_mul_add_one {b : Nat} (hb : 1 < b) (k : Nat) : ceilDiv (k * b + 1) b = k + 1 := by
  have hmod : (k * b + 1) % b = 1 := by
    rw [Nat.mul_comm, Nat.mul_add_mod, Nat.mod_eq_of_lt hb]
  have hdiv : (k * b + 1) / b = k := by
    rw [Nat.add_comm, Nat.add_mul_div_right 1 k (by omega), Nat.div_eq_of_lt hb, Nat.zero_add]
  simp [ceilDiv, hmod, hdiv]

theorem add_mod_of_mod_add_lt {a b n : Nat} (h : a % n + b < n) : (a + b) % n = a % n + b := by
  rw [← Nat.mod_add_mod, Nat.mod_eq_of_lt h]

theorem add_mod_of_mod_add_eq {a b n : Nat} (h : a % n + b = n) : (a + b) % n = 0 := by
  rw [← Nat.mod_add_mod, h, Nat.mod_self]

/-- `block_size_remainder` ends `endOffset` on a multiple of the block size. -/
theorem add_blockSizeRemainder_mod {n : Nat} (hn : 0 < n) (a : Nat) :
    (a + blockSizeRemainder n a) % n = 0 := by
  unfold blockSizeRemainder
  split_ifs with h
  · rw [Nat.add_zero, h]
  · have hr := Nat.mod_lt a hn
    exact add_mod_of_mod_add_eq (by omega)

theorem blockSizeRemainder_eq {n : Nat} (hn : 0 < n) (a : Nat) :
    blockSizeRemainder n a = (n - a % n) % n := by
  unfold blockSizeRemainder
  split_ifs with h
  · rw [h, Nat.sub_zero, Nat.mod_self]
  · have hr := Nat.mod_lt a hn
    rw [Nat.mod_eq_of_lt (show n - a % n < n by omega)]

end Dacha.Common
