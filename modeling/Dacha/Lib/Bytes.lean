import Mathlib

/-!
# Little-endian byte strings

Fixed-width integers as lists of bytes, least significant byte first: `fromLe` reads one and
`toLe n k` writes the `k` low bytes of `n`. The round trip `fromLe_toLe` and the length lemma
are what a format that stores a header field and reads it back needs.

A reader of a file that a crash cut short sees a prefix of what was written; two lemmas say what
such a prefix holds at an offset.

Base-128 varints assemble a number from seven-bit groups with `|||` and `<<<` on a bit vector;
`toNat_or_shiftLeft_of_lt` says that where the groups do not overlap this is addition.
-/

namespace Dacha.Bytes

/-- The number a little-endian byte string encodes. -/
def fromLe : List UInt8 → Nat
  | [] => 0
  | b :: bs => b.toNat + 256 * fromLe bs

/-- The `k` low bytes of `n`, least significant first. -/
def toLe (n : Nat) : Nat → List UInt8
  | 0 => []
  | k + 1 => UInt8.ofNat (n % 256) :: toLe (n / 256) k

-- The equations of the two recursions, stated once so that proofs rewrite with these rather
-- than asking for the definitions' generated equation lemmas.
theorem fromLe_nil : fromLe [] = 0 := rfl

theorem fromLe_cons (b : UInt8) (bs : List UInt8) : fromLe (b :: bs) = b.toNat + 256 * fromLe bs :=
  rfl

theorem toLe_zero_right (n : Nat) : toLe n 0 = [] := rfl

theorem toLe_succ (n k : Nat) : toLe n (k + 1) = UInt8.ofNat (n % 256) :: toLe (n / 256) k := rfl

@[simp] theorem length_toLe (n k : Nat) : (toLe n k).length = k := by
  induction k generalizing n with
  | zero => rfl
  | succ k ih => rw [toLe_succ, List.length_cons, ih]

/-- Reading back `k` written bytes gives the value modulo `256 ^ k`. -/
theorem fromLe_toLe (n k : Nat) : fromLe (toLe n k) = n % 256 ^ k := by
  induction k generalizing n with
  | zero => simp [toLe_zero_right, fromLe_nil, Nat.mod_one]
  | succ k ih =>
    have hmod : (UInt8.ofNat (n % 256)).toNat = n % 256 := by simp
    simp only [toLe_succ, fromLe_cons, hmod, ih, pow_succ]
    rw [mul_comm (256 ^ k) 256, Nat.mod_mul]

theorem fromLe_toLe_of_lt {n k : Nat} (h : n < 256 ^ k) : fromLe (toLe n k) = n := by
  rw [fromLe_toLe, Nat.mod_eq_of_lt h]

/-! ## Prefixes -/

section Prefix

variable {α : Type} {l W : List α}

/-- At offset `x`, a prefix of `W` holds `W`'s bytes up to its own end. -/
theorem prefix_drop_take (hpre : l <+: W) (x k : Nat) :
    (l.drop x).take k = (W.drop x).take (min k (l.length - x)) := by
  conv_lhs => rw [List.prefix_iff_eq_take.mp hpre]
  rw [List.drop_take, List.take_take]

theorem prefix_drop_of_append {a b : List α} (h : a ++ b <+: W) :
    W.drop a.length = b ++ W.drop (a.length + b.length) := by
  obtain ⟨t, rfl⟩ := h
  simp [List.drop_append]

end Prefix

/-! ## Bit vectors assembled from digits -/

/-- OR-ing `x` in above the bits of `a` adds it, as long as nothing is shifted out. -/
theorem toNat_or_shiftLeft_of_lt {w n : Nat} (a x : BitVec w) (ha : a.toNat < 2 ^ n)
    (hx : x.toNat * 2 ^ n < 2 ^ w) : (a ||| x <<< n).toNat = a.toNat + x.toNat * 2 ^ n := by
  rw [BitVec.toNat_or, BitVec.toNat_shiftLeft, Nat.shiftLeft_eq, Nat.mod_eq_of_lt hx, Nat.or_comm,
    Nat.mul_comm, ← Nat.two_pow_add_eq_or_of_lt ha]
  omega

end Dacha.Bytes
