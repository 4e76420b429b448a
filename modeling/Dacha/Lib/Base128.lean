import Mathlib

/-!
# Base-128 numbers, most significant digit first

The number format of ASN.1 tag numbers and object identifier arcs (X.690 8.1.2.4 and 8.19.2): a
number is written in base 128, most significant digit first, one digit an octet, and every octet
but the last has its top bit set. `msbVarint n` is that string with no leading zero digit. It is
built from the back: the encoding of `n` is the encoding of `n / 128` with every octet flagged,
then `n % 128` (`msbVarint_of_le`).

A coder that fills a buffer from its end ORs the flag into the last octet of what it wrote so
far, which is flagging every octet (`modifyLast_or_msbVarint`). A decoder reads the octets from
the front and adds a digit for each (`foldl_digit_msbVarint`). A digit other than the last may be
zero, as in the encoding `81 80 00` of `16384`: a decoder that takes a zero digit for a leading zero refuses those
numbers.
-/

namespace Dacha.Base128

/-! ## Octets -/

theorem toNat_or_128 {b : UInt8} (h : b.toNat < 128) : (b ||| 0x80).toNat = b.toNat + 128 := by
  rw [UInt8.toNat_or, show (0x80 : UInt8).toNat = 2 ^ 7 * 1 by rfl, Nat.or_comm,
    ← Nat.two_pow_add_eq_or_of_lt h]
  omega

theorem toNat_and_127 (b : UInt8) : (b &&& 0x7f).toNat = b.toNat % 128 := by
  rw [UInt8.toNat_and, show (0x7f : UInt8).toNat = 2 ^ 7 - 1 by rfl, Nat.and_two_pow_sub_one_eq_mod]

theorem toNat_shiftRight_7 (b : UInt8) : (b >>> 7).toNat = b.toNat / 128 := by
  rw [UInt8.toNat_shiftRight]
  simp [Nat.shiftRight_eq_div_pow]

theorem and_128_eq_zero_iff (b : UInt8) : b &&& 0x80 = 0 ↔ b.toNat < 128 := by
  rw [← UInt8.toNat_inj, UInt8.toNat_and, show (0x80 : UInt8).toNat = 2 ^ 7 by rfl, Nat.and_two_pow,
    Nat.testBit_eq_decide_div_mod_eq]
  have := b.toNat_lt
  simp
  omega

@[simp] theorem or_128_or_128 (b : UInt8) : b ||| 0x80 ||| 0x80 = b ||| 0x80 := by
  rw [UInt8.or_assoc, UInt8.or_self]

/-- A digit as an octet. -/
theorem toNat_ofNat_digit {d : Nat} (h : d < 128) : (UInt8.ofNat d).toNat = d := by
  rw [UInt8.toNat_ofNat']
  omega

/-! ## The encoding -/

/-- `n` in base 128, most significant digit first, every octet but the last flagged. -/
def msbVarint (n : Nat) : List UInt8 :=
  if n < 128 then [UInt8.ofNat n]
  else (msbVarint (n / 128)).map (· ||| 0x80) ++ [UInt8.ofNat (n % 128)]
termination_by n
decreasing_by omega

theorem msbVarint_of_lt {n : Nat} (h : n < 128) : msbVarint n = [UInt8.ofNat n] := by
  rw [msbVarint, if_pos h]

theorem msbVarint_of_le {n : Nat} (h : 128 ≤ n) :
    msbVarint n = (msbVarint (n / 128)).map (· ||| 0x80) ++ [UInt8.ofNat (n % 128)] := by
  rw [msbVarint, if_neg (by omega)]

theorem msbVarint_ne_nil (n : Nat) : msbVarint n ≠ [] := by
  rcases Nat.lt_or_ge n 128 with h | h
  · simp [msbVarint_of_lt h]
  · simp [msbVarint_of_le h]

/-- The last octet is the lowest digit, unflagged. -/
theorem getLast_msbVarint (n : Nat) :
    (msbVarint n).getLast (msbVarint_ne_nil n) = UInt8.ofNat (n % 128) := by
  rcases Nat.lt_or_ge n 128 with h | h
  · simp [msbVarint_of_lt h, Nat.mod_eq_of_lt h]
  · simp [msbVarint_of_le h]

/-- The octets before the last are the encoding of `n / 128`, flagged. -/
theorem dropLast_msbVarint (n : Nat) :
    (msbVarint n).dropLast = if n < 128 then [] else (msbVarint (n / 128)).map (· ||| 0x80) := by
  rcases Nat.lt_or_ge n 128 with h | h
  · simp [msbVarint_of_lt h, h]
  · simp [msbVarint_of_le h, if_neg (show ¬ n < 128 by omega)]

theorem length_msbVarint_le {n : Nat} : ∀ k : Nat, n < 128 ^ (k + 1) → (msbVarint n).length ≤ k + 1 := by
  induction n using Nat.strongRecOn with
  | ind n ih =>
    intro k hk
    rcases Nat.lt_or_ge n 128 with h | h
    · simp [msbVarint_of_lt h]
    · cases k with
      | zero => omega
      | succ k =>
        have hq : n / 128 < 128 ^ (k + 1) := by
          rw [Nat.div_lt_iff_lt_mul (by omega), ← pow_succ]
          exact hk
        have := ih (n / 128) (by omega) k hq
        simp only [msbVarint_of_le h, List.length_append, List.length_map, List.length_cons,
          List.length_nil]
        omega

/-- Flagging the last octet of an encoding flags all of them: the others already are. -/
theorem modifyLast_or_msbVarint (n : Nat) :
    (msbVarint n).modifyLast (· ||| 0x80) = (msbVarint n).map (· ||| 0x80) := by
  rcases Nat.lt_or_ge n 128 with h | h
  · simpa [msbVarint_of_lt h] using List.modifyLast_concat (· ||| 0x80) (UInt8.ofNat n) []
  · rw [msbVarint_of_le h, List.modifyLast_concat, List.map_append, List.map_map]
    simp [Function.comp_def]

/-! ## Reading the digits back -/

/-- One decoding step: shift the value by a digit and add the octet's low seven bits. -/
def digitStep (acc : Nat) (b : UInt8) : Nat := acc * 128 + b.toNat % 128

theorem foldl_digitStep_map_or (l : List UInt8) (acc : Nat) :
    (l.map (· ||| 0x80)).foldl digitStep acc = l.foldl digitStep acc := by
  induction l generalizing acc with
  | nil => rfl
  | cons b l ih =>
    have hlow : (b ||| 0x80).toNat % 128 = b.toNat % 128 := by
      have h : (b ||| 0x80).toNat % 2 ^ 7 = b.toNat % 2 ^ 7 := by
        rw [UInt8.toNat_or, show (0x80 : UInt8).toNat = 2 ^ 7 by rfl, Nat.or_mod_two_pow]
        simp
      exact h
    simp only [List.map_cons, List.foldl_cons, digitStep, hlow]
    exact ih _

/-- Reading the digits of `n` after a value `acc` shifts `acc` past them and adds `n`. -/
theorem foldl_digit_msbVarint (n acc : Nat) :
    (msbVarint n).foldl digitStep acc = acc * 128 ^ (msbVarint n).length + n := by
  induction n using Nat.strongRecOn generalizing acc with
  | ind n ih =>
    rcases Nat.lt_or_ge n 128 with h | h
    · simp [msbVarint_of_lt h, digitStep, toNat_ofNat_digit h, Nat.mod_eq_of_lt h]
    · have hq := ih (n / 128) (by omega) acc
      have hd : (UInt8.ofNat (n % 128)).toNat % 128 = n % 128 := by
        rw [toNat_ofNat_digit (Nat.mod_lt _ (by omega)), Nat.mod_mod]
      rw [msbVarint_of_le h, List.foldl_append, foldl_digitStep_map_or, hq]
      simp only [List.foldl_cons, List.foldl_nil, digitStep, hd, List.length_append,
        List.length_map, List.length_cons, List.length_nil, pow_succ]
      have := Nat.div_add_mod n 128
      nlinarith [this]

/-! ## Inner digits -/

/-- Every digit of `n` but the lowest is non-zero. -/
def InnerDigitsNonzero (n : Nat) : Prop := ∀ b ∈ (msbVarint n).dropLast, b.toNat % 128 ≠ 0

instance (n : Nat) : Decidable (InnerDigitsNonzero n) :=
  inferInstanceAs (Decidable (∀ b ∈ (msbVarint n).dropLast, b.toNat % 128 ≠ 0))

/-- The octets before the last all carry the flag. -/
theorem le_toNat_of_mem_dropLast {n : Nat} {b : UInt8} (hb : b ∈ (msbVarint n).dropLast) :
    128 ≤ b.toNat := by
  rw [dropLast_msbVarint] at hb
  split_ifs at hb with h
  · simp at hb
  · obtain ⟨a, -, rfl⟩ := List.mem_map.mp hb
    rw [UInt8.toNat_or]
    exact Nat.right_le_or

/-- The last octet is unflagged. -/
theorem getLast_msbVarint_lt (n : Nat) : ((msbVarint n).getLast (msbVarint_ne_nil n)).toNat < 128 := by
  rw [getLast_msbVarint, toNat_ofNat_digit (Nat.mod_lt _ (by omega))]
  exact Nat.mod_lt _ (by omega)

/-- A zero second-lowest digit with a digit above it is a zero inner digit. -/
theorem not_innerDigitsNonzero_of_digit_zero {n : Nat} (h : 128 * 128 ≤ n)
    (hz : n / 128 % 128 = 0) : ¬ InnerDigitsNonzero n := by
  intro hall
  have hq : 128 ≤ n / 128 := by omega
  have hmem : (0x80 : UInt8) ∈ (msbVarint n).dropLast := by
    rw [dropLast_msbVarint, if_neg (by omega), msbVarint_of_le hq, hz]
    simp
  exact hall 0x80 hmem rfl

end Dacha.Base128
