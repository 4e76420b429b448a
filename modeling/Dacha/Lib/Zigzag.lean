import Mathlib

/-!
# Zigzag encoding of signed integers

Zigzag maps the integers to the naturals so that numbers of small magnitude get small codes:
`n ↦ 2n` for `n ≥ 0` and `n ↦ -2n - 1` below (`zigzag`). On a `w + 1`-bit word it is computed as
`(n <<< 1) ^^^ (n >>> w)` with an arithmetic shift: the shift gives the sign word, zero or all
ones, and the XOR complements the doubled word of a negative number.

The inverse is `(z >>> 1) ^^^ -(z &&& 1)` with a logical shift. With an arithmetic shift instead,
the top bit of the word is copied down, and what comes back is the number's low `w + 1` bits
sign-extended (`unzigzagWord_zigzagWord`): the number itself exactly when it lies in
`[-2^w, 2^w)` (`signExtend_setWidth_eq_self_iff`).
-/

namespace Dacha.Lib

/-- Zigzag: non-negative numbers to the even naturals, negative ones to the odd. -/
def zigzag (n : Int) : Nat := if 0 ≤ n then 2 * n.toNat else 2 * (-n).toNat - 1

/-! ## Bit vectors -/

/-- The sign word `n >>> w` of an arithmetic shift: all ones for a negative `n`, zero
otherwise. -/
theorem sshiftRight_msb_word {w : Nat} (n : BitVec (w + 1)) :
    n.sshiftRight w = if n.msb then BitVec.allOnes (w + 1) else 0#(w + 1) := by
  apply BitVec.eq_of_getLsbD_eq
  intro i hi
  rw [BitVec.getLsbD_sshiftRight]
  have hlast : n.getLsbD w = n.msb := by simp [BitVec.msb_eq_getLsbD_last]
  by_cases hmsb : n.msb
  · simp [hmsb, hi]
    refine ⟨by omega, ?_⟩
    rcases Nat.eq_zero_or_pos i with rfl | h
    · right; simpa [hmsb] using hlast
    · left; omega
  · simp [hmsb, hi]
    rintro - rfl
    simpa [hmsb] using hlast

theorem setWidth_signExtend_of_le {w v : Nat} (x : BitVec w) (h : w ≤ v) :
    (x.signExtend v).setWidth w = x := by
  apply BitVec.eq_of_getLsbD_eq
  intro i hi
  simp [BitVec.getLsbD_signExtend, hi]
  omega

theorem neg_and_one_eq {w : Nat} (x : BitVec (w + 1)) :
    -(x &&& 1) = if x.getLsbD 0 then BitVec.allOnes (w + 1) else 0#(w + 1) := by
  show -(x &&& 1#(w + 1)) = _
  rw [BitVec.and_one_eq_setWidth_ofBool_getLsbD]
  cases h : x.getLsbD 0
  · simp
  · simp only [BitVec.ofBool_true, if_true]
    simp
    exact BitVec.neg_one_eq_allOnes

/-- Sign-extending the low `w + 1` bits gives the number back exactly when it lies in
`[-2^w, 2^w)`. -/
theorem signExtend_setWidth_eq_self_iff {w : Nat} (n : BitVec (w + 2)) :
    (n.setWidth (w + 1)).signExtend (w + 2) = n ↔ -2 ^ w ≤ n.toInt ∧ n.toInt < 2 ^ w := by
  have hlt : n.toNat < 2 ^ (w + 2) := n.isLt
  have h1 : 2 ^ (w + 1) = 2 * 2 ^ w := by rw [Nat.pow_succ]; omega
  have h2 : 2 ^ (w + 2) = 4 * 2 ^ w := by rw [Nat.pow_succ, h1]; omega
  have hcast : (2 : Int) ^ w = ((2 ^ w : Nat) : Int) := by push_cast; rfl
  rw [← BitVec.toNat_inj, BitVec.toNat_signExtend, BitVec.toNat_setWidth, BitVec.toNat_setWidth,
    BitVec.msb_eq_decide, BitVec.toNat_setWidth, BitVec.toInt_eq_toNat_cond, hcast,
    Nat.add_sub_cancel]
  rw [h1, h2]
  rw [h2] at hlt
  clear h1 h2 hcast
  generalize 2 ^ w = P at hlt ⊢
  -- the number's place among the four quarters of the word decides both sides
  by_cases hhalf : n.toNat < 2 * P
  · rw [Nat.mod_eq_of_lt hhalf, Nat.mod_eq_of_lt (by omega)]
    simp only [decide_eq_true_eq]
    split_ifs <;> omega
  · have hmod : n.toNat % (2 * P) = n.toNat - 2 * P := by
      rw [Nat.mod_eq_sub_mod (by omega), Nat.mod_eq_of_lt (by omega)]
    rw [hmod, Nat.mod_eq_of_lt (by omega)]
    simp only [decide_eq_true_eq]
    split_ifs <;> omega

/-! ## The zigzag word -/

theorem getLsbD_zero_zigzagWord {w : Nat} (n : BitVec (w + 1)) :
    ((n <<< 1) ^^^ n.sshiftRight w).getLsbD 0 = n.msb := by
  rw [sshiftRight_msb_word n]
  by_cases hmsb : n.msb <;> simp [hmsb]

/-- Undoing the zigzag word with an arithmetic shift, where the inverse shifts logically: the
shift copies the word's top bit, which is bit `w` of the number with the sign flipped in, and the
result is the low `w + 1` bits of the number sign-extended. -/
theorem unzigzagWord_zigzagWord {w : Nat} (n : BitVec (w + 2)) :
    ((n <<< 1) ^^^ n.sshiftRight (w + 1)).sshiftRight 1 ^^^
        -(((n <<< 1) ^^^ n.sshiftRight (w + 1)) &&& 1) =
      (n.setWidth (w + 1)).signExtend (w + 2) := by
  rw [neg_and_one_eq, getLsbD_zero_zigzagWord, ← sshiftRight_msb_word n]
  have hmsb : n.msb = n.getLsbD (w + 1) := BitVec.msb_eq_getLsbD_last n
  have hzmsb : ((n <<< 1) ^^^ n.sshiftRight (w + 1)).msb = (n.getLsbD w ^^ n.msb) := by
    rw [BitVec.msb_eq_getLsbD_last, BitVec.getLsbD_xor, BitVec.getLsbD_shiftLeft,
      sshiftRight_msb_word n]
    cases n.msb <;> simp
  have hwmsb : (n.setWidth (w + 1)).msb = n.getLsbD w := by
    rw [BitVec.msb_eq_getLsbD_last]
    simp
  apply BitVec.eq_of_getLsbD_eq
  intro i hi
  simp only [BitVec.getLsbD_xor, BitVec.getLsbD_sshiftRight, BitVec.getLsbD_shiftLeft,
    BitVec.getLsbD_signExtend, BitVec.getLsbD_setWidth, hzmsb, hwmsb]
  rcases Nat.lt_or_ge i (w + 1) with h | h
  · -- below the top bit the sign is flipped in twice
    rcases Nat.eq_zero_or_pos i with rfl | h0
    · simp [hmsb]
    · simp [h, hi, show ¬ w + 1 + (1 + i) < w + 2 by omega, show ¬ w + 2 ≤ i by omega,
        show ¬ w + 2 ≤ 1 + i by omega, show 1 + i < w + 2 by omega, show ¬ w + 1 + i < w + 2 by omega]
  · -- the top bit: the shift copies the word's top bit, bit `w` of `n` flipped by the sign
    obtain rfl : i = w + 1 := by omega
    simp [show ¬ 1 + (w + 1) < w + 2 by omega, show ¬ w + 1 + (w + 1) < w + 2 by omega]

end Dacha.Lib
