import Mathlib

/-!
# Montgomery arithmetic

The number theory under Montgomery multiplication with a word base `B`, for a modulus `m`
coprime to it: the Newton iteration that finds `m⁻¹` modulo a power of two, one step of
Montgomery reduction (its bound and the congruence it keeps), the cancellation of `R = B^k`,
and the exponent bits of square-and-multiply.
-/

namespace Dacha.Montgomery

/-! ## Newton's iteration for an inverse -/

section Newton

variable {α : Type*} [CommRing α]

/-- One Newton step `x ↦ x (2 - a x)`. -/
def newtonStep (a x : α) : α := x * (2 - a * x)

/-- A Newton step squares the error `1 - a x`. -/
theorem one_sub_mul_newtonStep (a x : α) : 1 - a * newtonStep a x = (1 - a * x) ^ 2 := by
  unfold newtonStep
  ring

/-- `n` steps raise the error to the power `2 ^ n`. -/
theorem one_sub_mul_newtonStep_iterate (a x : α) (n : ℕ) :
    1 - a * (newtonStep a)^[n] x = (1 - a * x) ^ 2 ^ n := by
  induction n with
  | zero => simp
  | succ n ih =>
    rw [Function.iterate_succ_apply', one_sub_mul_newtonStep, ih, ← pow_mul, pow_succ]

/-- Started from an odd `a = 2j + 1` itself, four steps leave an error divisible by `4 ^ 16`,
as `1 - a * a = -4 j (j + 1)`. -/
theorem one_sub_mul_newtonStep_four (a j : α) (ha : a = 2 * j + 1) :
    1 - a * (newtonStep a)^[4] a = 4 ^ 16 * (j * (j + 1)) ^ 16 := by
  rw [one_sub_mul_newtonStep_iterate]
  have herr : 1 - a * a = -(4 * (j * (j + 1))) := by
    rw [ha]
    ring
  rw [herr]
  ring

/-- Where `4 ^ 16 = 0`, as modulo `2 ^ 32`, four steps from an odd `a` reach its inverse. -/
theorem mul_newtonStep_four (a j : α) (ha : a = 2 * j + 1) (h4 : (4 : α) ^ 16 = 0) :
    a * (newtonStep a)^[4] a = 1 := by
  have h := one_sub_mul_newtonStep_four a j ha
  rw [h4, zero_mul] at h
  exact (sub_eq_zero.mp h).symm

end Newton

/-! ## Montgomery reduction -/

/-- With `p m = -1` modulo the base, the digit `u = (a + x y) p` clears the low digit of
`a + x y + u m`. -/
theorem add_mul_add_redcDigit {α : Type*} [CommRing α] {p m : α} (hp : p * m = -1) (a x y : α) :
    a + x * y + (a + x * y) * p * m = 0 := by
  linear_combination (a + x * y) * hp

/-- Before the division by `B`, the sum `A + x y + u m` with `A < 2m`, digits `x, u < B` and
`y ≤ m` is below `B (2m)`. -/
theorem redc_sum_lt {A x y u m B : ℕ} (hA : A < 2 * m) (hx : x < B) (hy : y ≤ m) (hu : u < B) :
    A + x * y + u * m < B * (2 * m) := by
  have hxy : x * y ≤ (B - 1) * m := Nat.mul_le_mul (by omega) hy
  have hum : u * m ≤ (B - 1) * m := Nat.mul_le_mul_right m (by omega)
  have hsum : 2 * m + (B - 1) * m + (B - 1) * m = B * (2 * m) := by
    zify [Nat.one_le_iff_ne_zero.mpr (show B ≠ 0 by omega)]
    ring
  omega

/-- One reduction step, `A' = (A + x y + u m) / B`, keeps the accumulator below `2m`. -/
theorem redc_step_lt {A A' x y u m B : ℕ} (hA : A < 2 * m) (hx : x < B) (hy : y ≤ m)
    (hu : u < B) (h : B * A' = A + x * y + u * m) : A' < 2 * m := by
  have hbound : B * A' < B * (2 * m) := by
    rw [h]
    exact redc_sum_lt hA hx hy hu
  exact Nat.lt_of_mul_lt_mul_left hbound

/-- The invariant of the reduction loop: if `A P ≡ T y` then, after a step on the digit `x`,
`A' (P B) ≡ (T + P x) y`. -/
theorem redc_step_modEq {A A' x y u m B P T : ℕ} (h : B * A' = A + x * y + u * m)
    (hinv : A * P ≡ T * y [MOD m]) : A' * (P * B) ≡ (T + P * x) * y [MOD m] := by
  have hexp : A' * (P * B) = A * P + P * x * y + u * P * m := by
    calc A' * (P * B) = (B * A') * P := by ring
      _ = A * P + P * x * y + u * P * m := by rw [h]; ring
  rw [hexp]
  calc A * P + P * x * y + u * P * m ≡ A * P + P * x * y + 0 [MOD m] :=
        Nat.ModEq.add_left _ (Nat.modEq_zero_iff_dvd.mpr (Dvd.intro_left _ rfl))
    _ ≡ T * y + P * x * y [MOD m] := by rw [Nat.add_zero]; exact Nat.ModEq.add_right _ hinv
    _ = (T + P * x) * y := by ring

theorem val_mul_inv_eq {m R r t : ℕ} (hR : Nat.Coprime R m) (hr : r < m)
    (h : r * R ≡ t [MOD m]) : ((t : ZMod m) * (R : ZMod m)⁻¹).val = r := by
  have hcast : (t : ZMod m) = r * R := by
    rw [← (ZMod.natCast_eq_natCast_iff _ _ _).mpr h, Nat.cast_mul]
  rw [hcast, mul_assoc, ZMod.coe_mul_inv_eq_one R hR, mul_one, ZMod.val_natCast,
    Nat.mod_eq_of_lt hr]

theorem isUnit_two_pow {m : ℕ} (hm : m % 2 = 1) (n : ℕ) : IsUnit ((2 ^ n : ℕ) : ZMod m) :=
  (ZMod.isUnit_iff_coprime _ _).mpr
    (Nat.Coprime.pow_left n ((Nat.prime_two.coprime_iff_not_dvd).mpr (by omega)))

/-! ## Square-and-multiply -/

/-- The exponent's low `i + 1` bits: the low `i`, and bit `i` at weight `2 ^ i`. -/
theorem pow_mod_two_pow_succ {M : Type*} [Monoid M] (a : M) (b i : ℕ) :
    a ^ (b % 2 ^ (i + 1)) = a ^ (b % 2 ^ i) * if b.testBit i then a ^ 2 ^ i else 1 := by
  rw [Nat.mod_pow_succ, pow_add, Nat.testBit_eq_decide_div_mod_eq]
  rcases Nat.mod_two_eq_zero_or_one (b / 2 ^ i) with h | h
  · simp [h]
  · simp [h]

end Dacha.Montgomery
