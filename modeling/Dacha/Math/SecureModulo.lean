import Mathlib
import Dacha.Math.SecureUint

/-!
# `SecureModulo` (`math/src/big/secure/modulo.rs:16-100`, `:164-167`)

The field operations mod `n` on `SecureBigUint`s of `n`'s width, built from the integer
operations of `SecureUint`: `add` is `(a + b).reduce_once(n)`, `sub` is
`((a + n) - b).reduce_once(n)`, `mul` is the remainder of `quorem`, `negate(a)` is
`sub(n, a)`, and `inv` is the extended Euclidean loop with `t` kept mod `n`.

`add` and `sub` are exact for operands below `n` (`add_spec`, `sub_mod`); `sub` computes one
subtraction of `n` from `a + n - b` for any `a, b ≤ n` (`sub_spec`). Passing `n` itself as the
first operand, as `negate` does, breaks the `a < n` the reduction relies on: `negate` of 0 is
`n`, not 0 (`negate_zero_eq_modulus`). `inv` feeds `q * new_t`, which may exceed `n`, to `sub`,
whose `sub_assign` then borrows and panics: `inv(3)` mod 7 panics in the loop's second pass
(`inv_three_mod_seven_panics`).
-/

namespace Dacha.Math

open SecureBigUint

/-- `SecureModulo`: the modulus the operations reduce by. -/
structure SecureModulo where
  n : SecureBigUint
  deriving DecidableEq, Repr

namespace SecureModulo

/-- `add`: `(a + b).reduce_once(n)`. -/
def add (m : SecureModulo) (a b : SecureBigUint) : Option SecureBigUint := do
  let result ← SecureBigUint.add a b
  result.reduceOnce m.n

/-- `sub`: `((a + n) - b).reduce_once(n)`; the `-` of an owned integer is `sub_into`, that is
`sub_assign`. -/
def sub (m : SecureModulo) (a b : SecureBigUint) : Option SecureBigUint := do
  let sum ← SecureBigUint.add a m.n
  let result ← sum.subAssign b
  result.reduceOnce m.n

/-- `mul`: `(a * b) % n`, the remainder of `quorem`. -/
def mul (m : SecureModulo) (a b : SecureBigUint) : Option SecureBigUint := do
  let product ← SecureBigUint.mul a b
  let qr ← product.quorem m.n
  pure qr.2

/-- `negate`: `sub(n, a)`. -/
def negate (m : SecureModulo) (a : SecureBigUint) : Option SecureBigUint := m.sub m.n a

/-- The `while !new_r.is_zero()` loop of `inv`, one pass per step of Euclid's algorithm on
`(r, new_r)` with `(t, new_t)` carried along. It returns the final `(t, r)`. The loop is given
`fuel` passes and stops when they run out as when `new_r` is zero, so that `none` is always
a panic of the source. -/
def invLoop (m : SecureModulo) :
    Nat → SecureBigUint → SecureBigUint → SecureBigUint → SecureBigUint →
      Option (SecureBigUint × SecureBigUint)
  | 0, t, _, r, _ => some (t, r)
  | fuel + 1, t, newT, r, newR =>
    if newR.isZero then some (t, r)
    else do
      let qr ← r.quorem newR
      let qNewT ← SecureBigUint.mul qr.1 newT
      let nextT ← m.sub t qNewT
      m.invLoop fuel newT nextT newR qr.2

/-- `inv`: the loop, given `2 * bit_width + 2` passes (more than Euclid's algorithm makes on
numbers of the modulus' width, its remainders halving at least every second pass), then the
`"Not invertible"` panic when the last nonzero remainder exceeds 1. -/
def inv (m : SecureModulo) (a : SecureBigUint) : Option SecureBigUint := do
  let t ← fromUsize 0 m.n.bitWidth
  let newT ← fromUsize 1 m.n.bitWidth
  let tr ← m.invLoop (2 * m.n.bitWidth + 2) t newT m.n a
  let one ← fromUsize 1 tr.2.bitWidth
  if tr.2.cmp one = .gt then none else some tr.1

/-! ## Addition and subtraction -/

section

variable (m : SecureModulo) {a b : SecureBigUint}

/-- `add` of two operands of `n`'s width below `n` is their sum mod `n`, in `n`'s width. -/
theorem add_spec (ha : a.value.length = m.n.value.length)
    (hb : b.value.length = m.n.value.length) (han : a.toNat < m.n.toNat)
    (hbn : b.toNat < m.n.toNat) :
    ∃ r, m.add a b = some r ∧ r.value.length = m.n.value.length ∧
      r.toNat = (a.toNat + b.toNat) % m.n.toNat := by
  obtain ⟨s, hs, hslen, hsval⟩ := SecureBigUint.add_spec a b
  rw [ha, hb, max_self] at hslen
  obtain ⟨r, hr, hrlen, hrval⟩ :=
    reduceOnce_mod s m.n (by omega) (by omega) (by omega)
  refine ⟨r, ?_, hrlen, by rw [hrval, hsval]⟩
  simp only [add, hs, Option.bind_eq_bind, Option.bind_some]
  exact hr

/-- `sub` of operands of `n`'s width at most `n`: one subtraction of `n` from `a + n - b`. -/
theorem sub_spec (ha : a.value.length = m.n.value.length)
    (hb : b.value.length = m.n.value.length) (han : a.toNat ≤ m.n.toNat)
    (hbn : b.toNat ≤ m.n.toNat) :
    ∃ r, m.sub a b = some r ∧ r.value.length = m.n.value.length ∧
      r.toNat = if b.toNat ≤ a.toNat then a.toNat - b.toNat
        else a.toNat + m.n.toNat - b.toNat := by
  obtain ⟨s, hs, hslen, hsval⟩ := SecureBigUint.add_spec a m.n
  rw [ha, max_self] at hslen
  have hbtake : limbsVal (b.value.take s.value.length) = b.toNat := by
    rw [List.take_of_length_le (by omega)]
    rfl
  obtain ⟨d, hd, hdlen, hdval⟩ := subAssign_spec s b (by rw [hbtake]; omega)
  rw [hbtake, hsval] at hdval
  have hn := m.n.toNat_lt
  have hfit : (if m.n.toNat ≤ d.toNat then d.toNat - m.n.toNat else d.toNat) <
      (2 ^ 32) ^ m.n.value.length := by
    split_ifs <;> omega
  obtain ⟨r, hr, hrlen, hrval⟩ := reduceOnce_spec d m.n (by omega) (by omega) hfit
  refine ⟨r, ?_, hrlen, ?_⟩
  · simp only [sub, hs, hd, Option.bind_eq_bind, Option.bind_some]
    exact hr
  · rw [hrval, hdval]
    split_ifs <;> omega

/-- `sub` of two operands below `n` is their difference mod `n`. -/
theorem sub_mod (ha : a.value.length = m.n.value.length)
    (hb : b.value.length = m.n.value.length) (han : a.toNat < m.n.toNat)
    (hbn : b.toNat < m.n.toNat) :
    ∃ r, m.sub a b = some r ∧ r.value.length = m.n.value.length ∧
      r.toNat = (a.toNat + m.n.toNat - b.toNat) % m.n.toNat := by
  obtain ⟨r, hr, hrlen, hrval⟩ := m.sub_spec ha hb han.le hbn.le
  refine ⟨r, hr, hrlen, ?_⟩
  rw [hrval]
  split_ifs with hle
  · rw [Nat.mod_eq_sub_mod (by omega), Nat.mod_eq_of_lt (by omega)]
    omega
  · rw [Nat.mod_eq_of_lt (by omega)]

theorem sub_mod_three_five :
    ∃ r, (⟨⟨[7]⟩⟩ : SecureModulo).sub ⟨[3]⟩ ⟨[5]⟩ = some r ∧ r.value.length = 1 ∧ r.toNat = 5 := by
  obtain ⟨r, hr, hlen, hval⟩ :=
    sub_mod ⟨⟨[7]⟩⟩ (a := ⟨[3]⟩) (b := ⟨[5]⟩) rfl rfl (by decide) (by decide)
  exact ⟨r, hr, hlen, by rw [hval]; rfl⟩

/-- `negate` of an operand of `n`'s width at most `n` is `n - a`: right for `0 < a`, and `n`
itself, not 0, for `a = 0`. -/
theorem negate_spec (ha : a.value.length = m.n.value.length) (han : a.toNat ≤ m.n.toNat) :
    ∃ r, m.negate a = some r ∧ r.value.length = m.n.value.length ∧
      r.toNat = m.n.toNat - a.toNat := by
  obtain ⟨r, hr, hrlen, hrval⟩ := m.sub_spec rfl ha le_rfl han
  exact ⟨r, hr, hrlen, by rw [hrval, if_pos han]⟩

end

/-- `negate` of zero, in the modulus' width, returns the modulus itself, which is not below it
and is not `(n - 0) mod n = 0`. -/
theorem negate_zero_eq_modulus (n : SecureBigUint) :
    ∃ r, (⟨n⟩ : SecureModulo).negate ⟨List.replicate n.value.length 0⟩ = some r ∧
      r.toNat = n.toNat := by
  obtain ⟨r, hr, -, hrval⟩ :=
    @negate_spec ⟨n⟩ ⟨List.replicate n.value.length 0⟩ (by simp) (by simp)
  exact ⟨r, hr, by simp [hrval]⟩

/-! ## Inversion -/

/-- `inv(3)` mod 7: the first pass leaves `new_t = 0 - 2 = 5`, the second asks `sub` for
`1 - 3 * 5`, and `(1 + 7) - 15` borrows in `sub_assign`. -/
theorem inv_three_mod_seven_panics : (⟨⟨[7]⟩⟩ : SecureModulo).inv ⟨[3]⟩ = none := by
  decide +kernel

end SecureModulo

end Dacha.Math
