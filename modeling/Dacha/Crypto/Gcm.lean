import Mathlib
import Dacha.Math.SecureUint

/-!
# `GaloisField2` (`crypto/src/gcm.rs:20-113`)

GF(2^m) arithmetic on `SecureBigUint`s, bit `i` the coefficient of `x^i`: `new` keeps the low
`m` coefficients of the reduction polynomial and a copy `poly_wide` with `x^m` added and
shifted to the top of a `2m`-bit buffer; `reduce` clears the bits from `2m - 2` down to `m` by
XORing `poly_wide`, shifted down one bit per step; `mul` is the carry-less product into a
`2m - 1`-bit buffer, then `reduce`. `gcm128` is the field of GCM, `x^128 + x^7 + x^2 + x + 1`.

The carry-less product is one of two loops chosen by `#[cfg]` (`carrylessMulTo`). The generic
one XORs a copy of `a`, in `a`'s own four limbs, into the eight-limb product buffer, so its
`xor_assign_if` fails the width assertion as soon as `b` has a bit set:
`gcm128_mul_generic_panics`.
-/

namespace Dacha.Crypto

open Dacha.Math SecureBigUint

structure GaloisField2 where
  m : Nat
  poly : SecureBigUint
  polyWide : SecureBigUint
  deriving DecidableEq, Repr

namespace GaloisField2

def new (m : Nat) (poly : SecureBigUint) : Option GaloisField2 := do
  let p ← poly.extend (2 * m)
  let p ← p.setBit m 1
  -- `0..(m - 2)` is a `usize` subtraction
  if m < 2 then none
  let p := (List.range (m - 2)).foldl (fun p _ => p.shl.1) p
  pure ⟨m, poly, p⟩

def gcm128 : Option GaloisField2 := do
  let n ← fromUsize 0 128
  let n ← n.setBit 7 1
  let n ← n.setBit 2 1
  let n ← n.setBit 1 1
  let n ← n.setBit 0 1
  new 128 n

/-- `reduce`: for `i` from `2m - 2` down to `m`, XOR `poly_wide` in when bit `i` is set, then
halve `poly_wide`; the result is cut to `m` bits. -/
def reduce (f : GaloisField2) (v : SecureBigUint) : Option SecureBigUint := do
  -- `2 * self.m - 1` is a `usize` subtraction
  if f.m = 0 then none
  let r ← ((List.range (f.m - 1)).reverse.map (· + f.m)).foldlM
    (fun (st : SecureBigUint × SecureBigUint) i => do
      let b ← st.1.bit i
      let r ← st.1.xorAssignIf (b ≠ 0) st.2
      pure (r, st.2.shr)) (v, f.polyWide)
  r.1.truncate f.m

/-- `mul`, with the `#[cfg]` choice of carry-less product. -/
def mul (pclmulqdq : Bool) (f : GaloisField2) (a b : SecureBigUint) : Option SecureBigUint := do
  if f.m = 0 then none
  let out ← fromUsize 0 (2 * f.m - 1)
  let out ← carrylessMulTo pclmulqdq a b out
  f.reduce out

/-- The GCM field: `x^7 + x^2 + x + 1` below `x^128`, and `poly_wide` the whole polynomial
shifted up by 126 bits (bits 254, 133, 128, 127 and 126). -/
theorem gcm128_eq : gcm128 = some ⟨128, ⟨[135, 0, 0, 0]⟩,
    ⟨[0, 0, 0, 0xC0000000, 0x21, 0, 0, 0x40000000]⟩⟩ := by
  decide +kernel

/-- Without `pclmulqdq`, a product in the GCM field panics for every nonzero `b` unless `a` is
as wide as the eight-limb product buffer (GCM's operands have four). -/
theorem gcm128_mul_generic_panics (a b : SecureBigUint) (ha : a.value.length ≠ 8)
    (hb : b.toNat ≠ 0) : (gcm128 >>= fun f => f.mul false a b) = none := by
  have hout : fromUsize 0 (2 * 128 - 1) = some ⟨List.replicate 8 0⟩ := by decide
  have hgen : carrylessMulToGeneric a b ⟨List.replicate 8 0⟩ = none :=
    carrylessMulToGeneric_eq_none a b _ hb (by simpa using Ne.symm ha)
  rw [gcm128_eq]
  simp only [Option.bind_eq_bind, Option.bind_some, mul, hout, carrylessMulTo,
    Bool.false_eq_true, if_false, hgen, Option.bind_none]
  simp

/-- `1 * 1` in the GCM field, four limbs each. -/
theorem gcm128_mul_generic_panics_at_one :
    (⟨[1, 0, 0, 0]⟩ : SecureBigUint).value.length ≠ 8 ∧
      (⟨[1, 0, 0, 0]⟩ : SecureBigUint).toNat ≠ 0 ∧
      (gcm128 >>= fun f => f.mul false ⟨[1, 0, 0, 0]⟩ ⟨[1, 0, 0, 0]⟩) = none :=
  ⟨by decide, by decide, gcm128_mul_generic_panics _ _ (by decide) (by decide)⟩

/-- The `pclmulqdq` path on the same operands. -/
example : (gcm128 >>= fun f => f.mul true ⟨[1, 0, 0, 0]⟩ ⟨[1, 0, 0, 0]⟩) = some ⟨[1, 0, 0, 0]⟩ := by
  decide +kernel

end GaloisField2

end Dacha.Crypto
