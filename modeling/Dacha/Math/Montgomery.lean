import Mathlib
import Dacha.Math.SecureModulo
import Dacha.Lib.Montgomery
import Dacha.Lib.Run

/-!
# `SecureMontgomeryModulo` (`math/src/big/secure/montgomery.rs:19-169`)

| here | there |
| --- | --- |
| `newtonLoop`, `new` | `new` (`:31-58`) |
| `toMontgomeryStep`, `toMontgomeryForm`, `fromMontgomeryForm` | `:60-80` |
| `add`, `sub`, `mul` | `:82-92` |
| `powStep`, `pow` | `pow` (`:100-121`) |
| `montgomeryStep`, `montgomeryMul` | `montgomery_mul` (`:144-169`) |
| `SecureModulo.pow` | `modulo.rs:67-76` |

Montgomery arithmetic over a modulus `m` of `k` limbs with `R = 2^(32k)`. `new` computes
`-m⁻¹ mod 2^32` by Newton's iteration; `to_montgomery_form` doubles `k * 32` times with one
conditional subtraction each; `montgomery_mul` is the word-by-word reduction of the Handbook
of Applied Cryptography, Algorithm 14.36, on a `k + 2`-limb accumulator; `pow` is
square-and-multiply over every bit of the exponent's buffer, selecting with `copy_if`.

For an odd modulus above 1 all of it is exact and none of its assertions fire
(`montgomery_exact`). At `m = 1` the Montgomery form of 1 is left as 1, not 0, so `pow` of
a zero exponent returns 1 where `1 mod 1` is 0 (`not_exact_mod_one`).
-/

namespace Dacha.Math

open SecureBigUint Dacha.Common Dacha.Montgomery Dacha.Run

structure SecureMontgomeryModulo where
  modulus : SecureBigUint
  rBits : Nat
  modulusPrime : UInt32
  deriving DecidableEq, Repr

namespace SecureMontgomeryModulo

/-- The `while nbits < BASE_BITS` loop of `new`: `inv = inv * (2 - m_0 * inv)` with `nbits`
doubling from 2, so four passes; the fuel of `BASE_BITS` passes is never reached. -/
def newtonLoop (m0 : UInt32) : Nat → UInt32 → Nat → UInt32
  | 0, inv, _ => inv
  | fuel + 1, inv, nbits =>
    if nbits < BASE_BITS then newtonLoop m0 fuel (inv * (2 - m0 * inv)) (nbits * 2) else inv

/-- `new`: the modulus must be odd; `modulus_prime` is `-inv`, computed as
`((inv as i32) * -1) as u32`, which overflows at `i32::MIN`. -/
def new (modulus : SecureBigUint) : Option SecureMontgomeryModulo := do
  let m0 ← modulus.value[0]?
  if m0 % 2 ≠ 1 then none
  let inv := newtonLoop m0 BASE_BITS m0 2
  if inv = 0x80000000 then none
  pure ⟨modulus, modulus.bitWidth + 1, 0 - inv⟩

/-- One pass of `to_montgomery_form`: double `a`, and subtract the modulus when the doubled
value (with the bit shifted out) reaches it. The state is `(a, tmp)`. -/
def toMontgomeryStep (mm : SecureMontgomeryModulo) (st : SecureBigUint × SecureBigUint) :
    Option (SecureBigUint × SecureBigUint) := do
  let shifted := st.1.shl
  let sub := overflowingSubTo shifted.1 mm.modulus st.2
  let a ← copyIf sub.1 ((shifted.2 ≠ 0) == sub.2) shifted.1
  pure (a, sub.1)

/-- `to_montgomery_form`: `a * R mod m` by `r_bits - 1` doublings. -/
def toMontgomeryForm (mm : SecureMontgomeryModulo) (a : SecureBigUint) :
    Option SecureBigUint := do
  if a.bitWidth ≠ mm.modulus.bitWidth then none
  let tmp ← fromUsize 0 mm.modulus.bitWidth
  let r ← (List.range' 1 (mm.rBits - 1)).foldlM (fun st _ => mm.toMontgomeryStep st) (a, tmp)
  pure r.1

/-- One pass of `montgomery_mul` on the accumulator `a`: add `x_i y` and `u_i m`, with
`u_i = (a_0 + x_i y_0) m'` chosen to clear the low limb, then drop it. -/
def montgomeryStep (mm : SecureMontgomeryModulo) (x y a : SecureBigUint) (i : Nat) :
    Option SecureBigUint := do
  let a0 ← a.value[0]?
  let xi ← x.value[i]?
  let y0 ← y.value[0]?
  let ui := (a0 + xi * y0) * mm.modulusPrime
  let xiBig ← fromUsize xi.toNat BASE_BITS
  let uiBig ← fromUsize ui.toNat BASE_BITS
  let a ← xiBig.addMulTo y a
  let a ← uiBig.addMulTo mm.modulus a
  a.shrBase

/-- `montgomery_mul`: `x y R⁻¹ mod m`. -/
def montgomeryMul (mm : SecureMontgomeryModulo) (x y : SecureBigUint) :
    Option SecureBigUint := do
  let a ← fromUsize 0 (mm.modulus.bitWidth + 2 * BASE_BITS)
  let a ← (List.range mm.modulus.value.length).foldlM (mm.montgomeryStep x y) a
  a.reduceOnce mm.modulus

/-- `from_montgomery_form`: a Montgomery product with a one-limb 1. -/
def fromMontgomeryForm (mm : SecureMontgomeryModulo) (t : SecureBigUint) :
    Option SecureBigUint := do
  let one ← fromUsize 1 BASE_BITS
  mm.montgomeryMul t one

def add (mm : SecureMontgomeryModulo) (a b : SecureBigUint) : Option SecureBigUint :=
  (SecureModulo.mk mm.modulus).add a b

def sub (mm : SecureMontgomeryModulo) (a b : SecureBigUint) : Option SecureBigUint :=
  (SecureModulo.mk mm.modulus).sub a b

def mul (mm : SecureMontgomeryModulo) (x y : SecureBigUint) : Option SecureBigUint :=
  mm.montgomeryMul x y

/-- One pass of `pow` over bit `i` of `b`; the state is `(out, p)`. -/
def powStep (mm : SecureMontgomeryModulo) (b : SecureBigUint)
    (st : SecureBigUint × SecureBigUint) (i : Nat) : Option (SecureBigUint × SecureBigUint) := do
  let nextOut ← mm.mul st.1 st.2
  let bi ← b.bit i
  let out ← nextOut.copyIf (bi == 1) st.1
  let p ← mm.mul st.2 st.2
  pure (out, p)

/-- `pow`: `a^b` for `a` in Montgomery form, over every bit of `b`'s buffer. -/
def pow (mm : SecureMontgomeryModulo) (a b : SecureBigUint) : Option SecureBigUint := do
  let out ← fromUsize 1 mm.modulus.bitWidth
  let out ← mm.toMontgomeryForm out
  let r ← (List.range b.bitWidth).foldlM (mm.powStep b) (out, a)
  pure r.1

end SecureMontgomeryModulo

/-- `SecureModulo::pow`: through the Montgomery form and back. -/
def SecureModulo.pow (m : SecureModulo) (a b : SecureBigUint) : Option SecureBigUint := do
  let mont ← SecureMontgomeryModulo.new m.n
  let aMont ← mont.toMontgomeryForm a
  let resultMont ← mont.pow aMont b
  mont.fromMontgomeryForm resultMont

namespace SecureMontgomeryModulo

/-! ## Limbs as residues modulo `2^32` -/

/-- A limb as a residue modulo `2^32`, where the wrapping operations of `u32` are the ring's. -/
def limbZ (v : UInt32) : ZMod (2 ^ 32) := v.toNat

@[simp] theorem limbZ_zero : limbZ 0 = 0 := by simp [limbZ]

@[simp] theorem limbZ_two : limbZ 2 = 2 := by decide

@[simp] theorem limbZ_add (u v : UInt32) : limbZ (u + v) = limbZ u + limbZ v := by
  rw [limbZ, UInt32.toNat_add, ZMod.natCast_mod, Nat.cast_add]
  rfl

@[simp] theorem limbZ_mul (u v : UInt32) : limbZ (u * v) = limbZ u * limbZ v := by
  rw [limbZ, UInt32.toNat_mul, ZMod.natCast_mod, Nat.cast_mul]
  rfl

@[simp] theorem limbZ_sub (u v : UInt32) : limbZ (u - v) = limbZ u - limbZ v := by
  rw [limbZ, UInt32.toNat_sub, ZMod.natCast_mod, Nat.cast_add, Nat.cast_sub v.toNat_lt.le,
    ZMod.natCast_self, zero_sub, neg_add_eq_sub]
  rfl

theorem cast_limbsVal_cons (v : UInt32) (vs : List UInt32) :
    ((limbsVal (v :: vs) : ℕ) : ZMod (2 ^ 32)) = limbZ v := by
  rw [limbsVal_cons, Nat.cast_add, Nat.cast_mul, ZMod.natCast_self, zero_mul, add_zero]
  rfl

/-! ## `new` -/

/-- What `new` establishes: an odd modulus, `R = 2^(r_bits - 1)` the modulus' width, and
`modulus_prime · m ≡ -1` modulo the limb base. -/
structure Valid (mm : SecureMontgomeryModulo) : Prop where
  modulus_odd : mm.modulus.toNat % 2 = 1
  rBits_eq : mm.rBits = mm.modulus.bitWidth + 1
  prime_mul : limbZ mm.modulusPrime * (mm.modulus.toNat : ZMod (2 ^ 32)) = -1

theorem exists_cons_of_odd {m : SecureBigUint} (hodd : m.toNat % 2 = 1) :
    ∃ m0 ms, m.value = m0 :: ms ∧ m0.toNat % 2 = 1 := by
  obtain ⟨l⟩ := m
  cases l with
  | nil => simp at hodd
  | cons m0 ms =>
    refine ⟨m0, ms, rfl, ?_⟩
    simp only [toNat_mk, limbsVal_cons] at hodd
    omega

theorem Valid.length_pos {mm : SecureMontgomeryModulo} (hv : mm.Valid) :
    0 < mm.modulus.value.length := by
  obtain ⟨m0, ms, hm, -⟩ := exists_cons_of_odd hv.modulus_odd
  simp [hm]

theorem limbZ_newtonLoop (m0 : UInt32) :
    limbZ (newtonLoop m0 BASE_BITS m0 2) = (newtonStep (limbZ m0))^[4] (limbZ m0) := by
  have hloop : newtonLoop m0 BASE_BITS m0 2 =
      (fun inv => inv * (2 - m0 * inv))^[4] m0 := rfl
  simp only [hloop, Function.iterate_succ_apply', Function.iterate_zero_apply, newtonStep,
    limbZ_mul, limbZ_sub, limbZ_two]

/-- For an odd low limb, the loop of `new` computes its inverse modulo `2^32`. -/
theorem mul_newtonLoop {m0 : UInt32} (hodd : m0.toNat % 2 = 1) :
    limbZ m0 * limbZ (newtonLoop m0 BASE_BITS m0 2) = 1 := by
  obtain ⟨j, hj⟩ : ∃ j, m0.toNat = 2 * j + 1 := ⟨m0.toNat / 2, by omega⟩
  have hsplit : limbZ m0 = 2 * (j : ZMod (2 ^ 32)) + 1 := by
    rw [limbZ, hj]
    push_cast
    ring
  rw [limbZ_newtonLoop]
  exact mul_newtonStep_four _ _ hsplit (by decide)

/-- `new` of an odd modulus does not panic and sets up a valid context: the inverse it negates
is odd, so it is never `i32::MIN`. -/
theorem new_spec {m : SecureBigUint} (hodd : m.toNat % 2 = 1) :
    ∃ mm, new m = some mm ∧ mm.modulus = m ∧ mm.Valid := by
  obtain ⟨m0, ms, hm, hm0⟩ := exists_cons_of_odd hodd
  have hinv := mul_newtonLoop hm0
  set inv := newtonLoop m0 BASE_BITS m0 2
  have hne : inv ≠ 0x80000000 := by
    intro h
    have hhalf : limbZ inv = 2 ^ 31 := by rw [h]; decide
    have htwo : (2 : ZMod (2 ^ 32)) = 0 := by
      calc (2 : ZMod (2 ^ 32)) = 2 * (limbZ m0 * limbZ inv) := by rw [hinv, mul_one]
        _ = limbZ m0 * 2 ^ 32 := by rw [hhalf]; ring
        _ = 0 := by rw [show (2 : ZMod (2 ^ 32)) ^ 32 = 0 by decide, mul_zero]
    exact absurd htwo (by decide)
  have hcheck : m0 % 2 = 1 := UInt32.toNat_inj.mp (by simpa [UInt32.toNat_mod] using hm0)
  refine ⟨⟨m, m.bitWidth + 1, 0 - inv⟩, ?_, rfl, ⟨hodd, rfl, ?_⟩⟩
  · simp [new, hm, hcheck, inv, hne]
  · show limbZ (0 - inv) * ((limbsVal m.value : ℕ) : ZMod (2 ^ 32)) = -1
    rw [hm, cast_limbsVal_cons, limbZ_sub, limbZ_zero]
    linear_combination -hinv

/-! ## `to_montgomery_form` -/

section

variable (mm : SecureMontgomeryModulo)

/-- One doubling of `to_montgomery_form` leaves `2a mod m` for `a < m`: the difference is kept
when the bit shifted out equals the borrow, both set when `2a` overflows the width and both
clear when `m ≤ 2a` within it. -/
theorem toMontgomeryStep_spec {a t : SecureBigUint}
    (ha : a.value.length = mm.modulus.value.length)
    (ht : t.value.length = mm.modulus.value.length) (hlt : a.toNat < mm.modulus.toNat) :
    ∃ a' t', mm.toMontgomeryStep (a, t) = some (a', t') ∧
      a'.value.length = mm.modulus.value.length ∧ t'.value.length = mm.modulus.value.length ∧
      a'.toNat = 2 * a.toNat % mm.modulus.toNat := by
  obtain ⟨hslen, hc, hs⟩ := shl_spec a
  set M := mm.modulus
  set sub := overflowingSubTo a.shl.1 M t
  have htake : ∀ l : List UInt32, l.length = M.value.length →
      limbsVal (l.take t.value.length) = limbsVal l :=
    fun l hl => by rw [List.take_of_length_le (by omega)]
  have hsnd : sub.2 = decide (a.shl.1.toNat < M.toNat) := by
    have h := overflowingSubTo_snd a.shl.1 M t
    rwa [htake _ (hslen.trans ha), htake _ rfl] at h
  have hval : sub.1.toNat + M.toNat =
      a.shl.1.toNat + if sub.2 then (2 ^ 32) ^ M.value.length else 0 := by
    have h := toNat_overflowingSubTo a.shl.1 M t
    rwa [htake _ (hslen.trans ha), htake _ rfl, ht] at h
  have hsublen : sub.1.value.length = M.value.length := by simp [sub, ht]
  have hrun : mm.toMontgomeryStep (a, t) =
      some (if (decide (a.shl.2 ≠ 0) == sub.2) then sub.1 else a.shl.1, sub.1) := by
    simp only [toMontgomeryStep, Option.bind_eq_bind]
    rw [copyIf_eq _ _ _ (hsublen.trans (hslen.trans ha).symm)]
    rfl
  rw [ha] at hs
  have hM := M.toNat_lt
  refine ⟨_, _, hrun, by split <;> simp [hsublen, hslen, ha], hsublen, ?_⟩
  by_cases hc0 : a.shl.2 = 0
  · -- no bit shifted out: `2a` is the shifted value, reduced when it reaches `m`
    have hcn : a.shl.2.toNat = 0 := by simp [hc0]
    rw [hcn, Nat.mul_zero, Nat.add_zero] at hs
    by_cases h2 : 2 * a.toNat < M.toNat
    · have hb : sub.2 = true := by rw [hsnd, hs]; simpa using h2
      simp only [hc0, hb, ne_eq, not_true_eq_false, decide_false, beq_true, Bool.false_eq_true,
        if_false]
      rw [hs, Nat.mod_eq_of_lt h2]
    · have hb : sub.2 = false := by rw [hsnd, hs]; simpa using h2
      simp only [hc0, hb, ne_eq, not_true_eq_false, decide_false, beq_self_eq_true, if_true]
      rw [hb, if_neg Bool.false_ne_true] at hval
      rw [Nat.mod_eq_sub_mod (by omega), Nat.mod_eq_of_lt (by omega)]
      omega
  · -- a bit shifted out: `2a = s + B^k` with `s < m`, so the subtraction borrows
    have hcn : a.shl.2.toNat = 1 := by
      have : a.shl.2.toNat ≠ 0 := fun h => hc0 (UInt32.toNat_inj.mp h)
      omega
    rw [hcn, Nat.mul_one] at hs
    have hb : sub.2 = true := by rw [hsnd]; simpa using (show a.shl.1.toNat < M.toNat by omega)
    simp only [hc0, hb, ne_eq, not_false_eq_true, decide_true, beq_self_eq_true, if_true]
    rw [hb, if_pos rfl] at hval
    rw [Nat.mod_eq_sub_mod (by omega), Nat.mod_eq_of_lt (by omega)]
    omega

/-- `to_montgomery_form` of `a < m` in `m`'s width is `a R mod m`, `R = 2^(32k)`. -/
theorem toMontgomeryForm_spec (hv : mm.Valid) {a : SecureBigUint}
    (ha : a.value.length = mm.modulus.value.length) (hlt : a.toNat < mm.modulus.toNat) :
    ∃ r, mm.toMontgomeryForm a = some r ∧ r.value.length = mm.modulus.value.length ∧
      r.toNat = a.toNat * (2 ^ 32) ^ mm.modulus.value.length % mm.modulus.toNat := by
  have hk := hv.length_pos
  have hzero : fromUsize 0 mm.modulus.bitWidth = some ⟨List.replicate mm.modulus.value.length 0⟩ := by
    rw [fromUsize_zero (by simpa using hk), ceilDiv_bitWidth]
  have hpos : 0 < mm.modulus.toNat := by have := hv.modulus_odd; omega
  -- after `i` doublings the value is `a 2^i mod m`
  obtain ⟨st, hst, hlen, -, hval⟩ := foldlM_range'_inv (fun st _ => mm.toMontgomeryStep st)
    (mm.rBits - 1) 1
    (fun i st => st.1.value.length = mm.modulus.value.length ∧ st.2.value.length = mm.modulus.value.length ∧
      st.1.toNat = a.toNat * 2 ^ i % mm.modulus.toNat)
    (by
      rintro i - ⟨a', t'⟩ ⟨ha', ht', hval'⟩
      have hlt' : a'.toNat < mm.modulus.toNat := hval' ▸ Nat.mod_lt _ hpos
      obtain ⟨a'', t'', hstep, h1, h2, h3⟩ := mm.toMontgomeryStep_spec ha' ht' hlt'
      refine ⟨(a'', t''), hstep, h1, h2, ?_⟩
      rw [h3, hval', Nat.mul_mod_mod, pow_succ]
      ring_nf)
    (a, ⟨List.replicate mm.modulus.value.length 0⟩) ⟨ha, by simp, by simp [Nat.mod_eq_of_lt hlt]⟩
  refine ⟨st.1, ?_, hlen, ?_⟩
  · have hwidth : a.bitWidth = mm.modulus.bitWidth := by simp [bitWidth, ha]
    simp [toMontgomeryForm, hwidth, hzero, hst]
  · rw [hval, hv.rBits_eq, Nat.add_sub_cancel, bitWidth, BASE_BITS, pow_mul']

/-! ## `montgomery_mul` -/

/-- One pass of `montgomery_mul` on an accumulator `A < 2m` of `k + 2` limbs: the sums fit, the
low limb of `A + x_i y + u_i m` is zero, and `shr_base` divides it by the base. -/
theorem montgomeryStep_spec (hv : mm.Valid) {x y A : SecureBigUint} {i : ℕ}
    (hi : i < x.value.length) (hy : y.value ≠ [])
    (hylen : y.value.length ≤ mm.modulus.value.length + 2) (hyM : y.toNat ≤ mm.modulus.toNat)
    (hA : A.value.length = mm.modulus.value.length + 2)
    (hAlt : A.toNat < 2 * mm.modulus.toNat) :
    ∃ A' u, mm.montgomeryStep x y A i = some A' ∧
      A'.value.length = mm.modulus.value.length + 2 ∧ u < 2 ^ 32 ∧
      2 ^ 32 * A'.toNat = A.toNat + x.value[i].toNat * y.toNat + u * mm.modulus.toNat := by
  obtain ⟨a0, as, hAv⟩ := List.exists_cons_of_ne_nil (List.ne_nil_of_length_pos
    (show 0 < A.value.length by omega))
  obtain ⟨y0, ys, hyv⟩ := List.exists_cons_of_ne_nil hy
  set xi := x.value[i]
  set ui := (a0 + xi * y0) * mm.modulusPrime
  have hone : ceilDiv BASE_BITS BASE_BITS = 1 := by decide
  obtain ⟨X, hX, hXlen, hXval⟩ := @fromUsize_spec xi.toNat BASE_BITS xi.toNat_lt (by omega)
  obtain ⟨U, hU, hUlen, hUval⟩ := @fromUsize_spec ui.toNat BASE_BITS ui.toNat_lt (by omega)
  have hsum := redc_sum_lt hAlt xi.toNat_lt hyM ui.toNat_lt
  have hfit : 2 ^ 32 * (2 * mm.modulus.toNat) ≤ (2 ^ 32) ^ (mm.modulus.value.length + 2) := by
    have hM := mm.modulus.toNat_lt
    rw [pow_add]
    nlinarith
  obtain ⟨A1, hA1, hA1len, hA1val⟩ := addMulTo_spec X y A (by omega)
  rw [hA, hXval, Nat.mod_eq_of_lt (by omega)] at hA1val
  obtain ⟨A2, hA2, hA2len, hA2val⟩ := addMulTo_spec U mm.modulus A1 (by omega)
  rw [hA1len, hA, hUval, hA1val, Nat.mod_eq_of_lt (by omega)] at hA2val
  have hlow : 2 ^ 32 ∣ A2.toNat := by
    rw [← ZMod.natCast_eq_zero_iff, hA2val]
    have hAz : ((A.toNat : ℕ) : ZMod (2 ^ 32)) = limbZ a0 := by
      rw [show A.toNat = limbsVal A.value from rfl, hAv, cast_limbsVal_cons]
    have hyz : ((y.toNat : ℕ) : ZMod (2 ^ 32)) = limbZ y0 := by
      rw [show y.toNat = limbsVal y.value from rfl, hyv, cast_limbsVal_cons]
    have hui : limbZ ui = (limbZ a0 + limbZ xi * limbZ y0) * limbZ mm.modulusPrime := by
      simp [ui]
    push_cast
    rw [hAz, hyz, show ((xi.toNat : ℕ) : ZMod (2 ^ 32)) = limbZ xi from rfl,
      show ((ui.toNat : ℕ) : ZMod (2 ^ 32)) = limbZ ui from rfl, hui]
    exact add_mul_add_redcDigit hv.prime_mul _ _ _
  obtain ⟨A3, hA3, hA3len, hA3val⟩ := shrBase_spec A2
    (List.ne_nil_of_length_pos (by omega)) (Nat.mod_eq_zero_of_dvd hlow)
  have hrun : mm.montgomeryStep x y A i = (do
      let X ← fromUsize xi.toNat BASE_BITS
      let U ← fromUsize ui.toNat BASE_BITS
      let a ← X.addMulTo y A
      let a ← U.addMulTo mm.modulus a
      a.shrBase) := by
    simp only [montgomeryStep, hAv, hyv, List.getElem?_cons_zero, List.getElem?_eq_getElem hi,
      Option.bind_eq_bind, Option.bind_some]
    rfl
  refine ⟨A3, ui.toNat, ?_, by omega, ui.toNat_lt, ?_⟩
  · simp only [hrun, hX, hU, hA1, hA2, hA3, Option.bind_eq_bind, Option.bind_some]
  · rw [hA3val, Nat.mul_div_cancel' hlow, hA2val]

/-- `montgomery_mul` of `x` in `m`'s width and `0 < y ≤ m`: a value `r < m` of `m`'s width with
`r R ≡ x y`. The loop keeps the accumulator below `2m` with `A_i B^i ≡ (x mod B^i) y`. -/
theorem montgomeryMul_spec (hv : mm.Valid) {x y : SecureBigUint}
    (hx : x.value.length = mm.modulus.value.length) (hy : y.value ≠ [])
    (hylen : y.value.length ≤ mm.modulus.value.length + 2) (hyM : y.toNat ≤ mm.modulus.toNat) :
    ∃ r, mm.montgomeryMul x y = some r ∧ r.value.length = mm.modulus.value.length ∧
      r.toNat < mm.modulus.toNat ∧
      r.toNat * (2 ^ 32) ^ mm.modulus.value.length ≡ x.toNat * y.toNat [MOD mm.modulus.toNat] := by
  have hk := hv.length_pos
  have hpos : 0 < mm.modulus.toNat := by have := hv.modulus_odd; omega
  have hwidth : ceilDiv (mm.modulus.bitWidth + 2 * BASE_BITS) BASE_BITS =
      mm.modulus.value.length + 2 := by
    rw [bitWidth, ← Nat.add_mul]
    exact ceilDiv_mul (by decide) _
  have hzero : fromUsize 0 (mm.modulus.bitWidth + 2 * BASE_BITS) =
      some ⟨List.replicate (mm.modulus.value.length + 2) 0⟩ := by
    rw [fromUsize_zero (by omega), hwidth]
  obtain ⟨A, hloop, hAlen, hAlt, hAmod⟩ := foldlM_range_inv (mm.montgomeryStep x y)
    mm.modulus.value.length
    (fun i A => A.value.length = mm.modulus.value.length + 2 ∧ A.toNat < 2 * mm.modulus.toNat ∧
      A.toNat * (2 ^ 32) ^ i ≡ limbsVal (x.value.take i) * y.toNat [MOD mm.modulus.toNat])
    (by
      rintro i hi A ⟨hAlen, hAlt, hAmod⟩
      have hix : i < x.value.length := by omega
      obtain ⟨A', u, hstep, hlen', hu, heq⟩ :=
        mm.montgomeryStep_spec hv hix hy hylen hyM hAlen hAlt
      refine ⟨A', hstep, hlen', redc_step_lt hAlt (UInt32.toNat_lt _) hyM hu heq, ?_⟩
      have h := redc_step_modEq heq hAmod
      rwa [← pow_succ, ← limbsVal_take_add_one _ hix] at h)
    ⟨List.replicate (mm.modulus.value.length + 2) 0⟩ ⟨by simp, by simpa using hpos, by simp [Nat.ModEq]⟩
  obtain ⟨r, hr, hrlen, hrval⟩ := reduceOnce_mod A mm.modulus (by omega) (by omega) hAlt
  refine ⟨r, ?_, hrlen, hrval ▸ Nat.mod_lt _ hpos, ?_⟩
  · simp only [montgomeryMul, hzero, hloop, hr, Option.bind_eq_bind, Option.bind_some]
  · have hxtake : limbsVal (x.value.take mm.modulus.value.length) = x.toNat := by
      rw [← hx, List.take_length]
      rfl
    rw [hxtake] at hAmod
    rw [hrval]
    exact ((Nat.mod_modEq _ _).mul_right _).trans hAmod

/-! ## Montgomery forms -/

/-- `v` is the Montgomery form of the residue `c`: in `m`'s width, below `m`, and `c R`
modulo `m`. -/
structure IsForm (v : SecureBigUint) (c : ZMod mm.modulus.toNat) : Prop where
  length_eq : v.value.length = mm.modulus.value.length
  lt : v.toNat < mm.modulus.toNat
  cast_eq : (v.toNat : ZMod mm.modulus.toNat) = c * ((2 ^ 32) ^ mm.modulus.value.length : ℕ)

theorem Valid.isUnit_radix {mm : SecureMontgomeryModulo} (hv : mm.Valid) :
    IsUnit (((2 ^ 32) ^ mm.modulus.value.length : ℕ) : ZMod mm.modulus.toNat) := by
  rw [← pow_mul]
  exact isUnit_two_pow hv.modulus_odd _

/-- `to_montgomery_form` of `a < m` in `m`'s width is the Montgomery form of `a`. -/
theorem toMontgomeryForm_isForm (hv : mm.Valid) {a : SecureBigUint}
    (ha : a.value.length = mm.modulus.value.length) (hlt : a.toNat < mm.modulus.toNat) :
    ∃ r, mm.toMontgomeryForm a = some r ∧ mm.IsForm r a.toNat := by
  obtain ⟨r, hr, hlen, hval⟩ := mm.toMontgomeryForm_spec hv ha hlt
  have hpos : 0 < mm.modulus.toNat := by have := hv.modulus_odd; omega
  refine ⟨r, hr, hlen, hval ▸ Nat.mod_lt _ hpos, ?_⟩
  rw [hval, ZMod.natCast_mod, Nat.cast_mul]

/-- `mul` of Montgomery forms is the Montgomery form of the product: `r R = (c R)(d R)`, and
`R` cancels. -/
theorem mul_isForm (hv : mm.Valid) {x y : SecureBigUint} {c d : ZMod mm.modulus.toNat}
    (hx : mm.IsForm x c) (hy : mm.IsForm y d) :
    ∃ r, mm.mul x y = some r ∧ mm.IsForm r (c * d) := by
  have hk := hv.length_pos
  have hylen := hy.length_eq
  obtain ⟨r, hr, hlen, hlt, hmod⟩ := mm.montgomeryMul_spec hv hx.length_eq
    (List.ne_nil_of_length_pos (by omega)) (by omega) hy.lt.le
  have hcast : (r.toNat : ZMod mm.modulus.toNat) * ((2 ^ 32) ^ mm.modulus.value.length : ℕ) =
      x.toNat * y.toNat := by
    exact_mod_cast (ZMod.natCast_eq_natCast_iff _ _ _).mpr hmod
  refine ⟨r, hr, hlen, hlt, ?_⟩
  apply hv.isUnit_radix.mul_left_inj.mp
  rw [hcast, hx.cast_eq, hy.cast_eq]
  ring

/-- `from_montgomery_form` of the Montgomery form of `c` is `c`, below `m` in `m`'s width:
the product with a one-limb 1 is `t R⁻¹`. -/
theorem fromMontgomeryForm_spec (hv : mm.Valid) {t : SecureBigUint} {c : ZMod mm.modulus.toNat}
    (ht : mm.IsForm t c) :
    ∃ r, mm.fromMontgomeryForm t = some r ∧ r.value.length = mm.modulus.value.length ∧
      r.toNat < mm.modulus.toNat ∧ (r.toNat : ZMod mm.modulus.toNat) = c := by
  have hk := hv.length_pos
  have hone : fromUsize 1 BASE_BITS = some ⟨[1]⟩ := rfl
  have hpos : 0 < mm.modulus.toNat := by have := hv.modulus_odd; omega
  obtain ⟨r, hr, hlen, hlt, hmod⟩ := @montgomeryMul_spec mm hv t ⟨[1]⟩ ht.length_eq
    (by simp) (by simp) (by simp; omega)
  have hcast : (r.toNat : ZMod mm.modulus.toNat) * ((2 ^ 32) ^ mm.modulus.value.length : ℕ) =
      t.toNat := by
    have h := (ZMod.natCast_eq_natCast_iff _ _ _).mpr hmod
    simpa using h
  refine ⟨r, by simp only [fromMontgomeryForm, hone, Option.bind_eq_bind, Option.bind_some, hr],
    hlen, hlt, ?_⟩
  apply hv.isUnit_radix.mul_left_inj.mp
  rw [hcast, ht.cast_eq]

theorem eq_of_cast_eq {M r t : ℕ} (hr : r < M) (ht : t < M) (h : (r : ZMod M) = t) : r = t := by
  have h' := (ZMod.natCast_eq_natCast_iff' r t M).mp h
  rwa [Nat.mod_eq_of_lt hr, Nat.mod_eq_of_lt ht] at h'

/-- Back from the Montgomery form: `from_montgomery_form(to_montgomery_form(x)) = x`. -/
theorem fromMontgomeryForm_toMontgomeryForm (hv : mm.Valid) {x : SecureBigUint}
    (hx : x.value.length = mm.modulus.value.length) (hlt : x.toNat < mm.modulus.toNat) :
    (mm.toMontgomeryForm x >>= mm.fromMontgomeryForm) = some x := by
  obtain ⟨t, ht, htf⟩ := mm.toMontgomeryForm_isForm hv hx hlt
  obtain ⟨r, hr, hlen, hrlt, hcast⟩ := mm.fromMontgomeryForm_spec hv htf
  have hrx : r = x := eq_of_toNat_eq (hlen.trans hx.symm) (eq_of_cast_eq hrlt hlt hcast)
  rw [ht, Option.bind_eq_bind, Option.bind_some, hr, hrx]

/-! ## `pow` -/

/-- One pass of `pow` on bit `i` of `b`: `out = a^(b mod 2^i)` gains the bit's factor
`p = a^(2^i)` when the bit is set, through `copy_if`, and `p` is squared. -/
theorem powStep_isForm (hv : mm.Valid) (b : SecureBigUint) {i : ℕ} (hi : i < b.bitWidth)
    {a : ZMod mm.modulus.toNat} {st : SecureBigUint × SecureBigUint}
    (hout : mm.IsForm st.1 (a ^ (b.toNat % 2 ^ i))) (hp : mm.IsForm st.2 (a ^ 2 ^ i)) :
    ∃ st', mm.powStep b st i = some st' ∧ mm.IsForm st'.1 (a ^ (b.toNat % 2 ^ (i + 1))) ∧
      mm.IsForm st'.2 (a ^ 2 ^ (i + 1)) := by
  obtain ⟨next, hnext, hnextf⟩ := mm.mul_isForm hv hout hp
  obtain ⟨p', hp', hp'f⟩ := mm.mul_isForm hv hp hp
  have hsel := copyIf_eq next st.1 (decide (b.toNat.testBit i))
    (hnextf.length_eq.trans hout.length_eq.symm)
  have hsquare : a ^ 2 ^ i * a ^ 2 ^ i = a ^ 2 ^ (i + 1) := by
    rw [pow_succ, pow_mul, sq]
  refine ⟨(if b.toNat.testBit i then next else st.1, p'), ?_, ?_, hsquare ▸ hp'f⟩
  · have hbit : (b.bit i).map (· == 1) = some (decide (b.toNat.testBit i)) := by
      rw [bit_eq b hi]
      cases b.toNat.testBit i <;> rfl
    simp only [powStep, hnext, hp', Option.bind_eq_bind, Option.bind_some]
    cases hb : b.bit i with
    | none => simp [hb] at hbit
    | some v =>
      simp only [hb, Option.map_some, Option.some.injEq] at hbit
      simp only [Option.bind_some, hbit, hsel, decide_eq_true_eq]
      rfl
  · rw [pow_mod_two_pow_succ]
    cases b.toNat.testBit i
    · simpa using hout
    · simpa using hnextf

/-- `pow` of the Montgomery form of `a` is the Montgomery form of `a^b`, for an exponent of any
width, once `m > 1`: it starts from the form of 1, which `to_montgomery_form` makes only when
`1 < m`. -/
theorem pow_isForm (hv : mm.Valid) (h1 : 1 < mm.modulus.toNat) {aM : SecureBigUint}
    {a : ZMod mm.modulus.toNat} (ha : mm.IsForm aM a) (b : SecureBigUint) :
    ∃ r, mm.pow aM b = some r ∧ mm.IsForm r (a ^ b.toNat) := by
  have hk := hv.length_pos
  obtain ⟨one, hone, honelen, honeval⟩ :=
    @fromUsize_spec 1 mm.modulus.bitWidth (by norm_num) (by simpa using hk)
  rw [ceilDiv_bitWidth] at honelen
  obtain ⟨out, hout, houtf⟩ := mm.toMontgomeryForm_isForm hv honelen (honeval ▸ h1)
  rw [honeval, Nat.cast_one] at houtf
  obtain ⟨st, hloop, hst, -⟩ := foldlM_range_inv (mm.powStep b) b.bitWidth
    (fun i st => mm.IsForm st.1 (a ^ (b.toNat % 2 ^ i)) ∧ mm.IsForm st.2 (a ^ 2 ^ i))
    (fun i hi st h => mm.powStep_isForm hv b hi h.1 h.2)
    (out, aM) ⟨by rw [pow_zero, Nat.mod_one, pow_zero]; exact houtf, by rwa [pow_zero, pow_one]⟩
  have hb : b.toNat % 2 ^ b.bitWidth = b.toNat := by
    rw [bitWidth, BASE_BITS, Nat.mul_comm, pow_mul]
    exact Nat.mod_eq_of_lt b.toNat_lt
  refine ⟨st.1, ?_, hb ▸ hst⟩
  simp only [pow, hone, hout, hloop, Option.bind_eq_bind, Option.bind_some]
  rfl

end

theorem IsForm.toNat_eq {mm : SecureMontgomeryModulo} {v : SecureBigUint} {a : ℕ}
    (hv : mm.IsForm v a) (hpos : 0 < mm.modulus.toNat) :
    v.toNat = a * (2 ^ 32) ^ mm.modulus.value.length % mm.modulus.toNat := by
  refine eq_of_cast_eq hv.lt (Nat.mod_lt _ hpos) ?_
  rw [hv.cast_eq, ZMod.natCast_mod, Nat.cast_mul]

end SecureMontgomeryModulo

namespace SecureModulo

open SecureMontgomeryModulo

/-- `SecureModulo::pow` of `a < n` in `n`'s width is `a^b mod n`, for an odd `n > 1` and an
exponent of any width. -/
theorem pow_eq_pow_mod {n : SecureBigUint} (hodd : n.toNat % 2 = 1) (h1 : 1 < n.toNat)
    {a : SecureBigUint} (ha : a.value.length = n.value.length) (hlt : a.toNat < n.toNat)
    (b : SecureBigUint) :
    ∃ r, (⟨n⟩ : SecureModulo).pow a b = some r ∧ r.value.length = n.value.length ∧
      r.toNat = a.toNat ^ b.toNat % n.toNat := by
  obtain ⟨mm, hnew, rfl, hv⟩ := new_spec hodd
  obtain ⟨aM, haM, haMf⟩ := mm.toMontgomeryForm_isForm hv ha hlt
  obtain ⟨p, hp, hpf⟩ := mm.pow_isForm hv h1 haMf b
  obtain ⟨r, hr, hrlen, hrlt, hcast⟩ := mm.fromMontgomeryForm_spec hv hpf
  refine ⟨r, ?_, hrlen, eq_of_cast_eq hrlt (Nat.mod_lt _ (by omega)) ?_⟩
  · simp only [pow, hnew, haM, hp, hr, Option.bind_eq_bind, Option.bind_some]
  · rw [hcast, ZMod.natCast_mod, Nat.cast_pow]

end SecureModulo

namespace SecureMontgomeryModulo

/-- Exactness of the Montgomery arithmetic of a context `mm` over the modulus `m`, for operands
below `m` in `m`'s width, with `R = 2^(32k)`: `to_montgomery_form` is `x R mod m`, `mul` is
`x y R⁻¹ mod m` in `m`'s width, `from_montgomery_form` undoes `to_montgomery_form`, `pow` of a
Montgomery form is the form of `a^b mod m`, and `SecureModulo::pow` is `a^b mod m`, each without
a panic. -/
structure Exact (m : SecureBigUint) (mm : SecureMontgomeryModulo) : Prop where
  toMontgomeryForm_eq : ∀ x : SecureBigUint, x.value.length = m.value.length →
    x.toNat < m.toNat → ∃ r, mm.toMontgomeryForm x = some r ∧
      r.value.length = m.value.length ∧ r.toNat = x.toNat * (2 ^ 32) ^ m.value.length % m.toNat
  mul_eq : ∀ x y : SecureBigUint, x.value.length = m.value.length →
    y.value.length = m.value.length → x.toNat < m.toNat → y.toNat < m.toNat →
    ∃ r, mm.mul x y = some r ∧ r.value.length = m.value.length ∧
      r.toNat = (((x.toNat * y.toNat : ℕ) : ZMod m.toNat) *
        (((2 ^ 32) ^ m.value.length : ℕ) : ZMod m.toNat)⁻¹).val
  fromMontgomeryForm_toMontgomeryForm : ∀ x : SecureBigUint,
    x.value.length = m.value.length → x.toNat < m.toNat →
      (mm.toMontgomeryForm x >>= mm.fromMontgomeryForm) = some x
  pow_eq : ∀ a b : SecureBigUint, a.value.length = m.value.length → a.toNat < m.toNat →
    ∃ r, (mm.toMontgomeryForm a >>= fun aM => mm.pow aM b) = some r ∧
      r.value.length = m.value.length ∧
      r.toNat = a.toNat ^ b.toNat * (2 ^ 32) ^ m.value.length % m.toNat
  modulo_pow_eq : ∀ a b : SecureBigUint, a.value.length = m.value.length →
    a.toNat < m.toNat → ∃ r, (⟨m⟩ : SecureModulo).pow a b = some r ∧
      r.value.length = m.value.length ∧ r.toNat = a.toNat ^ b.toNat % m.toNat

/-- For an odd modulus above 1, `new` succeeds and all of its arithmetic is exact. -/
theorem montgomery_exact (m : SecureBigUint) (hodd : m.toNat % 2 = 1) (h1 : 1 < m.toNat) :
    ∃ mm, new m = some mm ∧ mm.Exact m := by
  obtain ⟨mm, hnew, rfl, hv⟩ := new_spec hodd
  have hpos : 0 < mm.modulus.toNat := by omega
  refine ⟨mm, hnew, ⟨?_, ?_, ?_, ?_, ?_⟩⟩
  · intro x hx hlt
    exact mm.toMontgomeryForm_spec hv hx hlt
  · intro x y hx hy _ hyM
    obtain ⟨r, hr, hlen, hlt, hmod⟩ := mm.montgomeryMul_spec hv hx
      (List.ne_nil_of_length_pos (by have := hv.length_pos; omega)) (by omega) hyM.le
    have hcop := (ZMod.isUnit_iff_coprime _ _).mp hv.isUnit_radix
    exact ⟨r, hr, hlen, (val_mul_inv_eq hcop hlt hmod).symm⟩
  · intro x hx hlt
    exact mm.fromMontgomeryForm_toMontgomeryForm hv hx hlt
  · intro a b ha hlt
    obtain ⟨aM, haM, haMf⟩ := mm.toMontgomeryForm_isForm hv ha hlt
    obtain ⟨r, hr, hrf⟩ := mm.pow_isForm hv h1 haMf b
    refine ⟨r, by rw [haM, Option.bind_eq_bind, Option.bind_some, hr], hrf.length_eq, ?_⟩
    rw [← Nat.cast_pow] at hrf
    exact hrf.toNat_eq hpos
  · intro a b ha hlt
    exact SecureModulo.pow_eq_pow_mod hodd h1 ha hlt b

theorem montgomery_exact_seven : (⟨[7]⟩ : SecureBigUint).toNat % 2 = 1 ∧
    1 < (⟨[7]⟩ : SecureBigUint).toNat ∧ ∃ mm, new ⟨[7]⟩ = some mm ∧ mm.Exact ⟨[7]⟩ :=
  ⟨by decide, by decide, montgomery_exact ⟨[7]⟩ (by decide) (by decide)⟩

/-- At `m = 1` exactness fails: the Montgomery form of 1 stays 1, not `1 mod 1 = 0`, and `pow`
with a zero exponent returns it. -/
theorem not_exact_mod_one : ¬ ∃ mm, new ⟨[1]⟩ = some mm ∧ mm.Exact ⟨[1]⟩ := by
  rintro ⟨mm, hnew, hex⟩
  obtain ⟨r, hr, -, hval⟩ := hex.pow_eq ⟨[0]⟩ ⟨[0]⟩ rfl (by decide)
  have hmm : mm = ⟨⟨[1]⟩, 33, 0xFFFFFFFF⟩ := by
    have h : new ⟨[1]⟩ = some ⟨⟨[1]⟩, 33, 0xFFFFFFFF⟩ := by decide +kernel
    exact Option.some_injective _ (hnew.symm.trans h)
  subst hmm
  have hrun : ((⟨⟨[1]⟩, 33, 0xFFFFFFFF⟩ : SecureMontgomeryModulo).toMontgomeryForm ⟨[0]⟩ >>=
      fun aM => (⟨⟨[1]⟩, 33, 0xFFFFFFFF⟩ : SecureMontgomeryModulo).pow aM ⟨[0]⟩) = some ⟨[1]⟩ := by
    decide +kernel
  rw [hrun, Option.some_inj] at hr
  subst hr
  exact absurd hval (by decide)

end SecureMontgomeryModulo

end Dacha.Math
