import Mathlib
import Dacha.Common.Sizes

/-!
# `SecureBigUint` (`math/src/big/secure/uint.rs`)

| here | there |
| --- | --- |
| `SecureBigUint`, `limbsVal`, `toNat`, `bitWidth`, `fromUsize` | `:55-74`, `bit_width` (`:301-303`) |
| `bit`, `setBit`, `valueBits`, `leadingZeros` | `:241-252`, `:288-299` |
| `addToLoop`, `addTo`, `add` | `Integer::add`, `add_to` (`:146-175`) |
| `subLoop`, `overflowingSubAssign`, `overflowingSubTo`, `subAssign` | `:445-487`, `sub_assign` (`:199-201`) |
| `mulToInner`, `mulToOuter`, `mulTo`, `mul`, `carryLoop`, `addMulTo` | `Integer::mul`, `mul_to` (`:203-239`), `add_mul_to` (`:313-333`) |
| `quoremLoop`, `quorem` | `quorem` (`:263-286`) |
| `copyIf`, `truncate`, `reduceOnce`, `isZero` | `:340-351`, `:412-421`, `:493-498`, `:432-440` |
| `shlLoop`, `shl`, `shrLoop`, `shr`, `shrBase` | `:500-521`, `:549-556` |
| `extend`, `xorAssignIf` | `:660-664`, `:395-404` |
| `clmul`, `carrylessMulToPclmul`, `carrylessMulToGeneric`, `carrylessMulTo` | `:575-624` |
| `cmp` | `Ord::cmp` (`:693-728`) |

A value is a buffer of 32-bit limbs, least significant first; its width is the buffer's
length, which the operation that made it fixes and which no later operation changes except
`truncate`. `limbsVal` reads the limbs as a number in base `2^32` (Mathlib's `Nat.ofDigits`).

A panic is `none`: the `assert!`s and `assert_eq!`s, an index past a buffer, and the empty
buffer of `from_usize` with a width of 0. The `u64` sums and products of the limb loops never
overflow, and are computed in `Nat`; the `i64` borrow of a subtraction is an `Int`.

Each operation has one spec lemma that gives its result's width and value and, where it can
panic, the condition under which it does not; the modular arithmetic above cites only these.
-/

namespace Dacha.Math

open Dacha.Common

/-! ## Little-endian digit lists

What a word-by-word loop needs of Mathlib's `Nat.ofDigits`: the value after one word is
overwritten, the split into a low and a high part, and when the value is zero. -/

section Digits

variable {b : Nat}

/-- The low `n` digits and the rest, weighted by `b ^ n`, make up the whole value (the rest is
empty when `n` is past the end). -/
theorem ofDigits_take_add_drop (l : List Nat) (n : Nat) :
    Nat.ofDigits b (l.take n) + b ^ n * Nat.ofDigits b (l.drop n) = Nat.ofDigits b l := by
  rcases Nat.le_total n l.length with hn | hn
  · conv_rhs => rw [← List.take_append_drop n l]
    rw [Nat.ofDigits_append, List.length_take_of_le hn]
  · simp [List.take_of_length_le hn, List.drop_of_length_le hn]

theorem ofDigits_set (l : List Nat) {p : Nat} (hp : p < l.length) (v : Nat) :
    Nat.ofDigits b (l.set p v) + b ^ p * l[p] = Nat.ofDigits b l + b ^ p * v := by
  induction l generalizing p with
  | nil => simp at hp
  | cons x xs ih =>
    cases p with
    | zero =>
      simp only [List.set_cons_zero, Nat.ofDigits_cons, pow_zero, one_mul,
        List.getElem_cons_zero]
      omega
    | succ p =>
      have hp' : p < xs.length := by simpa using hp
      have hscaled : b * (Nat.ofDigits b (xs.set p v) + b ^ p * xs[p]) =
          b * (Nat.ofDigits b xs + b ^ p * v) := by rw [ih hp']
      simp only [List.set_cons_succ, Nat.ofDigits_cons, List.getElem_cons_succ, pow_succ]
      nlinarith

theorem ofDigits_eq_zero_iff (hb : 0 < b) {l : List Nat} :
    Nat.ofDigits b l = 0 ↔ ∀ x ∈ l, x = 0 := by
  induction l with
  | nil => simp
  | cons x xs ih =>
    simp only [Nat.ofDigits_cons, List.mem_cons, forall_eq_or_imp, ← ih]
    constructor
    · intro h
      have hmul : b * Nat.ofDigits b xs = 0 := by omega
      exact ⟨by omega, (Nat.mul_eq_zero.mp hmul).resolve_left (by omega)⟩
    · rintro ⟨rfl, h⟩
      simp [h]

end Digits

/-- `SecureBigUint`: 32-bit limbs, least significant first. -/
structure SecureBigUint where
  value : List UInt32
  deriving DecidableEq, Repr

namespace SecureBigUint

def BASE_BITS : Nat := 32

/-- The number a limb buffer stands for. -/
def limbsVal (l : List UInt32) : Nat := Nat.ofDigits (2 ^ 32) (l.map UInt32.toNat)

/-- The number the limbs of `a` stand for. -/
def toNat (a : SecureBigUint) : Nat := limbsVal a.value

def bitWidth (a : SecureBigUint) : Nat := a.value.length * BASE_BITS

/-- `from_usize`: `ceil_div(width, 32)` limbs holding `value` truncated to a limb. -/
def fromUsize (value width : Nat) : Option SecureBigUint :=
  match ceilDiv width BASE_BITS with
  | 0 => none
  | n + 1 => some ⟨UInt32.ofNat value :: List.replicate n 0⟩

def bit (a : SecureBigUint) (i : Nat) : Option Nat :=
  a.value[i / BASE_BITS]?.map fun v => ((v >>> UInt32.ofNat (i % BASE_BITS)) &&& 1).toNat

def setBit (a : SecureBigUint) (i v : Nat) : Option SecureBigUint := do
  if !(v = 0 ∨ v = 1) then none
  let ii := i / BASE_BITS
  let shift := UInt32.ofNat (i % BASE_BITS)
  let mask := ~~~((1 : UInt32) <<< shift)
  let old ← a.value[ii]?
  pure ⟨a.value.set ii ((old &&& mask) ||| (UInt32.ofNat v <<< shift))⟩

def leadingZeros (v : UInt32) : Nat :=
  ((List.range 32).reverse.takeWhile fun i => !v.toNat.testBit i).length

/-- `value_bits`: from the top limb down, the first that is not zero gives the bit length. -/
def valueBits (a : SecureBigUint) : Nat :=
  match (List.range a.value.length).reverse.find?
      (fun i => leadingZeros (a.value.getD i 0) ≠ BASE_BITS) with
  | some i => i * BASE_BITS + (BASE_BITS - leadingZeros (a.value.getD i 0))
  | none => 0

def isZero (a : SecureBigUint) : Bool := a.value.all (· == 0)

/-! ## Addition and subtraction -/

/-- The loop of `add_to` over the output's `n` limbs, a missing limb of an operand read as 0. -/
def addToLoop : Nat → List UInt32 → List UInt32 → Nat → List UInt32 × Nat
  | 0, _, _, carry => ([], carry)
  | n + 1, xs, ys, carry =>
    let v := (xs.headD 0).toNat + (ys.headD 0).toNat + carry
    let rest := addToLoop n xs.tail ys.tail (v / 2 ^ 32)
    (UInt32.ofNat v :: rest.1, rest.2)

/-- `add_to`: the output is at least as wide as both operands, and the last carry is 0. -/
def addTo (a b output : SecureBigUint) : Option SecureBigUint :=
  if output.value.length < a.value.length ∨ output.value.length < b.value.length then none
  else
    let r := addToLoop output.value.length a.value b.value 0
    if r.2 ≠ 0 then none else some ⟨r.1⟩

/-- `Integer::add`: the sum in a buffer one bit wider than the wider operand. -/
def add (a b : SecureBigUint) : Option SecureBigUint := do
  let out ← fromUsize 0 (max a.bitWidth b.bitWidth + 1)
  addTo a b out

/-- The borrow loop of `overflowing_sub_assign` and `overflowing_sub_to` over `n` limbs, a
missing limb read as 0. -/
def subLoop : Nat → List UInt32 → List UInt32 → Int → List UInt32 × Int
  | 0, _, _, carry => ([], carry)
  | n + 1, xs, ys, carry =>
    let v : Int := ((xs.headD 0).toNat : Int) - (ys.headD 0).toNat + carry
    let limb := if v < 0 then UInt32.ofNat (v + 2 ^ 32).toNat else UInt32.ofNat v.toNat
    let rest := subLoop n xs.tail ys.tail (if v < 0 then -1 else 0)
    (limb :: rest.1, rest.2)

/-- `overflowing_sub_assign`: `a - rhs` over `a`'s limbs, and whether it borrowed. -/
def overflowingSubAssign (a rhs : SecureBigUint) : SecureBigUint × Bool :=
  let r := subLoop a.value.length a.value rhs.value 0
  (⟨r.1⟩, r.2 ≠ 0)

/-- `overflowing_sub_to`: `a - rhs` over `out`'s limbs, and whether it borrowed. -/
def overflowingSubTo (a rhs out : SecureBigUint) : SecureBigUint × Bool :=
  let r := subLoop out.value.length a.value rhs.value 0
  (⟨r.1⟩, r.2 ≠ 0)

/-- `sub_assign`, and `Integer::sub` and `sub_into`, which call it: no borrow allowed. -/
def subAssign (a rhs : SecureBigUint) : Option SecureBigUint :=
  let r := overflowingSubAssign a rhs
  if r.2 then none else some r.1

/-! ## Multiplication -/

/-- The inner loop of `mul_to` for the limb `x` at `i`: `out[i + j] += x * y_j`, carried. -/
def mulToInner (x : UInt32) (i : Nat) :
    List UInt32 → Nat → List UInt32 → Nat → Option (List UInt32 × Nat)
  | [], _, out, carry => some (out, carry)
  | y :: ys, j, out, carry => do
    let o ← out[i + j]?
    let tmp := x.toNat * y.toNat + o.toNat + carry
    mulToInner x i ys (j + 1) (out.set (i + j) (UInt32.ofNat tmp)) (tmp / 2 ^ 32)

/-- The outer loop of `mul_to`: the last carry of each row goes in the next limb, or marks an
overflow past the output. -/
def mulToOuter (ys : List UInt32) :
    List UInt32 → Nat → List UInt32 → Bool → Option (List UInt32 × Bool)
  | [], _, out, overflowed => some (out, overflowed)
  | x :: xs, i, out, overflowed => do
    let row ← mulToInner x i ys 0 out 0
    if i + ys.length < row.1.length then
      mulToOuter ys xs (i + 1) (row.1.set (i + ys.length) (UInt32.ofNat row.2)) overflowed
    else mulToOuter ys xs (i + 1) row.1 (overflowed || row.2 ≠ 0)

/-- `mul_to`: the output is zeroed first, and must hold the whole product. -/
def mulTo (a rhs out : SecureBigUint) : Option SecureBigUint := do
  let r ← mulToOuter rhs.value a.value 0 (out.value.map fun _ => 0) false
  if r.2 then none else some ⟨r.1⟩

/-- `Integer::mul`: the product in a buffer as wide as both operands together. -/
def mul (a rhs : SecureBigUint) : Option SecureBigUint := do
  let out ← fromUsize 0 (a.bitWidth + rhs.bitWidth)
  mulTo a rhs out

/-- The carry loop of `add_mul_to` after one row: `out[k] += carry` for `k` in the given
positions, the carry out of the last one dropped. -/
def carryLoop (positions : List Nat) (out : List UInt32) (carry : Nat) : List UInt32 × Nat :=
  positions.foldl (fun st k =>
    let tmp := (st.1.getD k 0).toNat + st.2
    (st.1.set k (UInt32.ofNat tmp), tmp / 2 ^ 32)) (out, carry)

/-- One row of `add_mul_to`: `out += a[i] * rhs` at limb `i` by the inner loop of `mul_to`,
then the row's carry added into every limb above it. -/
def addMulRow (a rhs : SecureBigUint) (out : List UInt32) (i : Nat) : Option (List UInt32) := do
  let row ← mulToInner (a.value.getD i 0) i rhs.value 0 out 0
  let top := i + rhs.value.length
  pure (carryLoop (List.range' top (row.1.length - top)) row.1 row.2).1

/-- `add_mul_to`: `out += a * rhs` within `out`'s width, one row per limb of `a`. -/
def addMulTo (a rhs out : SecureBigUint) : Option SecureBigUint := do
  let r ← (List.range a.value.length).foldlM (addMulRow a rhs) out.value
  pure ⟨r⟩

/-! ## Shifts, selection and reduction -/

/-- The loop of `shl`, from the low limb up. -/
def shlLoop : List UInt32 → UInt32 → List UInt32 × UInt32
  | [], carry => ([], carry)
  | v :: vs, carry =>
    let rest := shlLoop vs (v >>> 31)
    (((v <<< 1) ||| carry) :: rest.1, rest.2)

/-- `shl`: the value doubled within its width, and the bit shifted out. -/
def shl (a : SecureBigUint) : SecureBigUint × UInt32 :=
  let r := shlLoop a.value 0
  (⟨r.1⟩, r.2)

/-- The loop of `shr`, from the top limb down. -/
def shrLoop : List UInt32 → UInt32 → List UInt32
  | [], _ => []
  | v :: vs, carry => ((v >>> 1) ||| (carry <<< 31)) :: shrLoop vs (v &&& 1)

def shr (a : SecureBigUint) : SecureBigUint := ⟨(shrLoop a.value.reverse 0).reverse⟩

/-- `shr_base`: `a >>= 32`, asserting that the low limb is zero. -/
def shrBase (a : SecureBigUint) : Option SecureBigUint :=
  match a.value with
  | [] => none
  | v :: vs => if v ≠ 0 then none else some ⟨vs ++ [0]⟩

/-- `copy_if`: `out` becomes `a` when `shouldCopy`, through masks rather than a branch. -/
def copyIf (a : SecureBigUint) (shouldCopy : Bool) (out : SecureBigUint) :
    Option SecureBigUint :=
  if a.value.length ≠ out.value.length then none
  else
    let selfMask := ~~~(if shouldCopy then (1 : UInt32) else 0) + 1
    let outMask := ~~~selfMask
    some ⟨List.zipWith (fun s o => (s &&& selfMask) + (o &&& outMask)) a.value out.value⟩

/-- `truncate`: the limbs past `bitWidth` must be zero, and are dropped. -/
def truncate (a : SecureBigUint) (bitWidth : Nat) : Option SecureBigUint :=
  let n := ceilDiv bitWidth BASE_BITS
  if (a.value.drop n).all (· == 0) then some ⟨a.value.take n⟩ else none

/-- `reduce_once`: subtract the modulus when that does not borrow, then cut to its width. -/
def reduceOnce (a modulus : SecureBigUint) : Option SecureBigUint := do
  let reduced ← fromUsize 0 a.bitWidth
  let sub := overflowingSubTo a modulus reduced
  let a ← copyIf sub.1 (!sub.2) a
  truncate a modulus.bitWidth

/-! ## Carry-less multiplication -/

/-- `extend`: zero limbs up to `ceil_div(bit_width, 32)`; the buffer may not shrink. -/
def extend (a : SecureBigUint) (bitWidth : Nat) : Option SecureBigUint :=
  let newLen := ceilDiv bitWidth BASE_BITS
  if newLen < a.value.length then none
  else some ⟨a.value ++ List.replicate (newLen - a.value.length) 0⟩

/-- `xor_assign_if`: `a ^= rhs` through a mask, on buffers of one width. -/
def xorAssignIf (a : SecureBigUint) (shouldApply : Bool) (rhs : SecureBigUint) :
    Option SecureBigUint :=
  if a.value.length ≠ rhs.value.length then none
  else
    let mask := ~~~(if shouldApply then (1 : UInt32) else 0) + 1
    some ⟨List.zipWith (fun s r => s ^^^ (r &&& mask)) a.value rhs.value⟩

/-- `carryless_mul_to_generic`: `out ^= lhs` for each bit `i` of `rhs` below its
`value_bits`, where `lhs` starts as a copy of `a` and `shl` doubles it within `a`'s width. -/
def carrylessMulToGeneric (a rhs out : SecureBigUint) : Option SecureBigUint := do
  -- `self.bit_width() + rhs.bit_width() - 1` is a `usize` subtraction
  if a.bitWidth + rhs.bitWidth = 0 then none
  if out.bitWidth < a.bitWidth + rhs.bitWidth - 1 then none
  let zero : SecureBigUint := ⟨out.value.map fun _ => 0⟩
  let r ← (List.range rhs.valueBits).foldlM
    (fun (st : SecureBigUint × SecureBigUint) i => do
      let b ← rhs.bit i
      let out ← st.1.xorAssignIf (b == 1) st.2
      pure (out, st.2.shl.1)) (zero, a)
  pure r.1

/-- `_mm_clmulepi64_si128(a, b, 0)` on two limbs, low 64 bits: their carry-less product. -/
def clmul (x y : UInt32) : UInt64 :=
  (List.range 32).foldl
    (fun acc k => if (y >>> k.toUInt32) &&& 1 = 1 then acc ^^^ (x.toUInt64 <<< k.toUInt64)
      else acc) 0

/-- `carryless_mul_to` with `pclmulqdq`: the product of limbs `i` and `j` is XORed into
`out[i + j]` and `out[i + j + 1]`. -/
def carrylessMulToPclmul (a rhs out : SecureBigUint) : Option SecureBigUint := do
  if a.bitWidth + rhs.bitWidth = 0 then none
  if out.bitWidth < a.bitWidth + rhs.bitWidth - 1 then none
  let r ← (List.range a.value.length).foldlM (fun out i =>
      (List.range rhs.value.length).foldlM (fun out j => do
        let r := clmul (a.value.getD i 0) (rhs.value.getD j 0)
        let lo ← out[i + j]?
        let out := out.set (i + j) (lo ^^^ r.toUInt32)
        let hi ← out[i + j + 1]?
        pure (out.set (i + j + 1) (hi ^^^ (r >>> 32).toUInt32))) out)
    (out.value.map fun _ => 0)
  pure ⟨r⟩

/-- `carryless_mul_to`: the `#[cfg]` picks the `pclmulqdq` loop on `x86_64` when the target
has the feature, and the generic one otherwise. -/
def carrylessMulTo (pclmulqdq : Bool) (a rhs out : SecureBigUint) : Option SecureBigUint :=
  if pclmulqdq then carrylessMulToPclmul a rhs out else carrylessMulToGeneric a rhs out

/-! ## Division and comparison -/

/-- The loop of `quorem`, over the bits of `a` from the top. -/
def quoremLoop (a rhs : SecureBigUint) :
    List Nat → SecureBigUint → SecureBigUint → Option (SecureBigUint × SecureBigUint)
  | [], q, r => some (q, r)
  | i :: is, q, r => do
    let shifted := r.shl
    let b ← a.bit i
    let r ← shifted.1.setBit 0 b
    let nextR ← fromUsize 0 rhs.bitWidth
    let sub := overflowingSubTo r rhs nextR
    let subtract := (shifted.2 ≠ 0) == sub.2
    let r ← copyIf sub.1 subtract r
    let q ← q.setBit i (if subtract then 1 else 0)
    quoremLoop a rhs is q r

/-- `quorem`: binary long division, the quotient as wide as `a` and the remainder as `rhs`. -/
def quorem (a rhs : SecureBigUint) : Option (SecureBigUint × SecureBigUint) := do
  let q ← fromUsize 0 a.bitWidth
  let r ← fromUsize 0 rhs.bitWidth
  quoremLoop a rhs (List.range a.bitWidth).reverse q r

/-- `Ord::cmp`: from the top limb down, the first limb that differs decides, with missing limbs
read as 0. -/
def cmp (a b : SecureBigUint) : Ordering :=
  let step (acc : Bool × Bool) (i : Nat) : Bool × Bool :=
    let undecided := !(acc.1 || acc.2)
    let x := a.value.getD i 0
    let y := b.value.getD i 0
    if x < y then (acc.1 || undecided, acc.2)
    else if y < x then (acc.1, acc.2 || undecided) else acc
  match (List.range (max a.value.length b.value.length)).reverse.foldl step (false, false) with
  | (true, false) => .lt
  | (false, true) => .gt
  | _ => .eq

/-! ## Values of limb buffers -/

@[simp] theorem limbsVal_nil : limbsVal [] = 0 := rfl

@[simp] theorem limbsVal_cons (x : UInt32) (xs : List UInt32) :
    limbsVal (x :: xs) = x.toNat + 2 ^ 32 * limbsVal xs := by
  simp [limbsVal, Nat.ofDigits_cons]

theorem limbsVal_append (xs ys : List UInt32) :
    limbsVal (xs ++ ys) = limbsVal xs + (2 ^ 32) ^ xs.length * limbsVal ys := by
  simp [limbsVal, Nat.ofDigits_append]

theorem limbsVal_lt (l : List UInt32) : limbsVal l < (2 ^ 32) ^ l.length := by
  have hdigits : ∀ x ∈ l.map UInt32.toNat, x < 2 ^ 32 := by
    simp only [List.mem_map]
    rintro _ ⟨v, -, rfl⟩
    exact v.toNat_lt
  simpa [limbsVal] using Nat.ofDigits_lt_base_pow_length (by norm_num) hdigits

theorem limbsVal_take_add_drop (l : List UInt32) (n : Nat) :
    limbsVal (l.take n) + (2 ^ 32) ^ n * limbsVal (l.drop n) = limbsVal l := by
  simp only [limbsVal, List.map_take, List.map_drop]
  exact ofDigits_take_add_drop _ n

theorem limbsVal_take_succ (xs : List UInt32) (n : Nat) :
    limbsVal (xs.take (n + 1)) = (xs.headD 0).toNat + 2 ^ 32 * limbsVal (xs.tail.take n) := by
  cases xs <;> simp

theorem limbsVal_take_add_one (l : List UInt32) {n : Nat} (hn : n < l.length) :
    limbsVal (l.take (n + 1)) = limbsVal (l.take n) + (2 ^ 32) ^ n * l[n].toNat := by
  rw [List.take_succ_eq_append_getElem hn, limbsVal_append, List.length_take_of_le hn.le]
  simp

theorem limbsVal_set (l : List UInt32) {p : Nat} (hp : p < l.length) (v : UInt32) :
    limbsVal (l.set p v) + (2 ^ 32) ^ p * l[p].toNat = limbsVal l + (2 ^ 32) ^ p * v.toNat := by
  have h := @ofDigits_set (2 ^ 32) (l.map UInt32.toNat) p (by simpa using hp) v.toNat
  simpa [limbsVal, List.map_set] using h

theorem limbsVal_eq_zero_iff {l : List UInt32} : limbsVal l = 0 ↔ ∀ x ∈ l, x = 0 := by
  rw [limbsVal, ofDigits_eq_zero_iff (by norm_num)]
  simp [← UInt32.toNat_inj]

@[simp] theorem limbsVal_replicate_zero (n : Nat) : limbsVal (List.replicate n 0) = 0 :=
  limbsVal_eq_zero_iff.mpr fun _ hx => (List.mem_replicate.mp hx).2

theorem limbsVal_take_of_lt {l : List UInt32} {n : Nat} (h : limbsVal l < (2 ^ 32) ^ n) :
    limbsVal (l.take n) = limbsVal l := by
  have hsplit := limbsVal_take_add_drop l n
  have hdrop : limbsVal (l.drop n) = 0 := by
    by_contra hne
    have : (2 ^ 32) ^ n ≤ (2 ^ 32) ^ n * limbsVal (l.drop n) :=
      Nat.le_mul_of_pos_right _ (Nat.pos_of_ne_zero hne)
    omega
  rw [hdrop, Nat.mul_zero, Nat.add_zero] at hsplit
  exact hsplit

@[simp] theorem toNat_mk (l : List UInt32) : (⟨l⟩ : SecureBigUint).toNat = limbsVal l := rfl

theorem toNat_lt (a : SecureBigUint) : a.toNat < (2 ^ 32) ^ a.value.length := limbsVal_lt _

@[simp] theorem ceilDiv_bitWidth (a : SecureBigUint) :
    ceilDiv a.bitWidth BASE_BITS = a.value.length :=
  ceilDiv_mul (by decide) _

/-! ## Spec lemmas -/

theorem fromUsize_zero {w : Nat} (h : 0 < ceilDiv w BASE_BITS) :
    fromUsize 0 w = some ⟨List.replicate (ceilDiv w BASE_BITS) 0⟩ := by
  obtain ⟨n, hn⟩ : ∃ n, ceilDiv w BASE_BITS = n + 1 := ⟨_, (Nat.succ_pred_eq_of_pos h).symm⟩
  simp [fromUsize, hn, List.replicate_succ]

/-- `from_usize` of a value below a limb's bound, with a width of at least one limb. -/
theorem fromUsize_spec {v w : Nat} (hv : v < 2 ^ 32) (h : 0 < ceilDiv w BASE_BITS) :
    ∃ o, fromUsize v w = some o ∧ o.value.length = ceilDiv w BASE_BITS ∧ o.toNat = v := by
  obtain ⟨n, hn⟩ : ∃ n, ceilDiv w BASE_BITS = n + 1 := ⟨_, (Nat.succ_pred_eq_of_pos h).symm⟩
  refine ⟨⟨UInt32.ofNat v :: List.replicate n 0⟩, by simp [fromUsize, hn], by simp [hn], ?_⟩
  rw [toNat_mk, limbsVal_cons, limbsVal_replicate_zero, UInt32.toNat_ofNat', Nat.mod_eq_of_lt hv,
    Nat.mul_zero, Nat.add_zero]

theorem eq_of_toNat_eq {a b : SecureBigUint} (hlen : a.value.length = b.value.length)
    (h : a.toNat = b.toNat) : a = b := by
  obtain ⟨la⟩ := a
  obtain ⟨lb⟩ := b
  have hdigits : ∀ l : List UInt32, ∀ d ∈ l.map UInt32.toNat, d < 2 ^ 32 := by
    intro l d hd
    obtain ⟨v, -, rfl⟩ := List.mem_map.mp hd
    exact v.toNat_lt
  have hmap : la.map UInt32.toNat = lb.map UInt32.toNat :=
    Nat.ofDigits_inj_of_len_eq (by norm_num) (by simpa using hlen) (hdigits la) (hdigits lb) h
  rw [List.map_injective_iff.mpr (fun _ _ => UInt32.toNat_inj.mp) hmap]

theorem length_addToLoop (n : Nat) (xs ys : List UInt32) (carry : Nat) :
    (addToLoop n xs ys carry).1.length = n := by
  induction n generalizing xs ys carry with
  | zero => rfl
  | succ n ih => simp [addToLoop, ih]

/-- The carry chain of `add_to`: the output limbs and the last carry make up the sum. -/
theorem addToLoop_val (n : Nat) (xs ys : List UInt32) (carry : Nat) :
    limbsVal (addToLoop n xs ys carry).1 + (2 ^ 32) ^ n * (addToLoop n xs ys carry).2 =
      limbsVal (xs.take n) + limbsVal (ys.take n) + carry := by
  induction n generalizing xs ys carry with
  | zero => simp [addToLoop]
  | succ n ih =>
    have hrest := ih xs.tail ys.tail (((xs.headD 0).toNat + (ys.headD 0).toNat + carry) / 2 ^ 32)
    have hdiv := Nat.mod_add_div ((xs.headD 0).toNat + (ys.headD 0).toNat + carry) (2 ^ 32)
    simp only [addToLoop, limbsVal_cons, UInt32.toNat_ofNat', limbsVal_take_succ,
      pow_succ (2 ^ 32 : Nat) n]
    nlinarith

/-- `add_to` does not panic when the output holds both operands and their sum. -/
theorem addTo_spec (a b out : SecureBigUint) (ha : a.value.length ≤ out.value.length)
    (hb : b.value.length ≤ out.value.length)
    (hfit : a.toNat + b.toNat < (2 ^ 32) ^ out.value.length) :
    ∃ r, addTo a b out = some r ∧ r.value.length = out.value.length ∧
      r.toNat = a.toNat + b.toNat := by
  have hval := addToLoop_val out.value.length a.value b.value 0
  have hlt := limbsVal_lt (addToLoop out.value.length a.value b.value 0).1
  rw [List.take_of_length_le ha, List.take_of_length_le hb] at hval
  rw [length_addToLoop] at hlt
  have hcarry : (addToLoop out.value.length a.value b.value 0).2 = 0 := by
    by_contra hne
    have : (2 ^ 32) ^ out.value.length ≤
        (2 ^ 32) ^ out.value.length * (addToLoop out.value.length a.value b.value 0).2 :=
      Nat.le_mul_of_pos_right _ (Nat.pos_of_ne_zero hne)
    simp only [toNat] at hfit
    omega
  refine ⟨⟨(addToLoop out.value.length a.value b.value 0).1⟩, ?_, length_addToLoop _ _ _ _, ?_⟩
  · simp [addTo, hcarry, Nat.not_lt.mpr ha, Nat.not_lt.mpr hb]
  · simp only [toNat]
    rw [hcarry, Nat.mul_zero, Nat.add_zero, Nat.add_zero] at hval
    exact hval

/-- `Integer::add` never panics: its output has a limb more than the wider operand. -/
theorem add_spec (a b : SecureBigUint) :
    ∃ r, add a b = some r ∧ r.value.length = max a.value.length b.value.length + 1 ∧
      r.toNat = a.toNat + b.toNat := by
  have hwidth : max a.bitWidth b.bitWidth + 1 =
      (max a.value.length b.value.length) * BASE_BITS + 1 := by
    simp [bitWidth, Nat.mul_max_mul_right]
  have hlimbs : ceilDiv (max a.bitWidth b.bitWidth + 1) BASE_BITS =
      max a.value.length b.value.length + 1 := by
    rw [hwidth]; exact ceilDiv_mul_add_one (by decide) _
  have hfit : a.toNat + b.toNat < (2 ^ 32) ^ (max a.value.length b.value.length + 1) := by
    have ha := a.toNat_lt
    have hb := b.toNat_lt
    have hma : (2 ^ 32) ^ a.value.length ≤ (2 ^ 32) ^ max a.value.length b.value.length :=
      Nat.pow_le_pow_right (by norm_num) (le_max_left _ _)
    have hmb : (2 ^ 32) ^ b.value.length ≤ (2 ^ 32) ^ max a.value.length b.value.length :=
      Nat.pow_le_pow_right (by norm_num) (le_max_right _ _)
    rw [pow_succ]
    omega
  obtain ⟨r, hr, hlen, hval⟩ :=
    addTo_spec a b ⟨List.replicate (max a.value.length b.value.length + 1) 0⟩
      (by simp; omega) (by simp; omega) (by simpa using hfit)
  have hfrom : fromUsize 0 (max a.bitWidth b.bitWidth + 1) =
      some ⟨List.replicate (max a.value.length b.value.length + 1) 0⟩ := by
    rw [fromUsize_zero (by omega), hlimbs]
  refine ⟨r, ?_, by simpa using hlen, hval⟩
  simp [add, hfrom, hr]

theorem toNat_ofNat_toNat {v : Int} (h0 : 0 ≤ v) (h : v < 2 ^ 32) :
    ((UInt32.ofNat v.toNat).toNat : Int) = v := by
  rw [UInt32.toNat_ofNat', Nat.mod_eq_of_lt (by omega), Int.toNat_of_nonneg h0]

theorem length_subLoop (n : Nat) (xs ys : List UInt32) (carry : Int) :
    (subLoop n xs ys carry).1.length = n := by
  induction n generalizing xs ys carry with
  | zero => rfl
  | succ n ih => simp [subLoop, ih]

theorem subLoop_borrow (n : Nat) (xs ys : List UInt32) (carry : Int)
    (hc : carry = 0 ∨ carry = -1) :
    (subLoop n xs ys carry).2 = 0 ∨ (subLoop n xs ys carry).2 = -1 := by
  induction n generalizing xs ys carry with
  | zero => exact hc
  | succ n ih =>
    simp only [subLoop]
    split_ifs
    · exact ih _ _ _ (Or.inr rfl)
    · exact ih _ _ _ (Or.inl rfl)

/-- The borrow chain of `overflowing_sub_to`: the output limbs, less the last borrow at the
weight of the width, make up the difference. -/
theorem subLoop_val (n : Nat) (xs ys : List UInt32) (carry : Int)
    (hc : carry = 0 ∨ carry = -1) :
    (limbsVal (subLoop n xs ys carry).1 : Int) + (2 ^ 32) ^ n * (subLoop n xs ys carry).2 =
      limbsVal (xs.take n) - limbsVal (ys.take n) + carry := by
  induction n generalizing xs ys carry with
  | zero => simp [subLoop]
  | succ n ih =>
    have hx := (xs.headD 0).toNat_lt
    have hy := (ys.headD 0).toNat_lt
    simp only [subLoop, limbsVal_cons, limbsVal_take_succ, pow_succ ((2 : Int) ^ 32) n]
    push_cast
    split_ifs with hv
    · -- a borrow: the limb is `v + 2^32` and the rest starts from -1
      have hrest := ih xs.tail ys.tail (-1) (Or.inr rfl)
      rw [toNat_ofNat_toNat (by omega) (by omega)]
      linear_combination (2 ^ 32 : Int) * hrest
    · have hrest := ih xs.tail ys.tail 0 (Or.inl rfl)
      rw [toNat_ofNat_toNat (by omega) (by omega)]
      linear_combination (2 ^ 32 : Int) * hrest

/-- From 0, the chain borrows exactly when the subtrahend's low `n` limbs exceed the minuend's,
and the output is the difference, wrapped by `2 ^ (32 * n)` after a borrow. -/
theorem subLoop_spec (n : Nat) (xs ys : List UInt32) :
    ((subLoop n xs ys 0).2 ≠ 0 ↔ limbsVal (xs.take n) < limbsVal (ys.take n)) ∧
      limbsVal (subLoop n xs ys 0).1 + limbsVal (ys.take n) =
        limbsVal (xs.take n) + if (subLoop n xs ys 0).2 ≠ 0 then (2 ^ 32) ^ n else 0 := by
  have hval := subLoop_val n xs ys 0 (Or.inl rfl)
  have hlt := limbsVal_lt (subLoop n xs ys 0).1
  rw [length_subLoop] at hlt
  have hpow : ((2 ^ 32) ^ n : Nat) = ((2 : Int) ^ 32) ^ n := by push_cast; rfl
  rcases subLoop_borrow n xs ys 0 (Or.inl rfl) with hb | hb
  · rw [hb] at hval ⊢
    simp only [ne_eq, not_true_eq_false, false_iff, not_lt, if_false, Nat.add_zero]
    omega
  · rw [hb] at hval ⊢
    simp only [ne_eq, Int.reduceNeg, neg_eq_zero, one_ne_zero, not_false_eq_true, true_iff,
      if_true]
    omega

@[simp] theorem length_overflowingSubTo (a rhs out : SecureBigUint) :
    (overflowingSubTo a rhs out).1.value.length = out.value.length :=
  length_subLoop _ _ _ _

/-- `overflowing_sub_to` borrows exactly when `rhs` exceeds `a`, both cut to `out`'s width. -/
theorem overflowingSubTo_snd (a rhs out : SecureBigUint) :
    (overflowingSubTo a rhs out).2 = decide (limbsVal (a.value.take out.value.length) <
      limbsVal (rhs.value.take out.value.length)) := by
  simp [overflowingSubTo, (subLoop_spec _ _ _).1]

/-- `overflowing_sub_to` leaves the difference, wrapped by the width after a borrow. -/
theorem toNat_overflowingSubTo (a rhs out : SecureBigUint) :
    (overflowingSubTo a rhs out).1.toNat + limbsVal (rhs.value.take out.value.length) =
      limbsVal (a.value.take out.value.length) +
        if (overflowingSubTo a rhs out).2 then (2 ^ 32) ^ out.value.length else 0 := by
  simp only [overflowingSubTo, toNat, decide_eq_true_eq]
  exact (subLoop_spec _ _ _).2

/-- `sub_assign` does not panic when `rhs`, cut to `a`'s width, is at most `a`. -/
theorem subAssign_spec (a rhs : SecureBigUint)
    (h : limbsVal (rhs.value.take a.value.length) ≤ a.toNat) :
    ∃ r, subAssign a rhs = some r ∧ r.value.length = a.value.length ∧
      r.toNat = a.toNat - limbsVal (rhs.value.take a.value.length) := by
  have hspec := subLoop_spec a.value.length a.value rhs.value
  rw [List.take_length] at hspec
  have hnb : (subLoop a.value.length a.value rhs.value 0).2 = 0 := by
    by_contra hne
    exact absurd (hspec.1.mp hne) (Nat.not_lt.mpr h)
  refine ⟨⟨(subLoop a.value.length a.value rhs.value 0).1⟩, ?_, length_subLoop _ _ _ _, ?_⟩
  · simp [subAssign, overflowingSubAssign, hnb]
  · have hval := hspec.2
    simp only [hnb, ne_eq, not_true_eq_false, if_false, Nat.add_zero] at hval
    simp only [toNat]
    omega

/-- `copy_if`'s masks select the limbs of `a` or of `out` whole: a copy or nothing. -/
theorem copyIf_eq (a out : SecureBigUint) (shouldCopy : Bool)
    (h : a.value.length = out.value.length) :
    copyIf a shouldCopy out = some (if shouldCopy then a else out) := by
  have hmasks : ∀ l m : List UInt32, l.length = m.length →
      List.zipWith (fun s o => (s &&& (~~~(if shouldCopy then (1 : UInt32) else 0) + 1)) +
        (o &&& ~~~(~~~(if shouldCopy then (1 : UInt32) else 0) + 1))) l m =
        if shouldCopy then l else m := by
    intro l
    induction l with
    | nil =>
      intro m hm
      cases m with
      | nil => simp
      | cons y ys => simp at hm
    | cons x xs ih =>
      intro m hm
      cases m with
      | nil => simp at hm
      | cons y ys =>
        rw [List.zipWith_cons_cons, ih ys (by simpa using hm)]
        cases shouldCopy
        · rw [show ~~~(if false = true then (1 : UInt32) else 0) + 1 = 0 by decide]
          simp [UInt32.and_neg_one, show ~~~(0 : UInt32) = -1 by decide]
        · rw [show ~~~(if true = true then (1 : UInt32) else 0) + 1 = -1 by decide]
          simp [UInt32.and_neg_one, show ~~~(-1 : UInt32) = 0 by decide]
  obtain ⟨l⟩ := a
  obtain ⟨m⟩ := out
  simp only at h
  simp only [copyIf, h, ne_eq, not_true_eq_false, if_false, hmasks l m h]
  cases shouldCopy <;> rfl

theorem limbsVal_drop_eq_zero_iff (l : List UInt32) (n : Nat) :
    limbsVal (l.drop n) = 0 ↔ limbsVal l < (2 ^ 32) ^ n := by
  have hsplit := limbsVal_take_add_drop l n
  have htake : limbsVal (l.take n) < (2 ^ 32) ^ n :=
    (limbsVal_lt _).trans_le
      (Nat.pow_le_pow_right (by norm_num) (List.length_take_le n l))
  constructor
  · intro h
    rw [h, Nat.mul_zero, Nat.add_zero] at hsplit
    omega
  · intro h
    by_contra hne
    have : (2 ^ 32) ^ n ≤ (2 ^ 32) ^ n * limbsVal (l.drop n) :=
      Nat.le_mul_of_pos_right _ (Nat.pos_of_ne_zero hne)
    omega

/-- `truncate` drops the limbs past the width when the value fits in it, and panics
otherwise. -/
theorem truncate_eq (a : SecureBigUint) (w : Nat) :
    truncate a w = if a.toNat < (2 ^ 32) ^ ceilDiv w BASE_BITS
      then some ⟨a.value.take (ceilDiv w BASE_BITS)⟩ else none := by
  have hall : ((a.value.drop (ceilDiv w BASE_BITS)).all (· == 0) = true) ↔
      a.toNat < (2 ^ 32) ^ ceilDiv w BASE_BITS := by
    rw [toNat, ← limbsVal_drop_eq_zero_iff, limbsVal_eq_zero_iff]
    simp
  by_cases h : a.toNat < (2 ^ 32) ^ ceilDiv w BASE_BITS
  · rw [if_pos h]
    simp [truncate, hall.mpr h]
  · rw [if_neg h]
    simp only [truncate]
    rw [if_neg (mt hall.mp h)]

theorem truncate_bitWidth (a m : SecureBigUint) (hm : m.value.length ≤ a.value.length)
    (h : a.toNat < (2 ^ 32) ^ m.value.length) :
    ∃ r, truncate a m.bitWidth = some r ∧ r.value.length = m.value.length ∧
      r.toNat = a.toNat := by
  refine ⟨⟨a.value.take m.value.length⟩, ?_, by simp [hm], limbsVal_take_of_lt h⟩
  rw [truncate_eq, ceilDiv_bitWidth, if_pos h]

/-- `reduce_once` subtracts the modulus when it is at most `a`, and does not panic when what
is left fits in the modulus' width. -/
theorem reduceOnce_spec (a m : SecureBigUint) (ha : 0 < a.value.length)
    (hm : m.value.length ≤ a.value.length)
    (hfit : (if m.toNat ≤ a.toNat then a.toNat - m.toNat else a.toNat) <
      (2 ^ 32) ^ m.value.length) :
    ∃ r, reduceOnce a m = some r ∧ r.value.length = m.value.length ∧
      r.toNat = if m.toNat ≤ a.toNat then a.toNat - m.toNat else a.toNat := by
  set zero : SecureBigUint := ⟨List.replicate a.value.length 0⟩
  have hzero : fromUsize 0 a.bitWidth = some zero := by
    rw [fromUsize_zero (by simpa using ha), ceilDiv_bitWidth]
  have hlen : zero.value.length = a.value.length := by simp [zero]
  set sub := overflowingSubTo a m zero
  have hsublen : sub.1.value.length = a.value.length := by simp [sub, hlen]
  have hsnd : sub.2 = decide (a.toNat < m.toNat) := by
    have h := overflowingSubTo_snd a m zero
    rwa [hlen, List.take_length, List.take_of_length_le hm] at h
  have hval : sub.1.toNat + m.toNat =
      a.toNat + if sub.2 then (2 ^ 32) ^ a.value.length else 0 := by
    have h := toNat_overflowingSubTo a m zero
    rwa [hlen, List.take_length, List.take_of_length_le hm] at h
  have hrun : reduceOnce a m = copyIf sub.1 (!sub.2) a >>= fun a => truncate a m.bitWidth := by
    simp only [reduceOnce, hzero, Option.bind_eq_bind, Option.bind_some]
    rfl
  by_cases hle : m.toNat ≤ a.toNat
  · -- no borrow: the difference is selected
    have hnb : sub.2 = false := by rw [hsnd]; simpa using hle
    rw [hnb, if_neg Bool.false_ne_true, Nat.add_zero] at hval
    rw [if_pos hle] at hfit ⊢
    obtain ⟨r, hr, hrlen, hrval⟩ :=
      truncate_bitWidth sub.1 m (by rw [hsublen]; exact hm) (by omega)
    refine ⟨r, ?_, hrlen, by omega⟩
    rw [hrun, hnb, copyIf_eq _ _ _ hsublen]
    exact hr
  · -- a borrow: `a` is kept
    have hb : sub.2 = true := by rw [hsnd]; simpa using hle
    rw [if_neg hle] at hfit ⊢
    obtain ⟨r, hr, hrlen, hrval⟩ := truncate_bitWidth a m hm hfit
    refine ⟨r, ?_, hrlen, hrval⟩
    rw [hrun, hb, copyIf_eq _ _ _ hsublen]
    exact hr

/-- Below twice the modulus one subtraction reduces fully. -/
theorem reduceOnce_mod (a m : SecureBigUint) (ha : 0 < a.value.length)
    (hm : m.value.length ≤ a.value.length) (h : a.toNat < 2 * m.toNat) :
    ∃ r, reduceOnce a m = some r ∧ r.value.length = m.value.length ∧
      r.toNat = a.toNat % m.toNat := by
  have hmod : (if m.toNat ≤ a.toNat then a.toNat - m.toNat else a.toNat) = a.toNat % m.toNat := by
    split_ifs with hle
    · rw [Nat.mod_eq_sub_mod hle, Nat.mod_eq_of_lt (by omega)]
    · rw [Nat.mod_eq_of_lt (by omega)]
  have hlt : a.toNat % m.toNat < (2 ^ 32) ^ m.value.length :=
    (Nat.mod_lt _ (by omega)).trans m.toNat_lt
  rw [← hmod] at hlt ⊢
  exact reduceOnce_spec a m ha hm hlt

/-! ## Spec lemmas of `mul_to` -/

theorem mul_add_add_div_lt {x y o c : Nat} (hx : x < 2 ^ 32) (hy : y < 2 ^ 32) (ho : o < 2 ^ 32)
    (hc : c < 2 ^ 32) : (x * y + o + c) / 2 ^ 32 < 2 ^ 32 := by
  have hxy : x * y ≤ (2 ^ 32 - 1) * (2 ^ 32 - 1) := Nat.mul_le_mul (by omega) (by omega)
  exact Nat.div_lt_of_lt_mul (by omega)

theorem mulToInner_spec (x : UInt32) (i : Nat) (ys : List UInt32) :
    ∀ (j : Nat) (out : List UInt32) (carry : Nat), i + j + ys.length ≤ out.length →
      carry < 2 ^ 32 →
    ∃ out' c, mulToInner x i ys j out carry = some (out', c) ∧ out'.length = out.length ∧
      out'.drop (i + j + ys.length) = out.drop (i + j + ys.length) ∧ c < 2 ^ 32 ∧
      limbsVal out' + (2 ^ 32) ^ (i + j + ys.length) * c =
        limbsVal out + (2 ^ 32) ^ (i + j) * (x.toNat * limbsVal ys + carry) := by
  induction ys with
  | nil =>
    intro j out carry _ hc
    exact ⟨out, carry, rfl, rfl, rfl, hc, by simp⟩
  | cons y ys ih =>
    intro j out carry hlen hc
    have hp : i + j < out.length := by simp at hlen; omega
    have hexp : i + j + (y :: ys).length = i + (j + 1) + ys.length := by simp; omega
    obtain ⟨out', c, hrun, hlen', hdrop, hc', hval⟩ :=
      ih (j + 1) (out.set (i + j) (UInt32.ofNat (x.toNat * y.toNat + out[i + j].toNat + carry)))
        ((x.toNat * y.toNat + out[i + j].toNat + carry) / 2 ^ 32) (by simp at hlen ⊢; omega)
        (mul_add_add_div_lt x.toNat_lt y.toNat_lt (out[i + j]).toNat_lt hc)
    refine ⟨out', c, ?_, by simpa using hlen', ?_, hc', ?_⟩
    · simp only [mulToInner, List.getElem?_eq_getElem hp, Option.bind_eq_bind, Option.bind_some]
      exact hrun
    · rw [hexp, hdrop, List.drop_set_of_lt (by omega)]
    · have hset := limbsVal_set out hp (UInt32.ofNat (x.toNat * y.toNat + out[i + j].toNat + carry))
      have hdiv := Nat.mod_add_div (x.toNat * y.toNat + out[i + j].toNat + carry) (2 ^ 32)
      rw [UInt32.toNat_ofNat'] at hset
      rw [hexp, hval, pow_succ]
      simp only [limbsVal_cons]
      linear_combination hset + (2 ^ 32) ^ (i + j) * hdiv


theorem mulToOuter_spec (ys : List UInt32) : ∀ (xs : List UInt32) (i : Nat) (out : List UInt32)
    (overflowed : Bool), i + xs.length + ys.length ≤ out.length →
      limbsVal out < (2 ^ 32) ^ (i + ys.length) →
    ∃ out', mulToOuter ys xs i out overflowed = some (out', overflowed) ∧
      out'.length = out.length ∧
      limbsVal out' = limbsVal out + (2 ^ 32) ^ i * (limbsVal xs * limbsVal ys) := by
  intro xs
  induction xs with
  | nil =>
    intro i out overflowed _ _
    exact ⟨out, rfl, rfl, by simp⟩
  | cons x xs ih =>
    intro i out overflowed hlen hinv
    have hK : i + ys.length < out.length := by simp at hlen; omega
    obtain ⟨row, c, hrow, hrowlen, hdrop, hc, hval⟩ :=
      mulToInner_spec x i ys 0 out 0 (by simp at hlen ⊢; omega) (by norm_num)
    simp only [Nat.add_zero] at hdrop hval
    have hKrow : i + ys.length < row.length := by omega
    have hzero : row[i + ys.length] = 0 := by
      have habove : ∀ z ∈ out.drop (i + ys.length), z = 0 :=
        limbsVal_eq_zero_iff.mp ((limbsVal_drop_eq_zero_iff out _).mpr hinv)
      have hget := congrArg (·[0]?) hdrop
      simp only [List.getElem?_drop, Nat.add_zero] at hget
      rw [List.getElem?_eq_getElem (by omega), List.getElem?_eq_getElem hK] at hget
      have hmem : out[i + ys.length] ∈ out.drop (i + ys.length) := by
        rw [List.mem_iff_getElem]
        exact ⟨0, by simp; omega, by simp⟩
      rw [Option.some.inj hget]
      exact habove _ hmem
    have hset := limbsVal_set row hKrow (UInt32.ofNat c)
    rw [hzero, UInt32.toNat_ofNat', Nat.mod_eq_of_lt hc] at hset
    simp only [UInt32.toNat_zero, Nat.mul_zero, Nat.add_zero] at hset
    have hinv' : limbsVal (row.set (i + ys.length) (UInt32.ofNat c)) <
        (2 ^ 32) ^ (i + 1 + ys.length) := by
      have hxys : x.toNat * limbsVal ys ≤ (2 ^ 32 - 1) * (2 ^ 32) ^ ys.length :=
        Nat.mul_le_mul (by have := x.toNat_lt; omega) (limbsVal_lt ys).le
      have hmono := Nat.mul_le_mul_left ((2 ^ 32) ^ i) hxys
      have hsplit : (2 ^ 32) ^ i * ((2 ^ 32 - 1) * (2 ^ 32) ^ ys.length) =
          (2 ^ 32 - 1) * (2 ^ 32) ^ (i + ys.length) := by ring
      rw [show i + 1 + ys.length = (i + ys.length) + 1 by omega, pow_succ]
      omega
    obtain ⟨out', hrun, hlen', hval'⟩ :=
      ih (i + 1) (row.set (i + ys.length) (UInt32.ofNat c)) overflowed
        (by simp at hlen ⊢; omega) hinv'
    refine ⟨out', ?_, by simpa [hrowlen] using hlen', ?_⟩
    · simp only [mulToOuter, hrow, Option.bind_eq_bind, Option.bind_some]
      rw [if_pos (by omega)]
      exact hrun
    · rw [hval', limbsVal_cons]
      linear_combination hset + hval


theorem mulTo_spec (a rhs out : SecureBigUint)
    (h : a.value.length + rhs.value.length ≤ out.value.length) :
    ∃ r, mulTo a rhs out = some r ∧ r.value.length = out.value.length ∧
      r.toNat = a.toNat * rhs.toNat := by
  have hzero : limbsVal (out.value.map fun _ => 0) = 0 := by simp
  obtain ⟨out', hrun, hlen, hval⟩ :=
    mulToOuter_spec rhs.value a.value 0 (out.value.map fun _ => 0) false
      (by simp; omega) (by rw [hzero]; positivity)
  refine ⟨⟨out'⟩, ?_, by simpa using hlen, ?_⟩
  · simp only [mulTo, hrun, Option.bind_eq_bind, Option.bind_some, Bool.false_eq_true,
      if_false]
  · simp only [toNat, hval, hzero, pow_zero, Nat.one_mul, Nat.zero_add]

theorem mul_spec (a rhs : SecureBigUint) (h : 0 < a.value.length + rhs.value.length) :
    ∃ r, mul a rhs = some r ∧ r.value.length = a.value.length + rhs.value.length ∧
      r.toNat = a.toNat * rhs.toNat := by
  have hlimbs : ceilDiv (a.bitWidth + rhs.bitWidth) BASE_BITS =
      a.value.length + rhs.value.length := by
    rw [bitWidth, bitWidth, ← Nat.add_mul]
    exact ceilDiv_mul (by decide) _
  have hfrom : fromUsize 0 (a.bitWidth + rhs.bitWidth) =
      some ⟨List.replicate (a.value.length + rhs.value.length) 0⟩ := by
    rw [fromUsize_zero (by omega), hlimbs]
  obtain ⟨r, hr, hlen, hval⟩ :=
    mulTo_spec a rhs ⟨List.replicate (a.value.length + rhs.value.length) 0⟩ (by simp)
  refine ⟨r, ?_, by simpa using hlen, hval⟩
  simp only [mul, hfrom, Option.bind_eq_bind, Option.bind_some]
  exact hr

theorem mul_spec_two_three :
    ∃ r, mul ⟨[2]⟩ ⟨[3]⟩ = some r ∧ r.value.length = 2 ∧ r.toNat = 6 := by
  obtain ⟨r, hr, hlen, hval⟩ := mul_spec ⟨[2]⟩ ⟨[3]⟩ (by decide)
  exact ⟨r, hr, hlen, by rw [hval]; rfl⟩

/-! ## Bit lengths and the generic carry-less product -/

theorem leadingZeros_le (v : UInt32) : leadingZeros v ≤ 32 := by
  unfold leadingZeros
  exact (List.takeWhile_prefix _).length_le.trans (by simp)

theorem eq_zero_of_leadingZeros (v : UInt32) (h : leadingZeros v = BASE_BITS) : v = 0 := by
  have hall : ∀ i ∈ (List.range 32).reverse, (!v.toNat.testBit i) = true := by
    rw [← List.takeWhile_eq_self_iff]
    exact (List.takeWhile_prefix _).eq_of_length (by simpa [leadingZeros, BASE_BITS] using h)
  have hbits : ∀ i, v.toNat.testBit i = (0 : Nat).testBit i := by
    intro i
    by_cases hi : i < 32
    · simpa using hall i (by simpa using hi)
    · rw [Nat.zero_testBit, Nat.testBit_eq_false_of_lt]
      exact v.toNat_lt.trans_le (Nat.pow_le_pow_right (by norm_num) (by omega))
  exact UInt32.toNat_inj.mp (Nat.eq_of_testBit_eq hbits)

theorem valueBits_pos (a : SecureBigUint) (h : a.toNat ≠ 0) : 0 < a.valueBits := by
  obtain ⟨x, hx, hx0⟩ : ∃ x ∈ a.value, x ≠ 0 := by
    by_contra hall
    refine h (limbsVal_eq_zero_iff.mpr fun x hx => ?_)
    by_contra hx0
    exact hall ⟨x, hx, hx0⟩
  obtain ⟨i, hi, rfl⟩ := List.getElem_of_mem hx
  have hfound : ((List.range a.value.length).reverse.find?
      (fun i => leadingZeros (a.value.getD i 0) ≠ BASE_BITS)).isSome := by
    rw [List.find?_isSome]
    refine ⟨i, by simpa using hi, ?_⟩
    simp only [List.getD_eq_getElem _ _ hi, ne_eq, decide_eq_true_eq]
    exact fun hlz => hx0 (eq_zero_of_leadingZeros _ hlz)
  obtain ⟨j, hj⟩ := Option.isSome_iff_exists.mp hfound
  have hpj := List.find?_some hj
  simp only [ne_eq, decide_eq_true_eq] at hpj
  have hle := leadingZeros_le (a.value.getD j 0)
  unfold valueBits
  rw [hj]
  simp only [BASE_BITS] at hpj ⊢
  omega

/-- The generic carry-less product XORs `a`, in `a`'s own width, into `out`: unless the two
widths agree, `xor_assign_if` panics at the first bit of a nonzero `rhs`. -/
theorem carrylessMulToGeneric_eq_none (a rhs out : SecureBigUint) (hrhs : rhs.toNat ≠ 0)
    (hlen : out.value.length ≠ a.value.length) : carrylessMulToGeneric a rhs out = none := by
  obtain ⟨k, hk⟩ : ∃ k, rhs.valueBits = k + 1 :=
    ⟨_, (Nat.succ_pred_eq_of_pos (valueBits_pos rhs hrhs)).symm⟩
  obtain ⟨y, ys, hys⟩ : ∃ y ys, rhs.value = y :: ys := by
    cases h : rhs.value with
    | nil => exact absurd (by simp [toNat, h]) hrhs
    | cons y ys => exact ⟨y, ys, rfl⟩
  have hbit : rhs.bit 0 = some ((y &&& 1).toNat) := by
    simp [bit, hys, BASE_BITS]
  have hxor : ∀ c, xorAssignIf ⟨List.replicate out.value.length 0⟩ c a = none := by
    intro c
    simp [xorAssignIf, hlen]
  unfold carrylessMulToGeneric
  split_ifs <;> simp [hk, List.range_succ_eq_map, hbit, hxor]

/-! ## Shifts and bits -/

theorem toNat_shiftLeft_one_or {v c : UInt32} (hc : c.toNat ≤ 1) :
    ((v <<< 1) ||| c).toNat = 2 * (v.toNat % 2 ^ 31) + c.toNat := by
  have hshl : (v <<< 1).toNat = 2 ^ 1 * (v.toNat % 2 ^ 31) := by
    rw [UInt32.toNat_shiftLeft]
    simp only [UInt32.toNat_one, Nat.one_mod, Nat.shiftLeft_eq, pow_one]
    omega
  have hor := Nat.two_pow_add_eq_or_of_lt (show c.toNat < 2 ^ 1 by omega) (v.toNat % 2 ^ 31)
  rw [UInt32.toNat_or, hshl, ← hor, pow_one]

theorem toNat_shiftRight_31 (v : UInt32) : (v >>> 31).toNat = v.toNat / 2 ^ 31 := by
  rw [UInt32.toNat_shiftRight]
  simp [Nat.shiftRight_eq_div_pow]

/-- `shl`'s loop doubles the value, the carry in at the bottom and the bit shifted out on top. -/
theorem shlLoop_spec (l : List UInt32) (carry : UInt32) (hc : carry.toNat ≤ 1) :
    (shlLoop l carry).1.length = l.length ∧ (shlLoop l carry).2.toNat ≤ 1 ∧
      limbsVal (shlLoop l carry).1 + (2 ^ 32) ^ l.length * (shlLoop l carry).2.toNat =
        2 * limbsVal l + carry.toNat := by
  induction l generalizing carry with
  | nil => simpa [shlLoop] using hc
  | cons v vs ih =>
    have hv := v.toNat_lt
    have hhigh : (v >>> 31).toNat ≤ 1 := by rw [toNat_shiftRight_31]; omega
    obtain ⟨hlen, hc', hval⟩ := ih (v >>> 31) hhigh
    refine ⟨by simp [shlLoop, hlen], hc', ?_⟩
    have hdiv := Nat.mod_add_div v.toNat (2 ^ 31)
    simp only [shlLoop, limbsVal_cons, toNat_shiftLeft_one_or hc, List.length_cons, pow_succ]
    rw [toNat_shiftRight_31] at hval
    linear_combination (2 ^ 32 : Nat) * hval + 2 * hdiv

/-- `shl` doubles the value within its width and returns the bit shifted out. -/
theorem shl_spec (a : SecureBigUint) :
    a.shl.1.value.length = a.value.length ∧ a.shl.2.toNat ≤ 1 ∧
      a.shl.1.toNat + (2 ^ 32) ^ a.value.length * a.shl.2.toNat = 2 * a.toNat := by
  simpa [shl, toNat] using shlLoop_spec a.value 0 (by decide)


theorem limbsVal_div_mod (l : List UInt32) {q : Nat} (hq : q < l.length) :
    limbsVal l / (2 ^ 32) ^ q % 2 ^ 32 = l[q].toNat := by
  have hsplit := limbsVal_take_add_drop l q
  have htake : limbsVal (l.take q) < (2 ^ 32) ^ q :=
    (limbsVal_lt _).trans_le (Nat.pow_le_pow_right (by norm_num) (List.length_take_le q l))
  have hdiv : limbsVal l / (2 ^ 32) ^ q = limbsVal (l.drop q) := by
    rw [← hsplit, Nat.add_mul_div_left _ _ (by positivity), Nat.div_eq_of_lt htake, Nat.zero_add]
  rw [hdiv, List.drop_eq_getElem_cons hq, limbsVal_cons, Nat.add_mul_mod_self_left,
    Nat.mod_eq_of_lt l[q].toNat_lt]

theorem testBit_toNat (a : SecureBigUint) {i : Nat} (hi : i / 32 < a.value.length) :
    a.toNat.testBit i = a.value[i / 32].toNat.testBit (i % 32) := by
  have hsplit := Nat.mod_add_div i 32
  have hlow : decide (i % 32 < 32) = true := decide_eq_true (Nat.mod_lt i (by norm_num))
  rw [← limbsVal_div_mod a.value hi, ← pow_mul, Nat.testBit_mod_two_pow, hlow, Bool.true_and,
    Nat.testBit_div_two_pow, hsplit]
  rfl

/-- `bit(i)` below the width reads bit `i` of the value. -/
theorem bit_eq (a : SecureBigUint) {i : Nat} (hi : i < a.bitWidth) :
    a.bit i = some (if a.toNat.testBit i then 1 else 0) := by
  have hq : i / 32 < a.value.length := by
    simp only [bitWidth, BASE_BITS] at hi
    omega
  have hlimb : ((a.value[i / 32] >>> UInt32.ofNat (i % 32)) &&& 1).toNat =
      a.value[i / 32].toNat / 2 ^ (i % 32) % 2 := by
    rw [UInt32.toNat_and, UInt32.toNat_shiftRight, UInt32.toNat_ofNat',
      Nat.mod_eq_of_lt (show i % 32 < 2 ^ 32 by omega), Nat.mod_mod_of_dvd _ (by norm_num),
      UInt32.toNat_one, Nat.and_one_is_mod, Nat.shiftRight_eq_div_pow]
  simp only [bit, BASE_BITS, List.getElem?_eq_getElem hq, Option.map_some, hlimb,
    testBit_toNat a hq, Nat.testBit_eq_decide_div_mod_eq]
  split_ifs with h <;> simp_all

theorem or_two_pow_of_testBit_false {x s : Nat} (h : x.testBit s = false) :
    x ||| 2 ^ s = x + 2 ^ s := by
  have hdigit : x / 2 ^ s % 2 = 0 := by
    rw [Nat.testBit_eq_decide_div_mod_eq] at h
    simpa using h
  have hlow : x % 2 ^ (s + 1) < 2 ^ s := by
    rw [Nat.mod_pow_succ, hdigit, Nat.mul_zero, Nat.add_zero]
    exact Nat.mod_lt _ (by positivity)
  have hsplit := Nat.div_add_mod x (2 ^ (s + 1))
  have hpow : 2 ^ (s + 1) = 2 * 2 ^ s := by rw [pow_succ, Nat.mul_comm]
  have hsum : x % 2 ^ (s + 1) + 2 ^ s < 2 ^ (s + 1) := by omega
  calc x ||| 2 ^ s
      = (2 ^ (s + 1) * (x / 2 ^ (s + 1)) ||| x % 2 ^ (s + 1)) ||| 2 ^ s := by
        rw [← Nat.two_pow_add_eq_or_of_lt (by omega), hsplit]
    _ = 2 ^ (s + 1) * (x / 2 ^ (s + 1)) ||| (x % 2 ^ (s + 1) + 2 ^ s) := by
        rw [Nat.or_assoc, Nat.or_two_pow_eq_add_of_lt hlow]
    _ = x + 2 ^ s := by
        rw [← Nat.two_pow_add_eq_or_of_lt hsum]
        omega

theorem and_not_shiftLeft_of_testBit {old : UInt32} {s : Nat} (hs : s < 32)
    (hb : old.toNat.testBit s = false) :
    old &&& ~~~((1 : UInt32) <<< UInt32.ofNat s) = old := by
  have hpow : ((1 : UInt32) <<< UInt32.ofNat s).toBitVec = BitVec.twoPow 32 s := by
    have hall : ∀ t : Fin 32, ((1 : UInt32) <<< UInt32.ofNat t.val).toBitVec = BitVec.twoPow 32 t.val := by
      decide
    exact hall ⟨s, hs⟩
  have hbit : old.toBitVec.getLsbD s = false := by
    rw [BitVec.getLsbD, UInt32.toNat_toBitVec]
    exact hb
  apply UInt32.toBitVec_inj.mp
  apply BitVec.eq_of_getLsbD_eq
  intro j hj
  rw [UInt32.toBitVec_and, UInt32.toBitVec_not, hpow, BitVec.getLsbD_and, BitVec.getLsbD_not,
    BitVec.getLsbD_twoPow]
  by_cases hjs : s = j
  · subst hjs
    simp [hbit]
  · simp [hjs, hj]

theorem toNat_ofNat_shiftLeft {v s : Nat} (hv : v ≤ 1) (hs : s < 32) :
    (UInt32.ofNat v <<< UInt32.ofNat s).toNat = v * 2 ^ s := by
  have hlt : v * 2 ^ s < 2 ^ 32 := by
    calc v * 2 ^ s ≤ 1 * 2 ^ 31 := Nat.mul_le_mul hv (Nat.pow_le_pow_right (by norm_num) (by omega))
      _ < 2 ^ 32 := by norm_num
  rw [UInt32.toNat_shiftLeft, UInt32.toNat_ofNat', UInt32.toNat_ofNat',
    Nat.mod_eq_of_lt (show v < 2 ^ 32 by omega), Nat.mod_eq_of_lt (show s < 2 ^ 32 by omega),
    Nat.mod_eq_of_lt hs, Nat.shiftLeft_eq, Nat.mod_eq_of_lt hlt]

/-- `set_bit(i, v)` on a clear bit below the width adds `v * 2^i`. -/
theorem setBit_of_testBit_false (a : SecureBigUint) {i v : Nat} (hi : i < a.bitWidth) (hv : v ≤ 1)
    (hb : a.toNat.testBit i = false) :
    ∃ a', a.setBit i v = some a' ∧ a'.value.length = a.value.length ∧
      a'.toNat = a.toNat + v * 2 ^ i := by
  have hq : i / 32 < a.value.length := by
    simp only [bitWidth, BASE_BITS] at hi
    omega
  have hs : i % 32 < 32 := Nat.mod_lt i (by norm_num)
  set old := a.value[i / 32] with hold
  have hbit : old.toNat.testBit (i % 32) = false := by rwa [← testBit_toNat a hq]
  have hlimb : ((old &&& ~~~((1 : UInt32) <<< UInt32.ofNat (i % 32))) |||
      (UInt32.ofNat v <<< UInt32.ofNat (i % 32))).toNat = old.toNat + v * 2 ^ (i % 32) := by
    rw [and_not_shiftLeft_of_testBit hs hbit, UInt32.toNat_or, toNat_ofNat_shiftLeft hv hs]
    rcases Nat.le_one_iff_eq_zero_or_eq_one.mp hv with rfl | rfl
    · simp
    · rw [Nat.one_mul, or_two_pow_of_testBit_false hbit]
  have hset := limbsVal_set a.value hq ((old &&& ~~~((1 : UInt32) <<< UInt32.ofNat (i % 32))) |||
      (UInt32.ofNat v <<< UInt32.ofNat (i % 32)))
  refine ⟨⟨a.value.set (i / 32) ((old &&& ~~~((1 : UInt32) <<< UInt32.ofNat (i % 32))) |||
      (UInt32.ofNat v <<< UInt32.ofNat (i % 32)))⟩, ?_, List.length_set, ?_⟩
  · have hv' : (v = 0 ∨ v = 1) := by omega
    simp [setBit, hv', BASE_BITS, List.getElem?_eq_getElem hq, hold]
  · have hpow : (2 ^ 32) ^ (i / 32) * 2 ^ (i % 32) = 2 ^ i := by
      rw [← pow_mul, ← pow_add, Nat.div_add_mod]
    rw [hlimb, ← hold] at hset
    rw [toNat_mk, toNat, ← hpow]
    linarith

/-! ## `add_mul_to` and `shr_base` -/

theorem carryLoop_cons (k : Nat) (ks : List Nat) (out : List UInt32) (carry : Nat) :
    carryLoop (k :: ks) out carry =
      carryLoop ks (out.set k (UInt32.ofNat ((out.getD k 0).toNat + carry)))
        (((out.getD k 0).toNat + carry) / 2 ^ 32) := rfl

/-- The carry added from limb `K` up through `n` limbs: the limbs and the carry out make up the
sum. -/
theorem carryLoop_spec (n : Nat) : ∀ (K : Nat) (out : List UInt32) (carry : Nat),
    K + n ≤ out.length →
    (carryLoop (List.range' K n) out carry).1.length = out.length ∧
      limbsVal (carryLoop (List.range' K n) out carry).1 +
          (2 ^ 32) ^ (K + n) * (carryLoop (List.range' K n) out carry).2 =
        limbsVal out + (2 ^ 32) ^ K * carry := by
  induction n with
  | zero =>
    intro K out carry _
    simp [carryLoop]
  | succ n ih =>
    intro K out carry hlen
    have hK : K < out.length := by omega
    rw [List.range'_succ, carryLoop_cons, List.getD_eq_getElem _ _ hK]
    obtain ⟨hlen', hval⟩ := ih (K + 1) (out.set K (UInt32.ofNat (out[K].toNat + carry)))
      ((out[K].toNat + carry) / 2 ^ 32) (by simp; omega)
    refine ⟨by simpa using hlen', ?_⟩
    have hset := limbsVal_set out hK (UInt32.ofNat (out[K].toNat + carry))
    have hdiv := Nat.mod_add_div (out[K].toNat + carry) (2 ^ 32)
    rw [UInt32.toNat_ofNat'] at hset
    rw [show K + (n + 1) = K + 1 + n by omega]
    linear_combination hval + hset + (2 ^ 32) ^ K * hdiv


/-- One row of `add_mul_to` adds `a[i] * rhs` at limb `i`, the carry past the top dropped. -/
theorem addMulRow_spec (a rhs : SecureBigUint) (out : List UInt32) (i : Nat)
    (hi : i + rhs.value.length ≤ out.length) :
    ∃ out', addMulRow a rhs out i = some out' ∧ out'.length = out.length ∧
      limbsVal out' = (limbsVal out + (2 ^ 32) ^ i * ((a.value.getD i 0).toNat * rhs.toNat)) %
        (2 ^ 32) ^ out.length := by
  obtain ⟨row, c, hrow, hrowlen, -, -, hval⟩ :=
    mulToInner_spec (a.value.getD i 0) i rhs.value 0 out 0 (by simpa using hi) (by norm_num)
  simp only [Nat.add_zero] at hval
  obtain ⟨hlen, hcarry⟩ := carryLoop_spec (row.length - (i + rhs.value.length))
    (i + rhs.value.length) row c (by omega)
  rw [show i + rhs.value.length + (row.length - (i + rhs.value.length)) = out.length by omega]
    at hcarry
  refine ⟨_, ?_, by rw [hlen, hrowlen], ?_⟩
  · simp only [addMulRow, hrow, Option.bind_eq_bind, Option.bind_some]
    rfl
  · -- the carry out of the top limb is what the width drops
    have hlt : limbsVal (carryLoop (List.range' (i + rhs.value.length)
        (row.length - (i + rhs.value.length))) row c).1 < (2 ^ 32) ^ out.length :=
      lt_of_lt_of_eq (limbsVal_lt _) (by rw [hlen, hrowlen])
    rw [show rhs.toNat = limbsVal rhs.value from rfl, ← hval, ← hcarry,
      Nat.add_mul_mod_self_left, Nat.mod_eq_of_lt hlt]

/-- `add_mul_to` adds `a * rhs` to `out` within `out`'s width, when each row fits in it. -/
theorem addMulTo_spec (a rhs out : SecureBigUint)
    (h : a.value.length + rhs.value.length ≤ out.value.length + 1) :
    ∃ r, addMulTo a rhs out = some r ∧ r.value.length = out.value.length ∧
      r.toNat = (out.toNat + a.toNat * rhs.toNat) % (2 ^ 32) ^ out.value.length := by
  -- the rows so far have added the low limbs of `a` times `rhs`
  have hrows : ∀ n ≤ a.value.length, ∃ o,
      (List.range n).foldlM (addMulRow a rhs) out.value = some o ∧
        o.length = out.value.length ∧
        limbsVal o = (out.toNat + limbsVal (a.value.take n) * rhs.toNat) %
          (2 ^ 32) ^ out.value.length := by
    intro n
    induction n with
    | zero =>
      intro _
      refine ⟨out.value, rfl, rfl, ?_⟩
      rw [List.take_zero, limbsVal_nil, Nat.zero_mul, Nat.add_zero, Nat.mod_eq_of_lt out.toNat_lt]
      rfl
    | succ n ih =>
      intro hn
      obtain ⟨o, ho, holen, hoval⟩ := ih (by omega)
      obtain ⟨o', ho', ho'len, ho'val⟩ := addMulRow_spec a rhs o n (by omega)
      refine ⟨o', ?_, by omega, ?_⟩
      · rw [List.range_succ, List.foldlM_append, ho]
        simp [ho']
      · have hn' : n < a.value.length := by omega
        rw [ho'val, hoval, holen, Nat.mod_add_mod, limbsVal_take_add_one _ hn',
          List.getD_eq_getElem _ _ hn']
        congr 1
        ring
  obtain ⟨o, ho, holen, hoval⟩ := hrows a.value.length le_rfl
  refine ⟨⟨o⟩, ?_, holen, ?_⟩
  · simp [addMulTo, ho]
  · rw [toNat_mk, hoval, List.take_length]
    rfl

/-- `shr_base` divides by `2^32` a value whose low limb is zero. -/
theorem shrBase_spec (a : SecureBigUint) (hne : a.value ≠ []) (h0 : a.toNat % 2 ^ 32 = 0) :
    ∃ r, a.shrBase = some r ∧ r.value.length = a.value.length ∧ r.toNat = a.toNat / 2 ^ 32 := by
  obtain ⟨l⟩ := a
  cases l with
  | nil => exact absurd rfl hne
  | cons v vs =>
    have hv := v.toNat_lt
    simp only [toNat_mk, limbsVal_cons] at h0 ⊢
    have hv0 : v = 0 := by
      apply UInt32.toNat_inj.mp
      rw [Nat.add_mul_mod_self_left, Nat.mod_eq_of_lt hv] at h0
      exact h0
    subst hv0
    refine ⟨⟨vs ++ [0]⟩, by simp [shrBase], by simp, ?_⟩
    simp [limbsVal_append]

/-! ## Long division

`quorem` keeps the remainder below `rhs` within `rhs`'s width. A pass doubles it with the next bit
of `a`; that is below `2 * rhs`, so one subtraction reduces it. When the doubling carries out of
the width, the carry and the borrow of the subtraction agree, and the wrapped difference is the
remainder (`quorem_pass`). The loop then keeps the quotient and remainder of the bits of `a` read
so far (`quoremLoop_spec`).
-/

/-- One step of long division: with the next bit `b` appended, the remainder before reduction is
below `2 * d`, so at most one subtraction of `d` gives the next remainder and quotient bit. -/
theorem two_mul_add_div_mod {y d b : Nat} (hd : 0 < d) (hb : b ≤ 1) :
    (2 * y + b) / d = 2 * (y / d) + (if d ≤ 2 * (y % d) + b then 1 else 0) ∧
      (2 * y + b) % d = (if d ≤ 2 * (y % d) + b then 2 * (y % d) + b - d else 2 * (y % d) + b) := by
  have hy := Nat.mod_add_div y d
  have hlt := Nat.mod_lt y hd
  apply (Nat.div_mod_unique hd).mpr
  split_ifs with hle
  · constructor
    · rw [Nat.mul_add, Nat.mul_one, Nat.mul_left_comm]
      omega
    · omega
  · constructor
    · rw [Nat.add_zero, Nat.mul_left_comm]
      omega
    · omega

/-- One pass of `quorem` on a remainder `r` below `rhs`: `r` doubled with the bit `b` set, then
`rhs` subtracted exactly when that is at least `rhs`, which leaves its remainder. -/
theorem quorem_pass (rhs r : SecureBigUint) (hlen : r.value.length = rhs.value.length)
    (hr : r.toNat < rhs.toNat) {b : Nat} (hb : b ≤ 1) :
    ∃ r1 nextR, r.shl.1.setBit 0 b = some r1 ∧ fromUsize 0 rhs.bitWidth = some nextR ∧
      r1.value.length = rhs.value.length ∧ nextR.value.length = rhs.value.length ∧
      (decide (r.shl.2 ≠ 0) == (overflowingSubTo r1 rhs nextR).2) =
        decide (rhs.toNat ≤ 2 * r.toNat + b) ∧
      (if rhs.toNat ≤ 2 * r.toNat + b then (overflowingSubTo r1 rhs nextR).1 else r1).toNat =
        (2 * r.toNat + b) % rhs.toNat := by
  have hD := toNat_lt rhs
  have hL : 0 < rhs.value.length := by
    rcases Nat.eq_zero_or_pos rhs.value.length with h0 | h0
    · rw [h0, pow_zero] at hD
      omega
    · exact h0
  obtain ⟨hslen, hc, hsval⟩ := shl_spec r
  rw [hlen] at hsval hslen
  have hPeven : (2 ^ 32) ^ rhs.value.length % 2 = 0 := by
    rw [← Nat.succ_pred_eq_of_pos hL, pow_succ]
    omega
  set c := r.shl.2 with hcdef
  have hbit0 : r.shl.1.toNat.testBit 0 = false := by
    rw [Nat.testBit_zero]
    rcases Nat.le_one_iff_eq_zero_or_eq_one.mp hc with hc0 | hc1
    · rw [hc0, Nat.mul_zero] at hsval
      simp
      omega
    · rw [hc1, Nat.mul_one] at hsval
      simp
      omega
  obtain ⟨r1, hr1, hr1len, hr1val⟩ := setBit_of_testBit_false r.shl.1 (i := 0)
    (by simp only [bitWidth, BASE_BITS]; omega) hb hbit0
  rw [hslen] at hr1len
  rw [pow_zero, Nat.mul_one] at hr1val
  have hnext := fromUsize_zero (w := rhs.bitWidth) (by rw [ceilDiv_bitWidth]; exact hL)
  rw [ceilDiv_bitWidth] at hnext
  refine ⟨r1, _, hr1, hnext, hr1len, List.length_replicate, ?_⟩
  have hborrow : (overflowingSubTo r1 rhs ⟨List.replicate rhs.value.length 0⟩).2 =
      decide (r1.toNat < rhs.toNat) := by
    rw [overflowingSubTo_snd]
    simp only [List.length_replicate, List.take_of_length_le hr1len.le, List.take_length]
    rfl
  have hdiff : (overflowingSubTo r1 rhs ⟨List.replicate rhs.value.length 0⟩).1.toNat + rhs.toNat =
      r1.toNat + if (overflowingSubTo r1 rhs ⟨List.replicate rhs.value.length 0⟩).2 then
        (2 ^ 32) ^ rhs.value.length else 0 := by
    have h := toNat_overflowingSubTo r1 rhs ⟨List.replicate rhs.value.length 0⟩
    simp only [List.length_replicate, List.take_of_length_le hr1len.le, List.take_length] at h
    exact h
  have hmod := (two_mul_add_div_mod (y := r.toNat) (Nat.zero_lt_of_lt hr) hb).2
  rw [Nat.mod_eq_of_lt hr] at hmod
  rw [hmod]
  rcases Nat.le_one_iff_eq_zero_or_eq_one.mp hc with hc0 | hc1
  · -- no carry out: the doubled remainder is `r1` itself
    have hc : c = 0 := UInt32.toNat_inj.mp hc0
    rw [hc0, Nat.mul_zero, Nat.add_zero] at hsval
    have hr1 : r1.toNat = 2 * r.toNat + b := by omega
    by_cases hle : rhs.toNat ≤ 2 * r.toNat + b
    · have hno : ¬ r1.toNat < rhs.toNat := by omega
      simp only [hborrow, hno, decide_false, Bool.false_eq_true, if_false, Nat.add_zero] at hdiff
      simp only [hc, hborrow, hno, hle, ne_eq, not_true_eq_false, decide_false, if_true,
        decide_true]
      refine ⟨rfl, by omega⟩
    · have hyes : r1.toNat < rhs.toNat := by omega
      simp only [hc, hborrow, hyes, hle, ne_eq, not_true_eq_false, decide_false, if_false,
        decide_true]
      refine ⟨rfl, hr1⟩
  · -- a carry out: the doubled remainder is `r1` plus the width's power, past `rhs` and below
    have hc : c ≠ 0 := fun h => by rw [h] at hc1; exact absurd hc1 (by decide)
    rw [hc1, Nat.mul_one] at hsval
    have hle : rhs.toNat ≤ 2 * r.toNat + b := by omega
    have hyes : r1.toNat < rhs.toNat := by omega
    simp only [hborrow, hyes, decide_true, if_true] at hdiff
    simp only [hc, hborrow, hyes, hle, ne_eq, not_false_eq_true, decide_true, if_true]
    refine ⟨rfl, by omega⟩

theorem div_two_pow_eq (a k : Nat) :
    a / 2 ^ k = 2 * (a / 2 ^ (k + 1)) + (if a.testBit k then 1 else 0) := by
  have hbit : (if a.testBit k then 1 else 0) = a / 2 ^ k % 2 := by
    rw [Nat.testBit_eq_decide_div_mod_eq]
    split_ifs with h <;> simp only [decide_eq_true_eq] at h <;> omega
  rw [hbit, pow_succ, ← Nat.div_div_eq_div_mul]
  omega

/-- The loop of `quorem` with `k` bits of `a` to go: when `q` holds the quotient of the bits above
them and `r` their remainder, it ends with the quotient and remainder of all of `a`. -/
theorem quoremLoop_spec (a rhs : SecureBigUint) (hD : 0 < rhs.toNat) :
    ∀ k, k ≤ a.bitWidth → ∀ q r : SecureBigUint, q.value.length = a.value.length →
      q.toNat = a.toNat / 2 ^ k / rhs.toNat * 2 ^ k → r.value.length = rhs.value.length →
      r.toNat = a.toNat / 2 ^ k % rhs.toNat →
      ∃ q' r', quoremLoop a rhs (List.range k).reverse q r = some (q', r') ∧
        q'.value.length = a.value.length ∧ r'.value.length = rhs.value.length ∧
        q'.toNat = a.toNat / rhs.toNat ∧ r'.toNat = a.toNat % rhs.toNat
  | 0, _, q, r, hq, hqv, hr, hrv => ⟨q, r, rfl, hq, hr, by simpa using hqv, by simpa using hrv⟩
  | k + 1, hk, q, r, hq, hqv, hr, hrv => by
    have hprefix := div_two_pow_eq a.toNat k
    set bb := if a.toNat.testBit k then 1 else 0 with hbb
    have hbb1 : bb ≤ 1 := by rw [hbb]; split <;> omega
    have hrlt : r.toNat < rhs.toNat := by rw [hrv]; exact Nat.mod_lt _ hD
    obtain ⟨r1, nextR, hr1, hnext, hr1len, hnlen, hsub, hval⟩ := quorem_pass rhs r hr hrlt hbb1
    have hstep := two_mul_add_div_mod (y := a.toNat / 2 ^ (k + 1)) hD hbb1
    rw [← hrv, ← hprefix] at hstep
    have hrstep := (two_mul_add_div_mod (y := r.toNat) hD hbb1).2
    rw [Nat.mod_eq_of_lt hrlt] at hrstep
    have hqbit : q.toNat.testBit k = false := by
      rw [hqv, Nat.testBit_mul_two_pow]
      simp
    obtain ⟨q2, hq2, hq2len, hq2val⟩ := setBit_of_testBit_false q (i := k)
      (v := if rhs.toNat ≤ 2 * r.toNat + bb then 1 else 0)
      (by simp only [bitWidth] at hk ⊢; rw [hq]; omega) (by split <;> omega) hqbit
    have hcopy := copyIf_eq (overflowingSubTo r1 rhs nextR).1 r1
      (decide (rhs.toNat ≤ 2 * r.toNat + bb)) (by rw [length_overflowingSubTo, hnlen, hr1len])
    obtain ⟨q', r', hloop, hq'len, hr'len, hq'val, hr'val⟩ := quoremLoop_spec a rhs hD k (by omega)
      q2 (if rhs.toNat ≤ 2 * r.toNat + bb then (overflowingSubTo r1 rhs nextR).1 else r1)
      (by rw [hq2len, hq]) (by
        rw [hq2val, hqv, hstep.1, pow_succ]
        split <;> ring)
      (by split <;> simp [hr1len, hnlen]) (by rw [hval, hrstep, hstep.2])
    refine ⟨q', r', ?_, hq'len, hr'len, hq'val, hr'val⟩
    rw [List.range_succ, List.reverse_append, List.reverse_singleton, List.singleton_append]
    simp only [quoremLoop, bit_eq a (show k < a.bitWidth by omega), ← hbb, Option.bind_eq_bind,
      Option.bind_some, hr1, hnext, hsub, hcopy, decide_eq_true_eq, hq2]
    exact hloop

theorem quorem_exact (a rhs : SecureBigUint) (ha : 0 < a.value.length) (hD : rhs.toNat ≠ 0) :
    ∃ q r, a.quorem rhs = some (q, r) ∧ q.value.length = a.value.length ∧
      r.value.length = rhs.value.length ∧ a.toNat = q.toNat * rhs.toNat + r.toNat ∧
      r.toNat < rhs.toNat ∧ q.toNat = a.toNat / rhs.toNat ∧ r.toNat = a.toNat % rhs.toNat := by
  have hpos : 0 < rhs.toNat := Nat.pos_of_ne_zero hD
  have hL : 0 < rhs.value.length := by
    rcases Nat.eq_zero_or_pos rhs.value.length with h0 | h0
    · have := toNat_lt rhs
      rw [h0, pow_zero] at this
      omega
    · exact h0
  have htop : a.toNat / 2 ^ a.bitWidth = 0 := by
    apply Nat.div_eq_of_lt
    have := toNat_lt a
    rwa [bitWidth, BASE_BITS, pow_mul']
  obtain ⟨q, r, hloop, hqlen, hrlen, hqv, hrv⟩ := quoremLoop_spec a rhs hpos a.bitWidth le_rfl
    ⟨List.replicate a.value.length 0⟩ ⟨List.replicate rhs.value.length 0⟩ List.length_replicate
    (by simp [htop]) List.length_replicate (by simp [htop])
  refine ⟨q, r, ?_, hqlen, hrlen, ?_, ?_, hqv, hrv⟩
  · simp only [quorem, fromUsize_zero (show 0 < ceilDiv a.bitWidth BASE_BITS by simpa using ha),
      fromUsize_zero (show 0 < ceilDiv rhs.bitWidth BASE_BITS by simpa using hL),
      ceilDiv_bitWidth, Option.bind_eq_bind, Option.bind_some]
    exact hloop
  · rw [hqv, hrv, Nat.div_add_mod']
  · rw [hrv]
    exact Nat.mod_lt _ hpos

theorem quorem_hundred_by_seven :
    0 < (⟨[100]⟩ : SecureBigUint).value.length ∧ (⟨[7]⟩ : SecureBigUint).toNat ≠ 0 ∧
      ∃ q r, quorem ⟨[100]⟩ ⟨[7]⟩ = some (q, r) ∧
        q.value.length = (⟨[100]⟩ : SecureBigUint).value.length ∧
        r.value.length = (⟨[7]⟩ : SecureBigUint).value.length ∧
        (⟨[100]⟩ : SecureBigUint).toNat = q.toNat * (⟨[7]⟩ : SecureBigUint).toNat + r.toNat ∧
        r.toNat < (⟨[7]⟩ : SecureBigUint).toNat ∧
        q.toNat = (⟨[100]⟩ : SecureBigUint).toNat / (⟨[7]⟩ : SecureBigUint).toNat ∧
        r.toNat = (⟨[100]⟩ : SecureBigUint).toNat % (⟨[7]⟩ : SecureBigUint).toNat :=
  ⟨by decide, by decide, quorem_exact ⟨[100]⟩ ⟨[7]⟩ (by decide) (by decide)⟩

/-- `truncate(0)` of zero leaves a value of width 0, and dividing it makes `from_usize(0, 0)`
panic. -/
theorem quorem_of_empty :
    (⟨[0]⟩ : SecureBigUint).truncate 0 = some ⟨[]⟩ ∧ quorem ⟨[]⟩ ⟨[1]⟩ = none :=
  ⟨by decide, rfl⟩

end SecureBigUint

end Dacha.Math
