import Dacha.Lib.Bytes

/-!
# ChaCha20-Poly1305 (`pkg/crypto/src/chacha20.rs`)

| here | there |
| --- | --- |
| `ChaCha20.new`, `getBlockAtCount`, `getBlock`, `encrypt` | `ChaCha20` (`chacha20.rs:29-174`) |
| `U1305` and its operations | `U1305` (`chacha20.rs:181-377`), five 26-bit limbs |
| `Poly1305.new`, `update`, `finish` | `Poly1305` (`chacha20.rs:429-575`) |
| `computeTag`, `expandedSize`, `encrypt`, `decrypt` | `ChaCha20Poly1305::compute_tag`, `expanded_size`, `encrypt`, `decrypt` (`chacha20.rs:595-679`) |
| `xor`, `constantEq` | `utils::xor` (`utils.rs:1`) and `crate::constant_eq` (`lib.rs:50`) |

A panic is `none`: the `assert!`s, an arithmetic overflow of a `u64`, `i64` or `usize` (the
debug build the tests run), a failed `debug_assert!`, and an out-of-range slice. `u32`
arithmetic is `wrapping_add` in the source and `UInt32` addition here.

`decrypt` starts with `ciphertext.split_at(ciphertext.len() - 16)` and no length check, so
every ciphertext shorter than the tag panics (`decrypt_short_panics`); the GCM sibling checks
`auth_cipher.len() < BLOCK_SIZE` first (`gcm.rs:244-246`).

`encrypt` is meant to append to `out`, but it splits the grown buffer at `plaintext.len()`
from its start rather than from `start_i`. The tag slot is then `start_i` bytes longer than the
tag, and `copy_from_slice` panics for every buffer that was not empty (`encrypt_of_ne_nil`).
-/

namespace Dacha.Crypto

open Dacha.Bytes

/-- `a[i..j]`: `none` when the range is out of bounds. -/
def slice (a : List UInt8) (i j : Nat) : Option (List UInt8) :=
  if i ≤ j ∧ j ≤ a.length then some ((a.drop i).take (j - i)) else none

/-- `usize` subtraction: `none` on underflow. -/
def usizeSub (a b : Nat) : Option Nat := if b ≤ a then some (a - b) else none

/-- A `u64` result: `none` when it overflows. -/
def u64 (x : Nat) : Option Nat := if x < 2 ^ 64 then some x else none

/-- `u32::from_le_bytes(*array_ref![a, i, 4])`. -/
def u32At (a : List UInt8) (i : Nat) : UInt32 := UInt32.ofNat (fromLe ((a.drop i).take 4))

/-- `utils::xor`: `out[i] = a[i] ^ b[i]` for `i < a.len()`; `b` must be as long as `a`. -/
def xor (a b : List UInt8) : Option (List UInt8) :=
  if a.length ≤ b.length then some (List.zipWith (· ^^^ ·) a b) else none

/-- `constant_eq`: equal lengths and every byte pair XORs to zero (the word-at-a-time loop
ORs the same XORs together). -/
def constantEq (a b : List UInt8) : Bool :=
  a.length == b.length && (List.zipWith (· ^^^ ·) a b).all (· == 0)

/-! ## ChaCha20 -/

/-- `ChaCha20`: the sixteen state words and the bytes processed so far. -/
structure ChaCha20 where
  state : List UInt32
  bytesProcessed : Nat

/-- `ChaCha20::new`: constants, key words, a zero counter and the nonce words. -/
def ChaCha20.new (key nonce : List UInt8) : Option ChaCha20 :=
  if key.length ≠ 32 ∨ nonce.length ≠ 12 then none
  else some {
    state := [0x61707865, 0x3320646e, 0x79622d32, 0x6b206574] ++
      (List.range 8).map (fun i => u32At key (4 * i)) ++ [0] ++
      (List.range 3).map (fun i => u32At nonce (4 * i))
    bytesProcessed := 0 }

/-- `u32::rotate_left`. -/
def rotl (x : UInt32) (k : UInt32) : UInt32 := (x <<< k) ||| (x >>> (32 - k))

def quarterRoundWith (a b c d : UInt32) : UInt32 × UInt32 × UInt32 × UInt32 :=
  let a := a + b
  let d := rotl (d ^^^ a) 16
  let c := c + d
  let b := rotl (b ^^^ c) 12
  let a := a + b
  let d := rotl (d ^^^ a) 8
  let c := c + d
  let b := rotl (b ^^^ c) 7
  (a, b, c, d)

/-- `ChaCha20::quarter_round` on state indices `x y z w`. -/
def quarterRound (s : List UInt32) (x y z w : Nat) : List UInt32 :=
  let (a, b, c, d) := quarterRoundWith (s.getD x 0) (s.getD y 0) (s.getD z 0) (s.getD w 0)
  ((((s.set x a).set y b).set z c).set w d)

/-- One double round: four column rounds and four diagonal rounds. -/
def doubleRound (s : List UInt32) : List UInt32 :=
  let s := quarterRound s 0 4 8 12
  let s := quarterRound s 1 5 9 13
  let s := quarterRound s 2 6 10 14
  let s := quarterRound s 3 7 11 15
  let s := quarterRound s 0 5 10 15
  let s := quarterRound s 1 6 11 12
  let s := quarterRound s 2 7 8 13
  quarterRound s 3 4 9 14

/-- `ChaCha20::serialize`: each word as four little-endian bytes. -/
def serialize (s : List UInt32) : List UInt8 := s.flatMap fun w => toLe w.toNat 4

/-- `ChaCha20::get_block_at_count`: the counter word is stored in the state, which is why the
cipher comes back with the block. -/
def ChaCha20.getBlockAtCount (st : ChaCha20) (counter : UInt32) : ChaCha20 × List UInt8 :=
  let state := st.state.set 12 counter
  let mixed := (doubleRound)^[10] state
  ({ st with state := state }, serialize (List.zipWith (· + ·) mixed state))

/-- `ChaCha20::get_block`: the counter is `1 + bytes_processed / 64`, asserted to fit a `u32`. -/
def ChaCha20.getBlock (st : ChaCha20) : Option (ChaCha20 × List UInt8) :=
  let i := 1 + st.bytesProcessed / 64
  if i ≤ 2 ^ 32 - 1 then some (st.getBlockAtCount (UInt32.ofNat i)) else none

/-- The full-block loop of `ChaCha20::encrypt`, `n` blocks of 64 bytes. -/
def ChaCha20.encryptBlocks : Nat → ChaCha20 → List UInt8 → Option (ChaCha20 × List UInt8)
  | 0, st, _ => some (st, [])
  | n + 1, st, data => do
    let (st, ks) ← st.getBlock
    let out ← xor (data.take 64) ks
    let (st, rest) ← encryptBlocks n { st with bytesProcessed := st.bytesProcessed + 64 } (data.drop 64)
    pure (st, out ++ rest)

/-- `ChaCha20::encrypt` (and `decrypt`, which is the same). -/
def ChaCha20.encrypt (st : ChaCha20) (data : List UInt8) : Option (ChaCha20 × List UInt8) := do
  let (st, out) ← st.encryptBlocks (data.length / 64) data
  let r := data.length % 64
  if r ≠ 0 then
    let (st, ks) ← st.getBlock
    let last ← xor (data.drop (data.length - r)) ks
    pure ({ st with bytesProcessed := st.bytesProcessed + r }, out ++ last)
  else pure (st, out)

/-- `ChaCha20::poly1305_keygen`: the first 32 bytes of the block at counter 0. -/
def ChaCha20.poly1305Keygen (st : ChaCha20) : ChaCha20 × List UInt8 :=
  let (st, b) := st.getBlockAtCount 0
  (st, b.take 32)

/-! ## Poly1305 -/

/-- `U1305`: five limbs of (nominally) 26 bits, least significant first. -/
structure U1305 where
  limbs : List Nat

/-- `(1 << 26) - 1`. -/
def LIMB_MASK : Nat := 2 ^ 26 - 1

def U1305.zero : U1305 := ⟨[0, 0, 0, 0, 0]⟩

/-- `U1305::modulus`: `2^130 - 5`. -/
def U1305.modulus : U1305 := ⟨[LIMB_MASK - 4, LIMB_MASK, LIMB_MASK, LIMB_MASK, LIMB_MASK]⟩

/-- `U1305::from_le_bytes` on a 16-byte block: five overlapping 32-bit reads, shifted and
masked to 26 bits. -/
def U1305.fromLeBytes (d : List UInt8) : U1305 :=
  let w (i : Nat) : Nat := fromLe ((d.drop i).take 4)
  ⟨[w 0 % 2 ^ 26, (w 3 >>> 2) % 2 ^ 26, (w 6 >>> 4) % 2 ^ 26, (w 9 >>> 6) % 2 ^ 26,
    fromLe ((d.drop 13).take 3) % 2 ^ 26]⟩

/-- The byte loop of `U1305::to_le_bytes`: `acc` and `accBits` carry the unread bits. -/
def toLeBytesLoop (limbs : List Nat) : Nat → Nat → Nat → Option (List UInt8)
  | 0, _, _ => some []
  | n + 1, acc, accBits => do
    -- the inner `while acc_bits < 8`: one limb of 26 bits always suffices
    let (limbs', acc, accBits) := match limbs with
      | l :: ls => if accBits < 8 then (ls, (acc ||| (l <<< accBits)) % 2 ^ 64, accBits + 26)
          else (limbs, acc, accBits)
      | [] => (limbs, acc, accBits)
    let accBits ← usizeSub accBits 8
    let rest ← toLeBytesLoop limbs' n (acc >>> 8) accBits
    pure (UInt8.ofNat acc :: rest)

/-- `U1305::to_le_bytes`: the low 16 bytes. -/
def U1305.toLeBytes (a : U1305) : Option (List UInt8) := toLeBytesLoop a.limbs 16 0 0

/-- The carry loop of `U1305::add`. -/
def addLimbs : List Nat → List Nat → Nat → Option (List Nat × Nat)
  | x :: xs, y :: ys, carry => do
    let v ← u64 (carry + x + y)
    let (rest, c) ← addLimbs xs ys (v >>> 26)
    pure ((v &&& LIMB_MASK) :: rest, c)
  | _, _, carry => some ([], carry)

/-- `U1305::add`: the final carry is OR-ed into the top limb. -/
def U1305.add (a b : U1305) : Option U1305 := do
  let (ls, carry) ← addLimbs a.limbs b.limbs 0
  let top ← u64 (carry <<< 26)
  pure ⟨ls.set 4 (ls.getD 4 0 ||| top)⟩

def U1305.addPow2 (a : U1305) (pow2 : Nat) : Option U1305 :=
  let byte := pow2 / 26
  if byte < 5 then some ⟨a.limbs.set byte (a.limbs.getD byte 0 ||| (1 <<< (pow2 % 26)))⟩ else none

/-- The borrow loop of `U1305::sub`, in `i64`. -/
def subLimbs : List Nat → List Nat → Int → List Nat × Int
  | x :: xs, y :: ys, carry =>
    let v : Int := x - y + carry
    let (offset, carry) : Int × Int := if v < 0 then (2 ^ 26, -1) else (0, 0)
    let (rest, c) := subLimbs xs ys carry
    ((v + offset).toNat :: rest, c)
  | _, _, carry => ([], carry)

/-- `U1305::sub`, with its `debug_assert_eq!(carry, 0)`. -/
def U1305.sub (a b : U1305) : Option U1305 :=
  let (ls, carry) := subLimbs a.limbs b.limbs 0
  if carry = 0 then some ⟨ls⟩ else none

/-- The borrow loop of `U1305::greater_eq`. -/
def geCarry : List Nat → List Nat → Int → Int
  | x :: xs, y :: ys, carry =>
    let v : Int := x - y + carry
    geCarry xs ys (if v < 0 then -1 else 0)
  | _, _, carry => carry

def U1305.greaterEq (a b : U1305) : Bool := geCarry a.limbs b.limbs 0 == 0

def U1305.maybeSubModulus (a : U1305) : Option U1305 :=
  a.sub (if a.greaterEq U1305.modulus then U1305.modulus else U1305.zero)

def U1305.addModN (a b : U1305) : Option U1305 := do
  let s ← a.add b
  s.maybeSubModulus

/-- The product loop of `U1305::mul_mod_n`: limb products at `i + j`, those at or above the
fifth limb folded back with a factor 5. -/
def mulAccumulate (a b : List Nat) : Option (List Nat) :=
  (List.range 5).foldlM (fun out i =>
    (List.range 5).foldlM (fun out j => do
      let v ← u64 (a.getD i 0 * b.getD j 0)
      let (k, v) ← if i + j ≥ 5 then (u64 (v * 5)).map fun v => (i + j - 5, v) else some (i + j, v)
      let o ← u64 (out.getD k 0 + v)
      pure (out.set k o)) out) [0, 0, 0, 0, 0]

/-- One carry pass of `U1305::mul_mod_n`. -/
def carryPass : List Nat → Nat → Option (List Nat × Nat)
  | [], carry => some ([], carry)
  | o :: os, carry => do
    let v ← u64 (o + carry)
    let (rest, c) ← carryPass os (v >>> 26)
    pure ((v &&& LIMB_MASK) :: rest, c)

/-- `U1305::mul_mod_n`: three carry passes (the carry out of the top limb re-enters at the
bottom times 5), the `debug_assert_eq!(carry, 0)`, and one conditional subtraction. -/
def U1305.mulModN (a b : U1305) : Option U1305 := do
  let out ← mulAccumulate a.limbs b.limbs
  let pass (p : List Nat × Nat) : Option (List Nat × Nat) := do
    let (out, carry) ← carryPass p.1 p.2
    let c ← u64 (carry * 5)
    pure (out, c)
  let (out, carry) ← pass (out, 0) >>= pass >>= pass
  if carry ≠ 0 then none
  U1305.maybeSubModulus ⟨out⟩

/-- `Poly1305`: the clamped `r`, `s` and the accumulator. -/
structure Poly1305 where
  r : U1305
  s : U1305
  acc : U1305

def clamp (r : List UInt8) : List UInt8 :=
  r.mapIdx fun i b =>
    if i = 3 ∨ i = 7 ∨ i = 11 ∨ i = 15 then b &&& 15
    else if i = 4 ∨ i = 8 ∨ i = 12 then b &&& 252 else b

def Poly1305.new (key : List UInt8) : Option Poly1305 :=
  if key.length ≠ 32 then none
  else some ⟨U1305.fromLeBytes (clamp (key.take 16)), U1305.fromLeBytes ((key.drop 16).take 16),
    U1305.zero⟩

/-- One 16-byte block of `Poly1305::update`, of which `len` bytes are data: the block plus
`2^final_bit` is added to the accumulator, which is then multiplied by `r`. -/
def Poly1305.block (p : Poly1305) (buf : List UInt8) (len : Nat) (padToBlock : Bool) :
    Option Poly1305 := do
  let finalBit := if padToBlock then 16 * 8 else len * 8
  let n ← (U1305.fromLeBytes buf).addPow2 finalBit
  let acc ← p.acc.addModN n
  let acc ← acc.mulModN p.r
  pure { p with acc := acc }

/-- `Poly1305::update`: the data in 16-byte steps, a short last step zero-padded. -/
def Poly1305.update (p : Poly1305) (data : List UInt8) (padToBlock : Bool) : Option Poly1305 :=
  (List.range ((data.length + 15) / 16)).foldlM (fun p k =>
    let chunk := (data.drop (16 * k)).take 16
    p.block (chunk ++ List.replicate (16 - chunk.length) 0) chunk.length padToBlock) p

/-- `Poly1305::finish`: `acc + s`, its low 16 bytes. -/
def Poly1305.finish (p : Poly1305) : Option (List UInt8) := do
  let acc ← p.acc.add p.s
  acc.toLeBytes

/-! ## The AEAD -/

def computeTag (otk ciphertext additionalData : List UInt8) : Option (List UInt8) := do
  let poly ← Poly1305.new otk
  let poly ← poly.update additionalData true
  let poly ← poly.update ciphertext true
  let lengths := toLe additionalData.length 8 ++ toLe ciphertext.length 8
  let poly ← poly.update lengths false
  poly.finish

/-- `ChaCha20Poly1305::expanded_size`: the tag's 16 bytes more. -/
def expandedSize (plaintextSize : Nat) : Nat := plaintextSize + 16

/-- `ChaCha20Poly1305::encrypt`: the new contents of `out`. `out` grows by `expanded_size`, but
`split_at_mut(plaintext.len())` splits it from its start, not from `start_i`: the ciphertext
goes over `out`'s first bytes and the tag slot is the rest, which `copy_from_slice` requires to
be as long as the tag. -/
def encrypt (key nonce plaintext additionalData out : List UInt8) : Option (List UInt8) := do
  let out := out ++ List.replicate (expandedSize plaintext.length) 0
  let tagSlotLen := out.length - plaintext.length
  let chacha ← ChaCha20.new key nonce
  let (chacha, otk) := chacha.poly1305Keygen
  let (_, ciphertext) ← chacha.encrypt plaintext
  let tag ← computeTag otk ciphertext additionalData
  if tag.length ≠ tagSlotLen then none
  pure (ciphertext ++ tag)

/-- `ChaCha20Poly1305::decrypt`: the new contents of `out` and the result. The plaintext is
written into `out` before the tag is checked. -/
def decrypt (key nonce ciphertext additionalData out : List UInt8) :
    Option (List UInt8 × Except String Unit) := do
  let mid ← usizeSub ciphertext.length 16
  let (body, tag) := (ciphertext.take mid, ciphertext.drop mid)
  let chacha ← ChaCha20.new key nonce
  let (chacha, otk) := chacha.poly1305Keygen
  let (_, plaintext) ← chacha.encrypt body
  let expectedTag ← computeTag otk body additionalData
  let out := out ++ plaintext
  if constantEq tag expectedTag then pure (out, .ok ()) else pure (out, .error "Bad tag")

/-- Every ciphertext shorter than the 16-byte tag makes `decrypt` panic, whatever the key,
nonce, additional data and output buffer. -/
theorem decrypt_short_panics (key nonce c a out : List UInt8) (h : c.length < 16) :
    decrypt key nonce c a out = none := by
  have hs : usizeSub c.length 16 = none := by
    unfold usizeSub
    exact if_neg (by omega)
  simp [decrypt, hs]

/-- The all-zero 256-bit key and 96-bit nonce, and an empty record body. -/
theorem decrypt_empty_panics :
    decrypt (List.replicate 32 0) (List.replicate 12 0) [] [] [] = none :=
  decrypt_short_panics _ _ [] [] [] (by decide)

/-! ## Encryption into a non-empty buffer -/

theorem length_toLeBytesLoop {limbs : List Nat} {acc accBits : Nat} {out : List UInt8} :
    ∀ {n : Nat}, toLeBytesLoop limbs n acc accBits = some out → out.length = n := by
  intro n
  induction n generalizing limbs acc accBits out with
  | zero =>
    intro h
    cases h
    rfl
  | succ n ih =>
    intro h
    simp only [toLeBytesLoop, Option.bind_eq_bind, Option.bind_eq_some_iff, Option.pure_def,
      Option.some.injEq] at h
    obtain ⟨_, _, rest, hrest, rfl⟩ := h
    rw [List.length_cons, ih hrest]

theorem length_computeTag {otk ciphertext additionalData tag : List UInt8}
    (h : computeTag otk ciphertext additionalData = some tag) : tag.length = 16 := by
  simp only [computeTag, Poly1305.finish, U1305.toLeBytes, Option.bind_eq_bind,
    Option.bind_eq_some_iff] at h
  obtain ⟨_, _, _, _, _, _, _, _, _, _, htag⟩ := h
  exact length_toLeBytesLoop htag

/-- Whatever `out` held is not kept: the tag slot is longer than the tag, and `encrypt` panics. -/
theorem encrypt_of_ne_nil (key nonce plaintext additionalData : List UInt8) {out : List UInt8}
    (hout : out ≠ []) : encrypt key nonce plaintext additionalData out = none := by
  have hlen := List.length_pos_of_ne_nil hout
  rw [Option.eq_none_iff_forall_ne_some]
  intro result h
  simp only [encrypt, Option.bind_eq_bind, Option.bind_eq_some_iff] at h
  obtain ⟨chacha, -, x, -, tag, htag, h⟩ := h
  have hslot : tag.length ≠
      (out ++ List.replicate (expandedSize plaintext.length) 0).length - plaintext.length := by
    rw [length_computeTag htag, List.length_append, List.length_replicate, expandedSize]
    omega
  rw [if_pos hslot] at h
  simp at h

/-- Under the all-zero key and nonce, one byte encrypts to 17 bytes into an empty buffer, and the
same call into a buffer that holds one byte panics. -/
theorem encrypt_into_nonempty_out_panics :
    (encrypt (List.replicate 32 0) (List.replicate 12 0) [1] [] []).map List.length = some 17 ∧
      encrypt (List.replicate 32 0) (List.replicate 12 0) [1] [] [0] = none :=
  ⟨by decide +kernel, encrypt_of_ne_nil _ _ _ _ (List.cons_ne_nil _ _)⟩

end Dacha.Crypto
