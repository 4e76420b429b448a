import Dacha.Lib.Bytes
import Dacha.Lib.MsbBits
import Dacha.Common.Sizes

/-!
# The Merkle–Damgård construction (`crypto/src/md.rs`)

| here | there |
| --- | --- |
| `LengthPadding`, `MerkleDamgard` | `md.rs:12-51` |
| `MerkleDamgard.new` | `new` (`:56-68`) |
| `MerkleDamgard.update`, `absorb` | `update` (`:70-100`); `absorb` is its part from the full chunks on |
| `MerkleDamgard.finish`, `numExtra` | `finish` (`:105-148`); `numExtra` is its `num_extra` |
| `blocks` | the chunks `data[i * N..i * N + N]` of the loop of `update` |
| `Params`, `sha1Params` .. `md5Params` | the chunk size and padding of `sha1.rs`, `sha256.rs` (SHA-224 too), `sha512.rs` (SHA-384 too), `md5.rs` |

The hash state and the compression function are parameters: `f block hash` is the state after
one `N`-byte block. `pending_chunk` holds `N` bytes, of which `update` reads only the first
`length % N`. `Inv` says that these are the tail of the message so far, and that `hash` is `f`
folded over the message's whole blocks; every `update` keeps it, however the message is split
(`update_inv`). Sums and products on `usize` panic on overflow, as everywhere in this
development.

`finish` rounds its padding up with `block_size_remainder` over the length field's width in bits
(64 or 128), not over the chunk size. For each instantiation the two are the same number
(`Params.Valid`). Its length in bits is a `usize` product: from `2 ^ 61` bytes on it overflows
and `finish` panics (`finish_of_overflow`). Below that it returns `f` folded over the blocks of
the padded message (`finish_eq_compress_pad`).
-/

namespace Dacha.Crypto

open Dacha.Bytes Dacha.MsbBits Dacha.Common

/-- `a + b` on `usize`. -/
def usizeAdd (a b : Nat) : Except String Nat :=
  if a + b < 2 ^ 64 then .ok (a + b) else .error "attempt to add with overflow"

/-- `dst[start..start + src.len()].copy_from_slice(src)`. -/
def copyInto (dst : List UInt8) (start : Nat) (src : List UInt8) : List UInt8 :=
  dst.take start ++ src ++ dst.drop (start + src.length)

/-- The whole `n`-byte blocks of `data`: `data[i * n..i * n + n]` for `i` below
`data.len() / n`. -/
def blocks (n : Nat) (data : List UInt8) : List (List UInt8) :=
  (List.range (data.length / n)).map fun i => (data.drop (i * n)).take n

structure LengthPadding where
  bigEndian : Bool
  int128 : Bool
  deriving DecidableEq, Repr

structure MerkleDamgard (S : Type) where
  hash : S
  length : Nat
  pendingChunk : List UInt8
  lengthPadding : LengthPadding

namespace MerkleDamgard

variable {S : Type} (chunkSize : Nat) (f : List UInt8 → S → S)

/-- `new`: little-endian 128-bit lengths are not supported. -/
def new (iv : S) (lengthPadding : LengthPadding) : Except String (MerkleDamgard S) :=
  if !lengthPadding.bigEndian && lengthPadding.int128 then
    .error "assertion failed: !length_padding.int128"
  else .ok ⟨iv, 0, List.replicate chunkSize 0, lengthPadding⟩

/-- The compression function folded over blocks, from `hash`. -/
def compress (hash : S) (bs : List (List UInt8)) : S := bs.foldl (fun h b => f b h) hash

/-- The end of `update`, once no chunk is pending: the whole chunks of `data` are compressed, and
the rest becomes the pending chunk. -/
def absorb (m : MerkleDamgard S) (data : List UInt8) : Except String (MerkleDamgard S) := do
  let hash := compress f m.hash (blocks chunkSize data)
  let r := data.length % chunkSize
  let pendingChunk := copyInto m.pendingChunk 0 (data.drop (data.length - r))
  let length ← usizeAdd m.length data.length
  pure { m with hash, pendingChunk, length }

/-- `update`: first complete a pending chunk, and stop early if `data` does not complete it. -/
def update (m : MerkleDamgard S) (data : List UInt8) : Except String (MerkleDamgard S) :=
  let rem := m.length % chunkSize
  if rem = 0 then absorb chunkSize f m data
  else
    let n := min (chunkSize - rem) data.length
    let pendingChunk := copyInto m.pendingChunk rem (data.take n)
    match usizeAdd m.length n with
    | .error e => .error e
    | .ok length =>
      if length % chunkSize ≠ 0 then .ok { m with pendingChunk, length }
      else
        absorb chunkSize f { m with pendingChunk, length, hash := f pendingChunk m.hash }
          (data.drop n)

/-- `num_extra` of `finish`: the bytes its padding adds to a message of `length` bytes. The two
sums cannot overflow once `BITS_PER_BYTE * length` has not. -/
def numExtra (lengthPadding : LengthPadding) (length : Nat) : Nat :=
  let messageLengthBits := if lengthPadding.int128 then 128 else 64
  let paddedLen := length + ceilDiv (1 + messageLengthBits) 8
  let paddedLen := paddedLen + blockSizeRemainder messageLengthBits paddedLen
  paddedLen - length

/-- The 8 bytes `finish` writes for the length in bits: `message_length.to_be_bytes()` or
`to_le_bytes()`. -/
def lengthBytes (lengthPadding : LengthPadding) (messageLength : Nat) : List UInt8 :=
  if lengthPadding.bigEndian then toBe messageLength 8 else toLe messageLength 8

/-- `finish`: a clone is updated with the `0x80` byte, zeros and the length in bits, which is
written as 8 bytes even for a 128-bit field. -/
def finish (m : MerkleDamgard S) : Except String S := do
  if 2 ^ 64 ≤ 8 * m.length then throw "attempt to multiply with overflow"
  let messageLength := 8 * m.length
  let numExtra := numExtra m.lengthPadding m.length
  let bufLen := chunkSize + 17
  if bufLen < numExtra then
    throw s!"range end index {numExtra} out of range for slice of length {bufLen}"
  let buf := copyInto (copyInto (List.replicate bufLen 0) 0 [0x80]) (numExtra - 8)
    (lengthBytes m.lengthPadding messageLength)
  let h ← update chunkSize f m (buf.take numExtra)
  if h.length % chunkSize ≠ 0 then throw "assertion failed: `(left == right)`"
  pure h.hash

end MerkleDamgard

/-! ## The padded message -/

/-- The bytes of the length field. -/
def LengthPadding.width (lp : LengthPadding) : Nat := if lp.int128 then 16 else 8

/-- The length field: the message's length in bits, in the field's width and byte order. -/
def LengthPadding.field (lp : LengthPadding) (bits : Nat) : List UInt8 :=
  if lp.int128 then toBe bits 16 else if lp.bigEndian then toBe bits 8 else toLe bits 8

/-- What follows a message of `len` bytes: `0x80`, the fewest zeros that end the whole on a
multiple of `n` bytes, and the length field. -/
def padSuffix (n : Nat) (lp : LengthPadding) (len : Nat) : List UInt8 :=
  0x80 :: List.replicate ((n - (len + 1 + lp.width) % n) % n) 0 ++ lp.field (8 * len)

/-- `pad(x)`. -/
def pad (n : Nat) (lp : LengthPadding) (x : List UInt8) : List UInt8 := x ++ padSuffix n lp x.length

/-- A chunk size and a length padding of the source. -/
structure Params where
  chunkSize : Nat
  lengthPadding : LengthPadding
  deriving DecidableEq, Repr

def sha1Params : Params := ⟨64, ⟨true, false⟩⟩
/-- SHA-224 and SHA-256. -/
def sha256Params : Params := ⟨64, ⟨true, false⟩⟩
/-- SHA-384 and SHA-512. -/
def sha512Params : Params := ⟨128, ⟨true, true⟩⟩
def md5Params : Params := ⟨64, ⟨false, false⟩⟩

/-- The chunk size is the length field's width in bits, which `finish` rounds up to, and the
padding is one `new` accepts. -/
def Params.Valid (p : Params) : Prop :=
  p.chunkSize = (if p.lengthPadding.int128 then 128 else 64) ∧
    (p.lengthPadding.bigEndian = true ∨ p.lengthPadding.int128 = false)

instance (p : Params) : Decidable p.Valid := inferInstanceAs (Decidable (_ ∧ _))

theorem params_valid : ∀ p ∈ [sha1Params, sha256Params, sha512Params, md5Params], p.Valid := by
  decide

theorem LengthPadding.width_bounds (lp : LengthPadding) : 8 ≤ lp.width ∧ lp.width ≤ 16 := by
  unfold LengthPadding.width
  split <;> omega

theorem Params.Valid.chunkSize_bounds {p : Params} (hp : p.Valid) :
    0 < p.chunkSize ∧ p.chunkSize ≤ 128 := by
  rw [hp.1]
  split <;> omega

/-! ## Blocks -/

@[simp] theorem length_blocks (n : Nat) (data : List UInt8) :
    (blocks n data).length = data.length / n := by
  simp [blocks]

theorem blocks_of_length_lt {n : Nat} {data : List UInt8} (h : data.length < n) :
    blocks n data = [] := by
  simp [blocks, Nat.div_eq_of_lt h]

theorem blocks_of_length_eq {n : Nat} {data : List UInt8} (hn : 0 < n) (h : data.length = n) :
    blocks n data = [data] := by
  simp [blocks, h, Nat.div_self hn, List.take_of_length_le (le_of_eq h)]

/-- After a message of whole blocks, the blocks of what follows are blocks of the whole. -/
theorem blocks_append {n : Nat} {a : List UInt8} (ha : a.length % n = 0) (b : List UInt8) :
    blocks n (a ++ b) = blocks n a ++ blocks n b := by
  rcases Nat.eq_zero_or_pos n with rfl | hn
  · simp [blocks]
  have hdiv : a.length / n * n = a.length := Nat.div_mul_cancel (Nat.dvd_of_mod_eq_zero ha)
  have hlen : (a ++ b).length / n = a.length / n + b.length / n := by
    rw [List.length_append, Nat.add_div_of_dvd_right (Nat.dvd_of_mod_eq_zero ha)]
  simp only [blocks, hlen, List.range_add, List.map_append, List.map_map]
  congr 1
  · -- a block before the end of `a` lies inside `a`
    apply List.map_congr_left
    intro i hi
    have hin : i * n + n ≤ a.length := by
      rw [← hdiv, ← Nat.succ_mul]
      exact Nat.mul_le_mul_right n (List.mem_range.mp hi)
    have hfit : n ≤ (a.drop (i * n)).length := by
      rw [List.length_drop]
      omega
    rw [List.drop_append_of_le_length (by omega), List.take_append_of_le_length hfit]
  · apply List.map_congr_left
    intro j _
    simp only [Function.comp, Nat.add_mul, hdiv, List.drop_length_add_append]

/-- The bytes after the last whole block of `x`. -/
def partialBlock (n : Nat) (x : List UInt8) : List UInt8 := x.drop (x.length / n * n)

@[simp] theorem length_partialBlock (n : Nat) (x : List UInt8) :
    (partialBlock n x).length = x.length % n := by
  have := Nat.div_add_mod' x.length n
  simp only [partialBlock, List.length_drop]
  omega

theorem partialBlock_of_mod_eq_zero {n : Nat} {x : List UInt8} (h : x.length % n = 0) :
    partialBlock n x = [] := by
  rw [← List.length_eq_zero_iff, length_partialBlock, h]

/-- The partial block is what `update` stashes: `data[data.len() - r..]`. -/
theorem partialBlock_eq_drop (n : Nat) (x : List UInt8) :
    partialBlock n x = x.drop (x.length - x.length % n) := by
  have := Nat.div_add_mod' x.length n
  rw [partialBlock]
  congr 1
  omega

/-- Bytes that do not complete the partial block extend it. -/
theorem partialBlock_append {n : Nat} {x y : List UInt8} (h : x.length % n + y.length < n) :
    partialBlock n (x ++ y) = partialBlock n x ++ y := by
  have := Nat.div_add_mod' x.length n
  have hdiv : (x ++ y).length / n = x.length / n := by
    apply Nat.div_eq_of_lt_le
    · rw [List.length_append]; omega
    · rw [List.length_append, Nat.succ_mul]; omega
  rw [partialBlock, partialBlock, hdiv, List.drop_append_of_le_length (Nat.div_mul_le_self _ _)]

theorem partialBlock_append_of_mod_eq_zero {n : Nat} {x : List UInt8} (hx : x.length % n = 0)
    (y : List UInt8) : partialBlock n (x ++ y) = partialBlock n y := by
  have hdiv : x.length / n * n = x.length := Nat.div_mul_cancel (Nat.dvd_of_mod_eq_zero hx)
  rw [partialBlock, partialBlock, List.length_append,
    Nat.add_div_of_dvd_right (Nat.dvd_of_mod_eq_zero hx), Nat.add_mul, hdiv,
    List.drop_length_add_append]

/-- The blocks of `x ++ y` are those of `x`, then those of `x`'s partial block followed by `y`. -/
theorem blocks_append_partialBlock {n : Nat} (hn : 0 < n) (x y : List UInt8) :
    blocks n (x ++ y) = blocks n x ++ blocks n (partialBlock n x ++ y) := by
  have hsplit := List.take_append_drop (x.length / n * n) x
  have hwhole : (x.take (x.length / n * n)).length % n = 0 := by
    rw [List.length_take, Nat.min_eq_left (Nat.div_mul_le_self _ _), Nat.mul_mod_left]
  have hpart : blocks n (x.drop (x.length / n * n)) = [] := by
    apply blocks_of_length_lt
    rw [← partialBlock, length_partialBlock]
    exact Nat.mod_lt _ hn
  have hx : blocks n x = blocks n (x.take (x.length / n * n)) := by
    conv_lhs => rw [← hsplit]
    rw [blocks_append hwhole, hpart, List.append_nil]
  calc blocks n (x ++ y)
      = blocks n (x.take (x.length / n * n) ++ (partialBlock n x ++ y)) := by
        rw [← List.append_assoc, partialBlock, hsplit]
    _ = blocks n x ++ blocks n (partialBlock n x ++ y) := by rw [blocks_append hwhole, hx]

/-! ## Copies into the pending chunk -/

theorem length_copyInto {dst src : List UInt8} {start : Nat}
    (h : start + src.length ≤ dst.length) : (copyInto dst start src).length = dst.length := by
  simp only [copyInto, List.length_append, List.length_take, List.length_drop]
  omega

theorem take_copyInto {dst : List UInt8} {start : Nat} (h : start ≤ dst.length)
    (src : List UInt8) :
    (copyInto dst start src).take (start + src.length) = dst.take start ++ src := by
  rw [copyInto, List.take_left' (by simp; omega)]

/-- A copy that reaches the end of `dst` leaves nothing of it after. -/
theorem copyInto_of_length_eq {dst src : List UInt8} {start : Nat}
    (h : start + src.length = dst.length) : copyInto dst start src = dst.take start ++ src := by
  rw [copyInto, h, List.drop_length, List.append_nil]

theorem usizeAdd_of_lt {a b : Nat} (h : a + b < 2 ^ 64) : usizeAdd a b = .ok (a + b) := by
  rw [usizeAdd, if_pos h]

namespace MerkleDamgard

variable {S : Type} (chunkSize : Nat) (f : List UInt8 → S → S)

@[simp] theorem compress_nil (hash : S) : compress f hash [] = hash := rfl

theorem compress_append (hash : S) (a b : List (List UInt8)) :
    compress f hash (a ++ b) = compress f (compress f hash a) b := List.foldl_append

/-- What `update` keeps, for the message `x` given to the hasher since `new`. -/
structure Inv (iv : S) (lp : LengthPadding) (x : List UInt8) (m : MerkleDamgard S) : Prop where
  length_eq : m.length = x.length
  /-- `f` has seen exactly the whole blocks of `x`. -/
  hash_eq : m.hash = compress f iv (blocks chunkSize x)
  length_pendingChunk : m.pendingChunk.length = chunkSize
  /-- The pending chunk starts with the bytes after them. -/
  take_pendingChunk : m.pendingChunk.take (x.length % chunkSize) = partialBlock chunkSize x
  lengthPadding_eq : m.lengthPadding = lp

variable {chunkSize f} {iv : S} {lp : LengthPadding} {x data : List UInt8} {m : MerkleDamgard S}

theorem new_inv (hlp : lp.bigEndian = true ∨ lp.int128 = false) :
    ∃ m, new chunkSize iv lp = .ok m ∧ Inv chunkSize f iv lp [] m := by
  have hok : (!lp.bigEndian && lp.int128) = false := by
    rcases hlp with h | h <;> simp [h]
  refine ⟨_, by rw [new, if_neg (by simp [hok])], ?_⟩
  exact
    { length_eq := rfl
      hash_eq := by simp [blocks]
      length_pendingChunk := List.length_replicate
      take_pendingChunk := by simp [partialBlock]
      lengthPadding_eq := rfl }

theorem absorb_eq (h : m.length + data.length < 2 ^ 64) :
    absorb chunkSize f m data = .ok { m with
      hash := compress f m.hash (blocks chunkSize data)
      pendingChunk := copyInto m.pendingChunk 0 (partialBlock chunkSize data)
      length := m.length + data.length } := by
  simp only [absorb, usizeAdd_of_lt h, partialBlock_eq_drop, bind, Except.bind, pure, Except.pure]

/-- From a block boundary, `absorb` compresses the whole blocks of `data` and stashes the rest. -/
theorem absorb_inv (hN : 0 < chunkSize) (h : Inv chunkSize f iv lp x m)
    (hx : x.length % chunkSize = 0) (hlen : x.length + data.length < 2 ^ 64) :
    ∃ m', absorb chunkSize f m data = .ok m' ∧ Inv chunkSize f iv lp (x ++ data) m' := by
  have hr : 0 + (partialBlock chunkSize data).length ≤ m.pendingChunk.length := by
    have := Nat.mod_lt data.length hN
    rw [length_partialBlock, h.length_pendingChunk]
    omega
  refine ⟨_, absorb_eq (by rw [h.length_eq]; exact hlen), ?_⟩
  constructor
  · simp [h.length_eq]
  · rw [h.hash_eq, ← compress_append, blocks_append hx]
  · rw [length_copyInto hr, h.length_pendingChunk]
  · have hmod : (x ++ data).length % chunkSize = 0 + (partialBlock chunkSize data).length := by
      rw [List.length_append, ← Nat.mod_add_mod, hx, length_partialBlock, Nat.zero_add,
        Nat.zero_add]
    rw [hmod, take_copyInto (Nat.zero_le _), List.take_zero, List.nil_append,
      partialBlock_append_of_mod_eq_zero hx]
  · exact h.lengthPadding_eq

/-- Bytes that leave the pending chunk incomplete are copied in after what it holds. -/
theorem fill_inv (h : Inv chunkSize f iv lp x m) {y : List UInt8}
    (hy : x.length % chunkSize + y.length < chunkSize) :
    Inv chunkSize f iv lp (x ++ y) { m with
      pendingChunk := copyInto m.pendingChunk (x.length % chunkSize) y
      length := x.length + y.length } := by
  have hN : 0 < chunkSize := by omega
  have hfit : x.length % chunkSize + y.length ≤ m.pendingChunk.length := by
    rw [h.length_pendingChunk]; omega
  constructor
  · simp
  · have hshort : (partialBlock chunkSize x ++ y).length < chunkSize := by simpa using hy
    rw [h.hash_eq, blocks_append_partialBlock hN, blocks_of_length_lt hshort, List.append_nil]
  · exact (length_copyInto hfit).trans h.length_pendingChunk
  · rw [List.length_append, add_mod_of_mod_add_lt hy, take_copyInto (by omega),
      h.take_pendingChunk, partialBlock_append hy]
  · exact h.lengthPadding_eq

/-- Bytes that complete the pending chunk make it a block, which is compressed. -/
theorem complete_inv (hN : 0 < chunkSize) (h : Inv chunkSize f iv lp x m) {y : List UInt8}
    (hy : x.length % chunkSize + y.length = chunkSize) :
    Inv chunkSize f iv lp (x ++ y) { m with
      pendingChunk := copyInto m.pendingChunk (x.length % chunkSize) y
      length := x.length + y.length
      hash := f (copyInto m.pendingChunk (x.length % chunkSize) y) m.hash } := by
  have hblock :
      copyInto m.pendingChunk (x.length % chunkSize) y = partialBlock chunkSize x ++ y := by
    rw [copyInto_of_length_eq (by rw [h.length_pendingChunk, hy]), h.take_pendingChunk]
  have hmod : (x ++ y).length % chunkSize = 0 := by
    rw [List.length_append, add_mod_of_mod_add_eq hy]
  constructor
  · simp
  · have hfull : (partialBlock chunkSize x ++ y).length = chunkSize := by simpa using hy
    dsimp only
    rw [hblock, h.hash_eq, blocks_append_partialBlock hN, blocks_of_length_eq hN hfull,
      compress_append]
    rfl
  · dsimp only
    rw [hblock, List.length_append, length_partialBlock, hy]
  · rw [hmod, List.take_zero, partialBlock_of_mod_eq_zero hmod]
  · exact h.lengthPadding_eq

/-- Every `update` keeps `Inv`, with its bytes appended to the message, unless the length
overflows. -/
theorem update_inv (hN : 0 < chunkSize) (h : Inv chunkSize f iv lp x m)
    (hlen : x.length + data.length < 2 ^ 64) :
    ∃ m', update chunkSize f m data = .ok m' ∧ Inv chunkSize f iv lp (x ++ data) m' := by
  unfold update
  dsimp only
  rw [h.length_eq]
  split_ifs with hrem
  · exact absorb_inv hN h hrem hlen
  · by_cases hshort : x.length % chunkSize + data.length < chunkSize
    · -- `data` does not complete the pending chunk: `update` returns early
      have hn : min (chunkSize - x.length % chunkSize) data.length = data.length := by omega
      rw [hn, List.take_of_length_le le_rfl, usizeAdd_of_lt hlen]
      dsimp only
      rw [if_pos (by rw [add_mod_of_mod_add_lt hshort]; omega)]
      exact ⟨_, rfl, fill_inv h hshort⟩
    · -- its first `n` bytes complete it, and the rest starts at a block boundary
      set n := chunkSize - x.length % chunkSize
      have hr := Nat.mod_lt x.length hN
      obtain ⟨y, rest, rfl, hyn⟩ : ∃ y rest, data = y ++ rest ∧ y.length = n :=
        ⟨data.take n, data.drop n, (List.take_append_drop n data).symm, by simp; omega⟩
      have hy : x.length % chunkSize + y.length = chunkSize := by omega
      simp only [List.length_append] at hlen hshort
      rw [show min n (y ++ rest).length = n by simp; omega, List.take_left' hyn,
        List.drop_left' hyn, usizeAdd_of_lt (by omega), ← hyn]
      dsimp only
      rw [if_neg (by rw [add_mod_of_mod_add_eq hy]; simp)]
      obtain ⟨m', hm', hinv⟩ := absorb_inv hN (complete_inv hN h hy)
        (by rw [List.length_append, add_mod_of_mod_add_eq hy])
        (show (x ++ y).length + rest.length < 2 ^ 64 by simp; omega)
      exact ⟨m', hm', by rwa [List.append_assoc] at hinv⟩

/-- The run lemma: a sequence of `update`s appends its parts to the message. -/
theorem foldlM_update_inv (hN : 0 < chunkSize) (parts : List (List UInt8)) :
    ∀ {x : List UInt8} {m : MerkleDamgard S}, Inv chunkSize f iv lp x m →
      x.length + parts.flatten.length < 2 ^ 64 →
      ∃ m', parts.foldlM (update chunkSize f) m = .ok m' ∧
        Inv chunkSize f iv lp (x ++ parts.flatten) m' := by
  induction parts with
  | nil => exact fun h _ => ⟨_, rfl, by simpa using h⟩
  | cons part parts ih =>
    intro x m h hlen
    simp only [List.flatten_cons, List.length_append] at hlen
    obtain ⟨m₁, hm₁, h₁⟩ := update_inv hN h (show x.length + part.length < 2 ^ 64 by omega)
    obtain ⟨m₂, hm₂, h₂⟩ := ih h₁ (by simp only [List.length_append]; omega)
    refine ⟨m₂, ?_, by simpa using h₂⟩
    simp only [List.foldlM_cons, hm₁, bind, Except.bind, hm₂]

end MerkleDamgard

/-! ## The padding `finish` appends -/

@[simp] theorem length_field (lp : LengthPadding) (bits : Nat) :
    (lp.field bits).length = lp.width := by
  unfold LengthPadding.field LengthPadding.width
  split_ifs <;> simp

theorem length_padSuffix (n : Nat) (lp : LengthPadding) (len : Nat) :
    (padSuffix n lp len).length = 1 + lp.width + (n - (len + 1 + lp.width) % n) % n := by
  simp only [padSuffix, List.length_append, List.length_cons, List.length_replicate, length_field]
  omega

/-- `pad x` ends on a block boundary. -/
theorem length_pad_mod {n : Nat} (hn : 0 < n) (lp : LengthPadding) (x : List UInt8) :
    (pad n lp x).length % n = 0 := by
  calc (pad n lp x).length % n
      = (x.length + 1 + lp.width + blockSizeRemainder n (x.length + 1 + lp.width)) % n := by
        rw [pad, List.length_append, length_padSuffix, blockSizeRemainder_eq hn]
        congr 1
        omega
    _ = 0 := add_blockSizeRemainder_mod hn _

/-- `num_extra` is the length of the padding, when the chunk size is the field's width in bits. -/
theorem numExtra_eq {p : Params} (hp : p.Valid) (len : Nat) :
    MerkleDamgard.numExtra p.lengthPadding len =
      (padSuffix p.chunkSize p.lengthPadding len).length := by
  have hceil : ceilDiv (1 + if p.lengthPadding.int128 then 128 else 64) 8 =
      1 + p.lengthPadding.width := by
    unfold LengthPadding.width
    split <;> rfl
  rw [MerkleDamgard.numExtra, length_padSuffix, hceil, ← hp.1,
    blockSizeRemainder_eq hp.chunkSize_bounds.1, ← Nat.add_assoc]
  omega

/-- Below `2 ^ 64`, the length field is those 8 bytes, after 8 zero bytes when it is 128 bits
wide. -/
theorem field_eq {lp : LengthPadding} (hlp : lp.bigEndian = true ∨ lp.int128 = false)
    {bits : Nat} (h : bits < 2 ^ 64) :
    lp.field bits = List.replicate (lp.width - 8) 0 ++ MerkleDamgard.lengthBytes lp bits := by
  rcases lp with ⟨be, _ | _⟩
  · simp [LengthPadding.field, LengthPadding.width, MerkleDamgard.lengthBytes]
  · obtain rfl : be = true := by simpa using hlp
    simp only [LengthPadding.field, LengthPadding.width, MerkleDamgard.lengthBytes, if_true]
    exact toBe_of_lt 8 (show bits < 256 ^ 8 from h)

/-- The first `k` bytes of `finish`'s buffer: `0x80`, zeros, and the 8 bytes ending at `k`. -/
theorem take_finishBuffer {k L : Nat} (hk : 9 ≤ k) (hL : k ≤ L) {bytes : List UInt8}
    (hb : bytes.length = 8) :
    (copyInto (copyInto (List.replicate L 0) 0 [0x80]) (k - 8) bytes).take k =
      0x80 :: List.replicate (k - 9) 0 ++ bytes := by
  have hfirst : copyInto (List.replicate L 0) 0 [0x80] = 0x80 :: List.replicate (L - 1) 0 := by
    simp [copyInto, List.drop_replicate]
  have hprefix : (0x80 :: List.replicate (L - 1) 0).take (k - 8) =
      0x80 :: List.replicate (k - 9) (0 : UInt8) := by
    rw [show k - 8 = k - 9 + 1 by omega, List.take_succ_cons, List.take_replicate,
      Nat.min_eq_left (by omega)]
  rw [hfirst, copyInto, hprefix, List.take_left' (by simp; omega)]

/-- The padding is `finish`'s buffer cut at its length. -/
theorem padSuffix_eq_buffer {n : Nat} {lp : LengthPadding}
    (hlp : lp.bigEndian = true ∨ lp.int128 = false) {len : Nat} (h : 8 * len < 2 ^ 64) :
    padSuffix n lp len =
      0x80 :: List.replicate ((padSuffix n lp len).length - 9) 0 ++
        MerkleDamgard.lengthBytes lp (8 * len) := by
  have hw := lp.width_bounds.1
  rw [length_padSuffix, padSuffix, field_eq hlp h, ← List.append_assoc, List.cons_append,
    ← List.replicate_add]
  congr 3
  omega

namespace MerkleDamgard

variable {S : Type} {f : List UInt8 → S → S} {iv : S} {x : List UInt8} {m : MerkleDamgard S}

/-- From `2 ^ 61` bytes on, the length in bits overflows `usize`. -/
theorem finish_of_overflow {chunkSize : Nat} (h : 2 ^ 64 ≤ 8 * m.length) :
    finish chunkSize f m = .error "attempt to multiply with overflow" := by
  simp only [finish, if_pos h]
  rfl

/-- Below that, `finish` folds `f` over the blocks of the padded message. -/
theorem finish_eq_compress_pad {p : Params} (hp : p.Valid)
    (h : Inv p.chunkSize f iv p.lengthPadding x m) (hlen : 8 * x.length < 2 ^ 64) :
    finish p.chunkSize f m =
      .ok (compress f iv (blocks p.chunkSize (pad p.chunkSize p.lengthPadding x))) := by
  have hN := hp.chunkSize_bounds
  have hw := p.lengthPadding.width_bounds
  set k := (padSuffix p.chunkSize p.lengthPadding x.length).length with hk
  have hz := Nat.mod_lt (p.chunkSize - (x.length + 1 + p.lengthPadding.width) % p.chunkSize) hN.1
  have hk9 : 9 ≤ k := by rw [hk, length_padSuffix]; omega
  have hkL : k ≤ p.chunkSize + 17 := by rw [hk, length_padSuffix]; omega
  have hextra : numExtra p.lengthPadding x.length = k := numExtra_eq hp x.length
  have hbuf : (copyInto (copyInto (List.replicate (p.chunkSize + 17) 0) 0 [0x80]) (k - 8)
      (lengthBytes p.lengthPadding (8 * x.length))).take k =
        padSuffix p.chunkSize p.lengthPadding x.length := by
    rw [take_finishBuffer hk9 hkL (by unfold lengthBytes; split <;> simp),
      ← padSuffix_eq_buffer hp.2 hlen]
  obtain ⟨m', hm', hinv⟩ := update_inv hN.1 h (show x.length + k < 2 ^ 64 by omega)
  have hmod : m'.length % p.chunkSize = 0 := by
    rw [hinv.length_eq]; exact length_pad_mod hN.1 _ x
  simp only [finish, h.length_eq, h.lengthPadding_eq, if_neg (not_le.mpr hlen), hextra,
    if_neg (not_lt.mpr hkL), hbuf, hm', bind, Except.bind, hmod, ne_eq, not_true_eq_false,
    if_false, pure, Except.pure, hinv.hash_eq]
  rfl

/-- However a message is cut into `update`s, `finish` after them folds the compression function
from the IV over the blocks of the padded message, for each instantiation, as long as the
message's length in bits fits in a `usize`. -/
theorem finish_updates_eq_compress_pad (p : Params)
    (hp : p ∈ [sha1Params, sha256Params, sha512Params, md5Params]) {S : Type}
    (f : List UInt8 → S → S) (iv : S) (parts : List (List UInt8))
    (hlen : 8 * parts.flatten.length < 2 ^ 64) :
    ∃ m, (new p.chunkSize iv p.lengthPadding >>= fun m =>
        parts.foldlM (update p.chunkSize f) m) = .ok m ∧
      finish p.chunkSize f m =
        .ok (compress f iv
          (blocks p.chunkSize (pad p.chunkSize p.lengthPadding parts.flatten))) := by
  have hvalid : p.Valid := params_valid p hp
  obtain ⟨m₀, hm₀, h₀⟩ : ∃ m₀, new p.chunkSize iv p.lengthPadding = .ok m₀ ∧
      Inv p.chunkSize f iv p.lengthPadding [] m₀ := new_inv hvalid.2
  obtain ⟨m, hm, h⟩ := foldlM_update_inv hvalid.chunkSize_bounds.1 parts h₀
    (by simp only [List.length_nil]; omega)
  refine ⟨m, by simp only [hm₀, bind, Except.bind, hm], ?_⟩
  rw [List.nil_append] at h
  exact finish_eq_compress_pad hvalid h hlen

/-- SHA-256 with a compression function that counts bytes, over a message given in two
`update`s. -/
theorem finish_updates_sha256_two_parts :
    sha256Params ∈ [sha1Params, sha256Params, sha512Params, md5Params] ∧
      8 * ([[1, 2], [3]] : List (List UInt8)).flatten.length < 2 ^ 64 ∧
      ∃ m, (new sha256Params.chunkSize 0 sha256Params.lengthPadding >>= fun m =>
          ([[1, 2], [3]] : List (List UInt8)).foldlM
            (update sha256Params.chunkSize fun b h => h + b.length) m) = .ok m ∧
        finish sha256Params.chunkSize (fun b h => h + b.length) m =
          .ok (compress (fun b h => h + b.length) 0 (blocks sha256Params.chunkSize
            (pad sha256Params.chunkSize sha256Params.lengthPadding
              ([[1, 2], [3]] : List (List UInt8)).flatten))) :=
  ⟨by decide, by decide,
    finish_updates_eq_compress_pad sha256Params (by decide) (fun b h => h + b.length) 0
      [[1, 2], [3]] (by decide)⟩

/-- SHA-384 and SHA-512 pad with a 128-bit length, yet a message of `2 ^ 61` bytes, given in one
`update`, makes `finish` panic, whatever the compression function. -/
theorem finish_overflows_at_two_pow_61 {S : Type} (f : List UInt8 → S → S) (iv : S) :
    ∃ m, (new sha512Params.chunkSize iv sha512Params.lengthPadding >>= fun m =>
        update sha512Params.chunkSize f m (List.replicate (2 ^ 61) 0)) = .ok m ∧
      finish sha512Params.chunkSize f m = .error "attempt to multiply with overflow" := by
  obtain ⟨m₀, hm₀, h₀⟩ : ∃ m₀,
      new sha512Params.chunkSize iv sha512Params.lengthPadding = .ok m₀ ∧
        Inv sha512Params.chunkSize f iv sha512Params.lengthPadding [] m₀ := new_inv (by decide)
  have hlen : ([] : List UInt8).length + (List.replicate (2 ^ 61) (0 : UInt8)).length <
      2 ^ 64 := by
    rw [List.length_nil, List.length_replicate]
    norm_num
  obtain ⟨m, hm, h⟩ := update_inv (by decide) h₀ hlen
  have hover : 2 ^ 64 ≤ 8 * m.length := by
    rw [h.length_eq, List.nil_append, List.length_replicate]
    norm_num
  refine ⟨m, ?_, finish_of_overflow hover⟩
  rw [hm₀]
  exact hm

/-- The overflow with the byte-counting compression function of `finish_updates_sha256_two_parts`. -/
theorem finish_panics_at_two_pow_61_bytes :
    ∃ m, (new sha512Params.chunkSize 0 sha512Params.lengthPadding >>= fun m =>
        update sha512Params.chunkSize (fun b h => h + b.length) m (List.replicate (2 ^ 61) 0)) =
          .ok m ∧
      finish sha512Params.chunkSize (fun b h => h + b.length) m =
        .error "attempt to multiply with overflow" :=
  finish_overflows_at_two_pow_61 _ 0

end MerkleDamgard

end Dacha.Crypto
