import Mathlib
import Dacha.Hpack.StaticTables

/-!
# HPACK integers and string literals (`http/src/hpack/primitive.rs`)

| here | there |
| --- | --- |
| `serializeVarint`, `serializeVarintLoop` | `serialize_varint` (`:20-44`), RFC 7541 5.1 |
| `parseVarint`, `parseVarintLoop` | `parse_varint` (`:47-82`) |
| `serializeStringLiteral` | `serialize_string_literal` (`:84-103`), RFC 7541 5.2 |
| `parseStringLiteral`, `huffmanDecodeLoop` | `parse_string_literal` (`:106-168`) |
| `beU8`, `takeExact` | `parsing::binary::be_u8`, `parsing::take_exact`; both fail with `Incomplete` |
| `orFirst` | `out[first_i] |= ..`: bits set in the first byte a serializer wrote |

Serializers return the bytes they append to `out`. Errors are their `err_msg` texts.
`usize` is 64 bits wide. The asserts on `prefix_bits` never fire, since every caller passes a
constant between 4 and 7, so they are left out.

The decoding loop of `parse_string_literal` reads codes from a `BitReader` over the raw bytes,
taking the bits of each byte from the most significant one. Here the reader is the list
`bytesBits raw` of bits still to come. The loop ends when the reader runs dry, and
`into_unconsumed_bits` is then what followed the last whole code. The check
`raw_data.len() == cursor.position()` always holds at that point, because the reader runs dry
only once the cursor is at the end, so it is not modelled.

Round trips: what `serializeVarint` writes, with any flag bits above the prefix,
`parseVarint` reads back (`parseVarint_serializeVarint`); what `serializeStringLiteral` writes,
Huffman-coded or not, `parseStringLiteral` reads back (`parseStringLiteral_serializeStringLiteral`).

The other way, `rfcInteger` is the value RFC 7541 5.1 gives an integer's bytes, without bound.
What `parseVarint` accepts is such an integer, and its value is the RFC value modulo `2 ^ 64`
(`parseVarint_sound`): `checked_shl` refuses only shifts of 64 bits or more, so at the tenth
continuation byte, shifted by 63, the bits above bit 63 are dropped and a value past `usize::MAX`
is returned cut instead of refused (`parseVarint_truncates_tenth_byte`).
-/

namespace Dacha.Hpack

open Dacha.MsbBits Dacha.Compression HuffmanNode

/-- `ceil_div(8 * size_of::<usize>(), 7)`: the most continuation bytes a 64-bit varint takes. -/
def MAX_VARINT_EXTRA_BYTES : Nat := 10

def beU8 : List UInt8 → Except String (UInt8 × List UInt8)
  | [] => .error "Incomplete"
  | b :: rest => .ok (b, rest)

/-- `take_exact(n)`. -/
def takeExact (n : Nat) (input : List UInt8) : Except String (List UInt8 × List UInt8) :=
  if input.length < n then .error "Incomplete" else .ok (input.take n, input.drop n)

/-- Sets `mask` in the first byte of what a serializer wrote. -/
def orFirst (mask : UInt8) : List UInt8 → List UInt8
  | [] => []
  | b :: bs => (b ||| mask) :: bs

/-! ## Integers -/

/-- The loop of `serialize_varint`: seven bits a byte, low bits first, the top bit set on every
byte but the last. The loop runs fewer times than the value, which therefore serves as fuel. -/
def serializeVarintLoop : (fuel value : Nat) → List UInt8
  | fuel + 1, value =>
    if value ≥ 1 <<< 7 then
      (UInt8.ofNat value ||| ((1 : UInt8) <<< 7)) :: serializeVarintLoop fuel (value >>> 7)
    else [UInt8.ofNat value]
  | 0, value => [UInt8.ofNat value]

def serializeVarint (value prefixBits : Nat) : List UInt8 :=
  let limit := (1 <<< prefixBits) - 1
  if value < limit then [UInt8.ofNat value]
  else UInt8.ofNat limit :: serializeVarintLoop (value - limit) (value - limit)

/-- The loop of `parse_varint`, with `remaining` turns left and `i` the next turn's number.
`checked_shl` never fails here, as the shift stays below 64, but it drops the bits shifted past
bit 63. `checked_add` fails past `usize::MAX`. -/
def parseVarintLoop (value i : Nat) : (remaining : Nat) → List UInt8 →
    Except String (Nat × List UInt8)
  | 0, _ => .error "Too large to fit in usize"
  | _ + 1, [] => .error "Incomplete"
  | remaining + 1, nextByte :: input =>
    let v := ((nextByte.toNat &&& (1 <<< 7) - 1) <<< (7 * i)) % 2 ^ 64
    if 2 ^ 64 ≤ value + v then .error "Too large to fit in usize"
    else if nextByte.toNat &&& 1 <<< 7 = 0 then .ok (value + v, input)
    else parseVarintLoop (value + v) (i + 1) remaining input

def parseVarint (input : List UInt8) (prefixBits : Nat) : Except String (Nat × List UInt8) :=
  let limit := (1 <<< prefixBits) - 1
  match input with
  | [] => .error "Incomplete"
  | firstByte :: input =>
    let value := firstByte.toNat &&& limit
    if value ≠ limit then .ok (value, input)
    else parseVarintLoop value 0 MAX_VARINT_EXTRA_BYTES input

/-! ## String literals -/

/-- `serialize_string_literal`: Huffman-coded when allowed, longer than five bytes and shorter
once coded. -/
def serializeStringLiteral (data : List UInt8) (maybeCompress : Bool) : List UInt8 :=
  let plain := serializeVarint data.length 7 ++ data
  if maybeCompress && decide (data.length > 5) then
    let compressed := huffmanEncode data
    if compressed.length < data.length then
      orFirst ((1 : UInt8) <<< 7) (serializeVarint compressed.length 7) ++ compressed
    else plain
  else plain

/-- The decoding loop of `parse_string_literal`: the bytes of the codes read, and the bits after
the last whole code. Each code read takes a bit, so the fuel `bits.length + 1` never runs out. -/
def huffmanDecodeLoop (tree : HuffmanTree) : (fuel : Nat) → List Bool → List UInt8 →
    Except String (List UInt8 × List Bool)
  | 0, bits, out => .ok (out, bits)
  | fuel + 1, bits, out =>
    match tree.readCode bits with
    | .ok (value, rest) => huffmanDecodeLoop tree fuel rest (out ++ [UInt8.ofNat value])
    | .error .notEnoughBits => .ok (out, bits)
    | .error (.msg e) => .error e

/-- The Huffman branch of `parse_string_literal`. `HUFFMAN_TREE` failing to build would be a
panic; it builds (`huffmanTree_spec`). -/
def huffmanDecode (rawData : List UInt8) : Except String (List UInt8) := do
  let tree ← HUFFMAN_TREE
  let bits := bytesBits rawData
  let (out, padding) ← huffmanDecodeLoop tree (bits.length + 1) bits []
  if padding.length > 7 then throw "Too much padding in string literal"
  -- the padding must be the leading ones of the EOS code
  if !padding.all id then throw "Invalid padding"
  pure out

def parseStringLiteral (input : List UInt8) : Except String (List UInt8 × List UInt8) := do
  let (firstByte, _) ← beU8 input
  let huffmanCoded := firstByte &&& ((1 : UInt8) <<< 7) != 0
  let (len, input) ← parseVarint input 7
  let (rawData, input) ← takeExact len input
  let data ← if huffmanCoded then huffmanDecode rawData else pure rawData
  pure (data, input)

/-! ## Bytes with a flag bit -/

theorem and_128_of_lt {x : Nat} (h : x < 128) : x &&& 128 = 0 := by
  rw [show (128 : Nat) = 2 ^ 7 by norm_num, Nat.and_two_pow,
    Nat.testBit_lt_two_pow (show x < 2 ^ 7 by omega)]
  rfl

theorem or_128_and_128_ne_zero (x : Nat) : (x ||| 128) &&& 128 ≠ 0 := by
  rw [show (128 : Nat) = 2 ^ 7 by norm_num, Nat.and_two_pow, Nat.testBit_or,
    Nat.testBit_two_pow_self]
  simp

theorem or_128_and_127 (x : Nat) : (x ||| 128) &&& 127 = x % 128 := by
  rw [show (127 : Nat) = 2 ^ 7 - 1 by norm_num, Nat.and_two_pow_sub_one_eq_mod,
    Nat.or_mod_two_pow]
  simp

theorem and_127_of_lt {x : Nat} (h : x < 128) : x &&& 127 = x := by
  rw [show (127 : Nat) = 2 ^ 7 - 1 by norm_num, Nat.and_two_pow_sub_one_eq_mod,
    Nat.mod_eq_of_lt (by omega)]

theorem top_bit_of_or (b : UInt8) : ((b ||| (1 : UInt8) <<< 7) &&& (1 : UInt8) <<< 7 != 0) = true := by
  rw [show (1 : UInt8) <<< 7 = 128 by decide, bne_iff_ne, ne_eq, ← UInt8.toNat_inj,
    UInt8.toNat_and, UInt8.toNat_or]
  exact or_128_and_128_ne_zero _

theorem top_bit_of_lt {b : UInt8} (h : b.toNat < 128) : (b &&& (1 : UInt8) <<< 7 != 0) = false := by
  rw [show (1 : UInt8) <<< 7 = 128 by decide, bne_eq_false_iff_eq, ← UInt8.toNat_inj,
    UInt8.toNat_and]
  exact and_128_of_lt h

@[simp] theorem orFirst_zero (l : List UInt8) : orFirst 0 l = l := by
  cases l <;> simp [orFirst]

theorem or_mask_and_limit {x m p : Nat} (hx : x < 2 ^ p) (hm : m % 2 ^ p = 0) :
    (x ||| m) &&& 2 ^ p - 1 = x := by
  rw [Nat.and_two_pow_sub_one_eq_mod, Nat.or_mod_two_pow, hm, Nat.or_zero, Nat.mod_eq_of_lt hx]

/-! ## Integer round trip -/

theorem limit_eq (p : Nat) : (1 <<< p) - 1 = 2 ^ p - 1 := by rw [Nat.shiftLeft_eq, Nat.one_mul]

/-- The loop's bytes read back, from any turn on: the value so far grows by `v` shifted to the
turn's place. -/
theorem parseVarintLoop_serializeVarintLoop (rest : List UInt8) :
    ∀ (remaining fuel v acc i : Nat), v ≤ fuel → v < 128 ^ remaining → 0 < remaining →
      acc + v * 2 ^ (7 * i) < 2 ^ 64 →
      parseVarintLoop acc i remaining (serializeVarintLoop fuel v ++ rest) =
        .ok (acc + v * 2 ^ (7 * i), rest)
  | 0, _, _, _, _, _, _, hr, _ => absurd hr (Nat.lt_irrefl 0)
  | remaining + 1, fuel, v, acc, i, hfuel, hv, _, hfit => by
    have h128 : (1 <<< 7 : Nat) = 128 := rfl
    by_cases hbig : 128 ≤ v
    · -- a continuation byte: the low seven bits of `v`, with the top bit set
      obtain ⟨fuel, rfl⟩ : ∃ f, fuel = f + 1 := ⟨fuel - 1, by omega⟩
      have hbyte : (UInt8.ofNat v ||| ((1 : UInt8) <<< 7)).toNat = v % 256 ||| 128 := by
        rw [UInt8.toNat_or]; simp
      have hdigit : (v % 256 ||| 128) &&& 127 = v % 128 := by
        rw [or_128_and_127, Nat.mod_mod_of_dvd _ (by norm_num)]
      have hpart : v % 128 * 2 ^ (7 * i) ≤ v * 2 ^ (7 * i) :=
        Nat.mul_le_mul_right _ (Nat.mod_le v 128)
      have hshift : ((v % 128) <<< (7 * i)) % 2 ^ 64 = v % 128 * 2 ^ (7 * i) := by
        rw [Nat.shiftLeft_eq, Nat.mod_eq_of_lt (by omega)]
      have hsplit : v = v % 128 + 128 * (v / 128) := (Nat.mod_add_div v 128).symm
      have hnext : acc + v % 128 * 2 ^ (7 * i) + v / 128 * 2 ^ (7 * (i + 1)) =
          acc + v * 2 ^ (7 * i) := by
        conv_rhs => rw [hsplit]
        rw [show 7 * (i + 1) = 7 * i + 7 by ring, pow_add]
        ring
      have hrem : 0 < remaining := by
        rcases Nat.eq_zero_or_pos remaining with h | h
        · subst h; simp at hv; omega
        · exact h
      have hv' : v / 128 < 128 ^ remaining := by
        rw [pow_succ] at hv; exact Nat.div_lt_of_lt_mul (by linarith)
      simp only [serializeVarintLoop, h128, if_pos hbig, List.cons_append, parseVarintLoop,
        hbyte, hdigit, hshift, or_128_and_128_ne_zero, if_false]
      rw [if_neg (by omega), Nat.shiftRight_eq_div_pow,
        parseVarintLoop_serializeVarintLoop rest remaining fuel (v / 128) _ (i + 1)
          (by omega) hv' hrem (by omega), hnext]
    · -- the last byte
      have hbyte : (UInt8.ofNat v).toNat = v := by simp; omega
      have hshift : ((v &&& 127) <<< (7 * i)) % 2 ^ 64 = v * 2 ^ (7 * i) := by
        rw [and_127_of_lt (by omega), Nat.shiftLeft_eq, Nat.mod_eq_of_lt (by omega)]
      have hlast : serializeVarintLoop fuel v = [UInt8.ofNat v] := by
        cases fuel with
        | zero => rfl
        | succ f => simp only [serializeVarintLoop, h128, if_neg hbig]
      rw [hlast]
      simp only [List.cons_append, List.nil_append, parseVarintLoop, h128, hbyte, hshift,
        and_128_of_lt (show v < 128 by omega)]
      rw [if_neg (by omega)]
      rfl

/-- A varint reads back, whatever flag bits above the prefix its first byte carries. -/
theorem parseVarint_serializeVarint {value : Nat} (hv : value < 2 ^ 64) (prefixBits : Nat)
    (hp : 1 ≤ prefixBits ∧ prefixBits ≤ 8) (mask : UInt8)
    (hmask : mask.toNat % 2 ^ prefixBits = 0) (rest : List UInt8) :
    parseVarint (orFirst mask (serializeVarint value prefixBits) ++ rest) prefixBits =
      .ok (value, rest) := by
  have hlim : 2 ^ prefixBits - 1 < 256 := by
    have : 2 ^ prefixBits ≤ 2 ^ 8 := Nat.pow_le_pow_right (by norm_num) hp.2
    omega
  have hpos : 0 < 2 ^ prefixBits := Nat.two_pow_pos _
  simp only [serializeVarint, limit_eq]
  by_cases hsmall : value < 2 ^ prefixBits - 1
  · -- one byte
    have hbyte : (UInt8.ofNat value ||| mask).toNat &&& 2 ^ prefixBits - 1 = value := by
      rw [UInt8.toNat_or, or_mask_and_limit _ hmask]
      · simp; omega
      · simp; omega
    simp only [if_pos hsmall, orFirst, List.cons_append, List.nil_append, parseVarint, limit_eq,
      hbyte]
    rw [if_pos (by omega)]
  · -- the prefix is full, the rest follows in continuation bytes
    have hbyte : (UInt8.ofNat (2 ^ prefixBits - 1) ||| mask).toNat &&& 2 ^ prefixBits - 1 =
        2 ^ prefixBits - 1 := by
      rw [UInt8.toNat_or, or_mask_and_limit _ hmask]
      · simp; omega
      · simp; omega
    have hrest : value - (2 ^ prefixBits - 1) < 128 ^ MAX_VARINT_EXTRA_BYTES := by
      have : (2 : Nat) ^ 64 ≤ 128 ^ 10 := by norm_num
      simp only [MAX_VARINT_EXTRA_BYTES]; omega
    simp only [if_neg hsmall, orFirst, List.cons_append, parseVarint, limit_eq, hbyte,
      ne_eq, not_true_eq_false, if_false]
    rw [parseVarintLoop_serializeVarintLoop rest _ _ _ _ 0 le_rfl hrest (by decide)
      (by simp; omega)]
    congr
    simp; omega

/-- RFC 7541 C.1.2, from the source's own tests. -/
example : serializeVarint 1337 5 = [0b00011111, 0b10011010, 0b00001010] := by decide

/-! ## What the reader accepts -/

/-- The continuation bytes of an RFC 7541 5.1 integer read as a number: seven bits a byte, low
bits first, up to the first byte with the top bit clear. -/
def rfcContinuation : List UInt8 → Option (Nat × List UInt8)
  | [] => none
  | b :: rest =>
    if b.toNat < 128 then some (b.toNat, rest)
    else (rfcContinuation rest).map fun r => (b.toNat - 128 + 128 * r.1, r.2)

/-- The value of an RFC 7541 5.1 integer with a `prefixBits`-bit prefix, without bound, and the
bytes after it. -/
def rfcInteger (prefixBits : Nat) : List UInt8 → Option (Nat × List UInt8)
  | [] => none
  | first :: rest =>
    if first.toNat % 2 ^ prefixBits < 2 ^ prefixBits - 1 then some (first.toNat % 2 ^ prefixBits, rest)
    else (rfcContinuation rest).map fun r => (first.toNat % 2 ^ prefixBits + r.1, r.2)

theorem lt_128_of_and_128_eq_zero {x : Nat} (hx : x < 256) (h : x &&& 128 = 0) : x < 128 := by
  rw [show (128 : Nat) = 2 ^ 7 by norm_num, Nat.and_two_pow, Nat.testBit_eq_decide_div_mod_eq] at h
  simp at h
  omega

/-- A continuation byte's seven bits, shifted to its place and cut to 64 bits, agree with its
place value modulo `2 ^ 64`. -/
theorem shifted_digit_modEq (b : UInt8) (i : Nat) :
    ((b.toNat &&& (1 <<< 7) - 1) <<< (7 * i)) % 2 ^ 64 ≡ b.toNat % 128 * 2 ^ (7 * i) [MOD 2 ^ 64] := by
  unfold Nat.ModEq
  rw [Nat.mod_mod, show (1 <<< 7) - 1 = 2 ^ 7 - 1 from rfl, Nat.and_two_pow_sub_one_eq_mod,
    Nat.shiftLeft_eq]

/-- The reader's loop from turn `i` on: what it accepts is a run of continuation bytes, and its
value is the value so far plus theirs at the turn's place, modulo `2 ^ 64`. -/
theorem parseVarintLoop_sound (rest : List UInt8) :
    ∀ (remaining value i : Nat) (input : List UInt8) (v : Nat),
      parseVarintLoop value i remaining input = .ok (v, rest) →
      v < 2 ^ 64 ∧ ∃ w, rfcContinuation input = some (w, rest) ∧
        v % 2 ^ 64 = (value + w * 2 ^ (7 * i)) % 2 ^ 64
  | 0, _, _, _, _, h => by simp [parseVarintLoop] at h
  | _ + 1, _, _, [], _, h => by simp [parseVarintLoop] at h
  | remaining + 1, value, i, b :: input, v, h => by
    have hb := b.toNat_lt
    simp only [parseVarintLoop] at h
    split_ifs at h with hbig hlast
    · -- the last byte: its top bit is clear
      cases h
      have hlt : b.toNat < 128 := lt_128_of_and_128_eq_zero (by omega) hlast
      refine ⟨by omega, b.toNat, by simp [rfcContinuation, hlt], ?_⟩
      have hd := shifted_digit_modEq b i
      rw [Nat.mod_eq_of_lt hlt] at hd
      exact hd.add_left value
    · -- a continuation byte: the rest of the integer follows
      obtain ⟨hv, w, hw, hmod⟩ := parseVarintLoop_sound rest remaining _ (i + 1) input v h
      have hge : 128 ≤ b.toNat := by
        by_contra hlt
        exact hlast (and_128_of_lt (by omega))
      refine ⟨hv, b.toNat - 128 + 128 * w, by simp [rfcContinuation, hw, show ¬ b.toNat < 128 by omega], ?_⟩
      have hdigit : b.toNat % 128 = b.toNat - 128 := by omega
      have hplace : 2 ^ (7 * (i + 1)) = 128 * 2 ^ (7 * i) := by
        rw [show 7 * (i + 1) = 7 + 7 * i by ring, pow_add]
        rfl
      calc v % 2 ^ 64
          = (value + ((b.toNat &&& (1 <<< 7) - 1) <<< (7 * i)) % 2 ^ 64 + w * 2 ^ (7 * (i + 1)))
              % 2 ^ 64 := hmod
        _ = (value + b.toNat % 128 * 2 ^ (7 * i) + w * 2 ^ (7 * (i + 1))) % 2 ^ 64 :=
          ((shifted_digit_modEq b i).add_left value).add_right _
        _ = (value + (b.toNat - 128 + 128 * w) * 2 ^ (7 * i)) % 2 ^ 64 := by
          rw [hdigit, hplace]
          ring_nf

/-- What `parse_varint` accepts is a whole RFC 7541 5.1 integer, read modulo `2 ^ 64`: the
shift at the tenth continuation byte drops the bits above bit 63 instead of failing. -/
theorem parseVarint_sound {input rest : List UInt8} {prefixBits v : Nat}
    (h : parseVarint input prefixBits = .ok (v, rest)) :
    ∃ w, rfcInteger prefixBits input = some (w, rest) ∧ v = w % 2 ^ 64 := by
  match input, h with
  | first :: input, h =>
    have hb := first.toNat_lt
    simp only [parseVarint, limit_eq, Nat.and_two_pow_sub_one_eq_mod] at h
    have hle : first.toNat % 2 ^ prefixBits ≤ 2 ^ prefixBits - 1 := by
      have := Nat.mod_lt first.toNat (Nat.two_pow_pos prefixBits)
      omega
    split_ifs at h with hne
    · -- the prefix holds the whole value
      cases h
      have hsmall : first.toNat % 2 ^ prefixBits < 2 ^ 64 :=
        lt_of_le_of_lt (Nat.mod_le _ _) (by omega)
      refine ⟨first.toNat % 2 ^ prefixBits, by simp [rfcInteger, show first.toNat % 2 ^ prefixBits <
        2 ^ prefixBits - 1 by omega], (Nat.mod_eq_of_lt hsmall).symm⟩
    · -- a full prefix: the continuation bytes carry the rest
      obtain ⟨hv, w, hw, hmod⟩ := parseVarintLoop_sound rest _ _ 0 input v h
      have hfull : ¬ first.toNat % 2 ^ prefixBits < 2 ^ prefixBits - 1 := by omega
      refine ⟨first.toNat % 2 ^ prefixBits + w, by simp [rfcInteger, hw, hfull], ?_⟩
      rw [← Nat.mod_eq_of_lt hv, hmod]
      simp

/-- The integer `1337` with a five-bit prefix: `31`, then the digits `154 10`. -/
theorem parseVarint_sound_1337 :
    ∃ w, rfcInteger 5 [31, 154, 10] = some (w, []) ∧ 1337 = w % 2 ^ 64 :=
  parseVarint_sound (by decide)

/-- Nine continuation bytes of zeros and a tenth of 2: the integer is `2 ^ 64 + 255`, and the
reader returns 255. -/
theorem parseVarint_truncates_tenth_byte :
    parseVarint (255 :: List.replicate 9 0x80 ++ [0x02]) 8 = .ok (255, []) ∧
      rfcInteger 8 (255 :: List.replicate 9 0x80 ++ [0x02]) = some (2 ^ 64 + 255, []) := by
  decide

theorem serializeVarint_head (value prefixBits : Nat) (hp : prefixBits ≤ 8) :
    ∃ b bs, serializeVarint value prefixBits = b :: bs ∧ b.toNat < 2 ^ prefixBits := by
  have hlim : 2 ^ prefixBits ≤ 2 ^ 8 := Nat.pow_le_pow_right (by norm_num) hp
  have hpos : 0 < 2 ^ prefixBits := Nat.two_pow_pos _
  simp only [serializeVarint, limit_eq]
  split
  · refine ⟨_, _, rfl, ?_⟩
    simp; omega
  · refine ⟨_, _, rfl, ?_⟩
    simp; omega

/-! ## String round trip -/

section Decode

variable {tree : HuffmanTree} {pad : List Bool}

/-- Decoding reads the codes of `input` back and stops with the padding left. -/
theorem huffmanDecodeLoop_codes (hleaf : ∀ b : UInt8, LeafAt tree.root (codeBits b) b.toNat)
    (hroot : InnerAt tree.root []) (hpad : tree.readCode pad = .error .notEnoughBits) :
    ∀ (input : List UInt8) (fuel : Nat) (out : List UInt8), input.length < fuel →
      huffmanDecodeLoop tree fuel (input.flatMap codeBits ++ pad) out = .ok (out ++ input, pad)
  | [], fuel + 1, out, _ => by simp [huffmanDecodeLoop, hpad]
  | b :: input, fuel + 1, out, hfuel => by
    have hread := HuffmanTree.readCode_of_leafAt hroot (hleaf b) (input.flatMap codeBits ++ pad)
    rw [List.flatMap_cons, List.append_assoc, huffmanDecodeLoop, hread]
    simp only [UInt8.ofNat_toNat]
    rw [huffmanDecodeLoop_codes hleaf hroot hpad input fuel _ (by simp at hfuel; omega)]
    simp

end Decode

/-- Huffman-coded bytes decode back. -/
theorem huffmanDecode_huffmanEncode (data : List UInt8) :
    huffmanDecode (huffmanEncode data) = .ok data := by
  obtain ⟨tree, htree, hleaf, hones⟩ := huffmanTree_spec
  have hpadlt := paddingLength_lt data
  have hroot : InnerAt tree.root [] := by simpa using hones 0 (by omega)
  have hpad : tree.readCode (List.replicate (paddingLength data) true) = .error .notEnoughBits :=
    HuffmanTree.readCode_of_innerAt (hones _ (by omega))
  have hbits := bytesBits_huffmanEncode data
  have hfuel : data.length < (bytesBits (huffmanEncode data)).length + 1 := by
    rw [hbits, List.length_append, List.length_flatMap]
    have : data.length ≤ (data.map fun b => (codeBits b).length).sum := by
      have hone : ∀ b, 1 ≤ (codeBits b).length := fun b => by
        simp [codeBits]; have := (codeOf_fit b).2.1; omega
      calc data.length = (data.map fun _ => 1).sum := by simp
        _ ≤ _ := List.sum_le_sum fun b _ => hone b
    omega
  simp only [huffmanDecode, htree, bind, Except.bind]
  rw [hbits, huffmanDecodeLoop_codes hleaf hroot hpad data _ [] (by rw [← hbits]; exact hfuel)]
  simp [pure, Except.pure, show ¬ 7 < paddingLength data by omega]

/-- A string literal reads back, Huffman-coded or not. -/
theorem parseStringLiteral_serializeStringLiteral (data : List UInt8) (hlen : data.length < 2 ^ 64)
    (maybeCompress : Bool) (rest : List UInt8) :
    parseStringLiteral (serializeStringLiteral data maybeCompress ++ rest) = .ok (data, rest) := by
  have h7 : (1 : Nat) ≤ 7 ∧ 7 ≤ 8 := by decide
  have hplain : parseStringLiteral (serializeVarint data.length 7 ++ data ++ rest) =
      .ok (data, rest) := by
    obtain ⟨b, bs, hser, hb⟩ := serializeVarint_head data.length 7 (by decide)
    have hvar := parseVarint_serializeVarint hlen 7 h7 0 (by decide) (data ++ rest)
    rw [orFirst_zero] at hvar
    have hfirst : beU8 (serializeVarint data.length 7 ++ (data ++ rest)) =
        .ok (b, bs ++ (data ++ rest)) := by rw [hser]; rfl
    have htake : takeExact data.length (data ++ rest) = .ok (data, rest) := by simp [takeExact]
    rw [List.append_assoc]
    simp only [parseStringLiteral, hfirst, hvar, htake, top_bit_of_lt (show b.toNat < 128 from hb),
      bind, Except.bind, pure, Except.pure, Bool.false_eq_true, if_false]
  unfold serializeStringLiteral
  dsimp only
  split
  · split
    · -- the Huffman form: the top bit of the length flags it
      next hshort =>
      have hclen : (huffmanEncode data).length < 2 ^ 64 := by omega
      obtain ⟨b, bs, hser, -⟩ := serializeVarint_head (huffmanEncode data).length 7 (by decide)
      have hvar := parseVarint_serializeVarint hclen 7 h7 ((1 : UInt8) <<< 7) (by decide)
        (huffmanEncode data ++ rest)
      have hfirst : beU8 (orFirst ((1 : UInt8) <<< 7) (serializeVarint (huffmanEncode data).length 7)
          ++ (huffmanEncode data ++ rest)) =
          .ok (b ||| (1 : UInt8) <<< 7, bs ++ (huffmanEncode data ++ rest)) := by
        rw [hser]; rfl
      have htake : takeExact (huffmanEncode data).length (huffmanEncode data ++ rest) =
          .ok (huffmanEncode data, rest) := by simp [takeExact]
      rw [List.append_assoc]
      simp only [parseStringLiteral, hfirst, hvar, htake, top_bit_of_or, if_true,
        huffmanDecode_huffmanEncode, bind, Except.bind, pure, Except.pure]
    · exact hplain
  · exact hplain

/-- Every string literal reads back with the bytes after it, and Huffman-coded bytes decode to the
string they code. -/
theorem stringLiteral_round_trip (data : List UInt8) (hlen : data.length < 2 ^ 64)
    (maybeCompress : Bool) (rest : List UInt8) :
    parseStringLiteral (serializeStringLiteral data maybeCompress ++ rest) = .ok (data, rest) ∧
      huffmanDecode (huffmanEncode data) = .ok data :=
  ⟨parseStringLiteral_serializeStringLiteral data hlen maybeCompress rest,
    huffmanDecode_huffmanEncode data⟩

/-- The header name of the source's encoder test, Huffman-coded. -/
theorem stringLiteral_round_trip_awesome :
    (ascii "awesome-header").length < 2 ^ 64 ∧
      parseStringLiteral (serializeStringLiteral (ascii "awesome-header") true ++ [7]) =
        .ok (ascii "awesome-header", [7]) ∧
      huffmanDecode (huffmanEncode (ascii "awesome-header")) = .ok (ascii "awesome-header") :=
  ⟨by decide, stringLiteral_round_trip (ascii "awesome-header") (by decide) true [7]⟩

end Dacha.Hpack
