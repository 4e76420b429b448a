import Dacha.Lib.Bytes

/-!
# The protobuf wire format (`protobuf/core/src/wire.rs`)

A message is a sequence of fields, each a tag followed by a value. The tag is the varint
`field_number << 3 | wire_type`; the value is a varint, eight or four bytes, or a varint length
followed by that many bytes. `serialize_varint` writes seven bits per byte, least significant
first, with the high bit set on every byte but the last; `parse_varint` reads at most ten bytes.

`WireField::parse_all` runs `WireFieldIter` over the input until it is empty. The model follows
the source's loops with fuel: ten rounds for a varint (the bound `parse_varint` itself has, and
enough for the 64 bits `serialize_varint` writes), and one round per byte of input for the
iterator, since every round reads a tag of at least one byte.

The results are the round trips: `parseVarint_serializeVarint` for every `u64` and any bytes
after it, `Tag.parse_serialize` for every field number below `2^29` (a tag keeps the 29 low bits
of the number), and `parseAll_serialize` for every list of fields that are not groups.
A group's items are written without tags and `next_impl` never collects them, so groups do not
round trip.
-/

namespace Dacha.Protobuf

open Dacha.Bytes

inductive WireError
  | InvalidWireType
  | UnexpectedWireType
  | Incomplete
  | InvalidString
  | IntegerOverflow
  | UnexpectedEndGroup
  | BadDescriptor
  | UnknownEnumVariant
  | UnknownFieldsDropped
  deriving DecidableEq, Repr

/-! ## Varints -/

/-- The loop of `serialize_varint`: the source loops until the value is zero; ten rounds of seven
bits clear a `u64`. -/
def serializeVarint.loop : Nat → BitVec 64 → List UInt8
  | 0, _ => []
  | fuel + 1, v =>
    let b : UInt8 := UInt8.ofBitVec ((v &&& 0x7f).setWidth 8)
    let v := v >>> 7
    if v ≠ 0 then (b ||| 0x80) :: serializeVarint.loop fuel v else [b]

def serializeVarint (v : BitVec 64) : List UInt8 := serializeVarint.loop 10 v

/-- The loop of `parse_varint` from byte `i` with the value `v` read so far. The fuel is the ten
bytes the source allows; `maxBytes` is never above it. -/
def parseVarint.loop (input : List UInt8) (maxBytes : Nat) :
    Nat → Nat → BitVec 64 → Except WireError (BitVec 64 × List UInt8)
  | 0, _, _ => .error .Incomplete
  | fuel + 1, i, v =>
    if i ≥ maxBytes then .error .Incomplete
    else
      let b : BitVec 64 := (input.getD i 0).toBitVec.setWidth 64
      let more := b &&& 0x80 ≠ 0
      let v := v ||| ((b &&& 0x7f) <<< (7 * i))
      if more then parseVarint.loop input maxBytes fuel (i + 1) v
      else .ok (v, input.drop (i + 1))

def parseVarint (input : List UInt8) : Except WireError (BitVec 64 × List UInt8) :=
  parseVarint.loop input (min input.length 10) 10 0 0

/-! ### The round trip -/

section VarintRoundTrip

theorem toNat_ushiftRight_seven (v : BitVec 64) : (v >>> 7).toNat = v.toNat / 128 := by
  simp [Nat.shiftRight_eq_div_pow]

/-- The byte `serialize_varint` writes holds the low seven bits of the value. -/
theorem lowByte_toNat (v : BitVec 64) :
    (UInt8.ofBitVec ((v &&& 0x7f).setWidth 8)).toNat = v.toNat % 128 := by
  rw [UInt8.toNat_ofBitVec, BitVec.toNat_setWidth, BitVec.toNat_and]
  show (v.toNat &&& (2 ^ 7 - 1)) % 2 ^ 8 = _
  rw [Nat.and_two_pow_sub_one_eq_mod]
  omega

/-- One round of `serialize_varint`, on the value as a number. -/
theorem serializeVarint.loop_succ (fuel : Nat) (v : BitVec 64) :
    serializeVarint.loop (fuel + 1) v =
      if v.toNat < 128 then [UInt8.ofNat v.toNat]
      else UInt8.ofNat (v.toNat % 128 + 128) :: serializeVarint.loop fuel (v >>> 7) := by
  have hb := lowByte_toNat v
  have hzero : v >>> 7 = 0 ↔ v.toNat < 128 := by
    rw [← BitVec.toNat_inj, toNat_ushiftRight_seven]
    simp only [BitVec.ofNat_eq_ofNat, BitVec.toNat_ofNat, Nat.zero_mod]
    omega
  rw [serializeVarint.loop]
  by_cases h : v.toNat < 128
  · rw [if_neg (not_not.mpr (hzero.mpr h)), if_pos h]
    congr 1
    apply UInt8.toNat_inj.mp
    rw [hb, UInt8.toNat_ofNat']
    omega
  · rw [if_pos (mt hzero.mp h), if_neg h]
    congr 1
    apply UInt8.toNat_inj.mp
    rw [UInt8.toNat_or, hb, UInt8.toNat_ofNat']
    show v.toNat % 128 ||| 2 ^ 7 * 1 = _
    rw [Nat.or_comm, ← Nat.two_pow_add_eq_or_of_lt (Nat.mod_lt _ (by decide))]
    omega
/-- The seven payload bits of a byte read as a `u64`. -/
theorem payload_toNat (b : UInt8) : (b.toBitVec.setWidth 64 &&& 0x7f).toNat = b.toNat % 128 := by
  rw [BitVec.toNat_and, BitVec.toNat_setWidth, UInt8.toNat_toBitVec]
  have hlt := b.toNat_lt
  show b.toNat % 2 ^ 64 &&& 2 ^ 7 - 1 = _
  rw [Nat.mod_eq_of_lt (by omega), Nat.and_two_pow_sub_one_eq_mod]

/-- The continuation bit of a byte read as a `u64`. -/
theorem more_iff (b : UInt8) : b.toBitVec.setWidth 64 &&& 0x80 ≠ 0 ↔ 128 ≤ b.toNat := by
  have hlt := b.toNat_lt
  rw [ne_eq, ← BitVec.toNat_inj, BitVec.toNat_and, BitVec.toNat_setWidth, UInt8.toNat_toBitVec]
  show ¬ b.toNat % 2 ^ 64 &&& 2 ^ 7 = 0 ↔ _
  rw [Nat.mod_eq_of_lt (by omega), Nat.and_two_pow, Nat.testBit_eq_decide_div_mod_eq]
  by_cases h : 128 ≤ b.toNat
  · have : b.toNat / 128 % 2 = 1 := by omega
    simp [this, h]
  · have : b.toNat / 128 % 2 = 0 := by omega
    simp [this, h]

/-- One round of `parse_varint` at a byte the input holds. -/
theorem parseVarint.loop_of_drop {input t : List UInt8} {maxBytes fuel i : Nat} {v : BitVec 64}
    {b : UInt8} (hi : i < maxBytes) (hb : input.drop i = b :: t) :
    parseVarint.loop input maxBytes (fuel + 1) i v =
      if 128 ≤ b.toNat then
        parseVarint.loop input maxBytes fuel (i + 1) (v ||| (b.toBitVec.setWidth 64 &&& 0x7f) <<< (7 * i))
      else .ok (v ||| (b.toBitVec.setWidth 64 &&& 0x7f) <<< (7 * i), t) := by
  have hget : input.getD i 0 = b := by
    have : (input.drop i)[0]? = some b := by rw [hb]; rfl
    rw [List.getElem?_drop, Nat.add_zero] at this
    simp [List.getD_eq_getElem?_getD, this]
  have hrest : input.drop (i + 1) = t := by rw [← List.drop_drop, hb]; rfl
  rw [parseVarint.loop, if_neg (by omega), hget, hrest]
  simp only [more_iff]

/-- What one round of the parser adds: the payload of byte `b` at `7 * i` bits. -/
theorem accumulate_toNat {acc : BitVec 64} {i : Nat} (b : UInt8) (hacc : acc.toNat < 2 ^ (7 * i))
    (hfit : acc.toNat + b.toNat % 128 * 2 ^ (7 * i) < 2 ^ 64) :
    (acc ||| (b.toBitVec.setWidth 64 &&& 0x7f) <<< (7 * i)).toNat =
      acc.toNat + b.toNat % 128 * 2 ^ (7 * i) := by
  rw [toNat_or_shiftLeft_of_lt _ _ hacc (by rw [payload_toNat]; omega), payload_toNat]

/-- Reading from byte `i` what the writer's loop wrote for `w` adds `w` at `7 * i` bits. -/
theorem parseVarint.loop_serialize {input rest : List UInt8} {maxBytes : Nat} :
    ∀ (k i : Nat) (acc w : BitVec 64), 0 < k → w.toNat < 2 ^ (7 * k) →
      input.drop i = serializeVarint.loop k w ++ rest →
      i + (serializeVarint.loop k w).length ≤ maxBytes →
      acc.toNat < 2 ^ (7 * i) → acc.toNat + w.toNat * 2 ^ (7 * i) < 2 ^ 64 →
      parseVarint.loop input maxBytes k i acc =
        .ok (BitVec.ofNat 64 (acc.toNat + w.toNat * 2 ^ (7 * i)), rest)
  | 0, _, _, _, hk, _, _, _, _, _ => absurd hk (Nat.lt_irrefl 0)
  | k + 1, i, acc, w, _, hw, hd, hlen, hacc, hfit => by
    rw [serializeVarint.loop_succ] at hd hlen
    by_cases hlast : w.toNat < 128
    · -- the last byte: its payload is all of `w`
      rw [if_pos hlast] at hd hlen
      have hb : (UInt8.ofNat w.toNat).toNat = w.toNat := by rw [UInt8.toNat_ofNat']; omega
      have hstep := accumulate_toNat (UInt8.ofNat w.toNat) hacc
        (by rw [hb, Nat.mod_eq_of_lt hlast]; exact hfit)
      rw [hb, Nat.mod_eq_of_lt hlast] at hstep
      rw [parseVarint.loop_of_drop (by simp at hlen; omega) hd, hb, if_neg (by omega)]
      congr 2
      apply BitVec.eq_of_toNat_eq
      rw [hstep, BitVec.toNat_ofNat, Nat.mod_eq_of_lt hfit]
    · -- a byte with the continuation bit: the rest of `w` follows from byte `i + 1`
      rw [if_neg hlast] at hd hlen
      simp only [List.length_cons] at hlen
      have hb : (UInt8.ofNat (w.toNat % 128 + 128)).toNat % 128 = w.toNat % 128 := by
        rw [UInt8.toNat_ofNat']; omega
      have hsplit : w.toNat * 2 ^ (7 * i) =
          w.toNat % 128 * 2 ^ (7 * i) + w.toNat / 128 * 2 ^ (7 * (i + 1)) := by
        calc w.toNat * 2 ^ (7 * i) = (w.toNat % 128 + 128 * (w.toNat / 128)) * 2 ^ (7 * i) := by
              rw [Nat.mod_add_div]
          _ = _ := by rw [show 7 * (i + 1) = 7 * i + 7 by omega, Nat.pow_add]; ring
      have hk : 0 < k := by
        rcases Nat.eq_zero_or_pos k with rfl | hk
        · omega
        · exact hk
      have hlow : acc.toNat + w.toNat % 128 * 2 ^ (7 * i) < 2 ^ (7 * (i + 1)) := by
        rw [show 7 * (i + 1) = 7 * i + 7 by omega, Nat.pow_add]
        have := Nat.mod_lt w.toNat (show 0 < 128 by decide)
        nlinarith
      have hstep := accumulate_toNat (UInt8.ofNat (w.toNat % 128 + 128)) hacc
        (by rw [hb]; omega)
      rw [hb] at hstep
      have hnext : (w >>> 7).toNat < 2 ^ (7 * k) := by
        rw [toNat_ushiftRight_seven, Nat.div_lt_iff_lt_mul (by decide)]
        rw [show 7 * (k + 1) = 7 * k + 7 by omega, Nat.pow_add] at hw
        exact hw
      have hrest := @parseVarint.loop_serialize input rest maxBytes k (i + 1)
        (acc ||| ((UInt8.ofNat (w.toNat % 128 + 128)).toBitVec.setWidth 64 &&& 0x7f) <<< (7 * i))
        (w >>> 7) hk hnext (by rw [← List.drop_drop, hd]; rfl) (by omega)
        (by rw [hstep]; exact hlow) (by rw [hstep, toNat_ushiftRight_seven]; omega)
      rw [parseVarint.loop_of_drop (by omega) hd, if_pos (by rw [UInt8.toNat_ofNat']; omega),
        hrest, hstep, toNat_ushiftRight_seven, hsplit, Nat.add_assoc]
theorem serializeVarint.loop_length_le : ∀ (k : Nat) (w : BitVec 64), (serializeVarint.loop k w).length ≤ k
  | 0, _ => Nat.le_refl 0
  | k + 1, w => by
    rw [serializeVarint.loop_succ]
    split
    · simp
    · simpa using serializeVarint.loop_length_le k (w >>> 7)

theorem serializeVarint_ne_nil (v : BitVec 64) : serializeVarint v ≠ [] := by
  rw [serializeVarint, serializeVarint.loop_succ]
  split <;> simp

/-- `parse_varint` reads back what `serialize_varint` wrote, for every `u64` and whatever
follows. -/
theorem parseVarint_serializeVarint (v : BitVec 64) (rest : List UInt8) :
    parseVarint (serializeVarint v ++ rest) = .ok (v, rest) := by
  have hlen : (serializeVarint.loop 10 v).length ≤ 10 := serializeVarint.loop_length_le 10 v
  have hv : v.toNat < 2 ^ 64 := v.isLt
  have h := @parseVarint.loop_serialize (serializeVarint v ++ rest) rest
    (min (serializeVarint v ++ rest).length 10) 10 0 0 v (by decide) (by omega) rfl
    (by simp only [serializeVarint, List.length_append]; omega) (by simp) (by simpa using hv)
  rw [parseVarint, h]
  simp

end VarintRoundTrip

def parseWord32 (input : List UInt8) : Except WireError (Vector UInt8 4 × List UInt8) :=
  if h : input.length < 4 then .error .Incomplete
  else .ok (⟨(input.take 4).toArray, by simp; omega⟩, input.drop 4)

def parseWord64 (input : List UInt8) : Except WireError (Vector UInt8 8 × List UInt8) :=
  if h : input.length < 8 then .error .Incomplete
  else .ok (⟨(input.take 8).toArray, by simp; omega⟩, input.drop 8)

/-! ## Tags, values and fields -/

inductive WireType
  | Varint
  | Word64
  | LengthDelim
  | StartGroup
  | EndGroup
  | Word32
  deriving DecidableEq, Repr

def WireType.fromUsize : Nat → Except WireError WireType
  | 0 => .ok .Varint
  | 1 => .ok .Word64
  | 2 => .ok .LengthDelim
  | 3 => .ok .StartGroup
  | 4 => .ok .EndGroup
  | 5 => .ok .Word32
  | _ => .error .InvalidWireType

/-- The discriminant, `wire_type as u32`. -/
def WireType.toU32 : WireType → BitVec 32
  | .Varint => 0
  | .Word64 => 1
  | .LengthDelim => 2
  | .StartGroup => 3
  | .EndGroup => 4
  | .Word32 => 5

structure Tag where
  fieldNumber : BitVec 32
  wireType : WireType

def Tag.parse (input : List UInt8) : Except WireError (Tag × List UInt8) := do
  let (v, rest) ← parseVarint input
  let wireType ← WireType.fromUsize (v &&& 0b111).toNat
  let fieldNumber := (v >>> 3).setWidth 32
  return (⟨fieldNumber, wireType⟩, rest)

/-- `Tag::serialize`: the shift is on the `u32` field number, so its three high bits are lost. -/
def Tag.serialize (t : Tag) : List UInt8 :=
  let v := (t.fieldNumber <<< 3) ||| t.wireType.toU32
  serializeVarint (v.setWidth 64)

theorem WireType.fromUsize_toU32 (t : WireType) : WireType.fromUsize t.toU32.toNat = .ok t := by
  cases t <;> rfl

theorem WireType.toU32_lt (t : WireType) : t.toU32.toNat < 2 ^ 3 := by
  cases t <;> decide

/-- `Tag::parse` reads back a tag whose field number has at most 29 bits. -/
theorem Tag.parse_serialize (t : Tag) (ht : t.fieldNumber.toNat < 2 ^ 29) (rest : List UInt8) :
    Tag.parse (t.serialize ++ rest) = .ok (t, rest) := by
  have hv : ((t.fieldNumber <<< 3) ||| t.wireType.toU32).toNat =
      t.wireType.toU32.toNat + t.fieldNumber.toNat * 2 ^ 3 := by
    rw [BitVec.or_comm, toNat_or_shiftLeft_of_lt _ _ t.wireType.toU32_lt (by omega)]
  have hwt := t.wireType.toU32_lt
  have hlow : ((((t.fieldNumber <<< 3) ||| t.wireType.toU32).setWidth 64) &&& 0b111).toNat =
      t.wireType.toU32.toNat := by
    rw [BitVec.toNat_and, BitVec.toNat_setWidth, hv]
    show (_ % 2 ^ 64) &&& 2 ^ 3 - 1 = _
    rw [Nat.and_two_pow_sub_one_eq_mod]
    omega
  have hhigh : ((((t.fieldNumber <<< 3) ||| t.wireType.toU32).setWidth 64) >>> 3).setWidth 32 =
      t.fieldNumber := by
    apply BitVec.eq_of_toNat_eq
    rw [BitVec.toNat_setWidth, BitVec.toNat_ushiftRight, BitVec.toNat_setWidth, hv,
      Nat.shiftRight_eq_div_pow]
    omega
  rw [Tag.parse, Tag.serialize, parseVarint_serializeVarint]
  simp only [bind, Except.bind, hlow, WireType.fromUsize_toU32, hhigh, pure, Except.pure]

inductive WireValue
  | Varint (v : BitVec 64)
  | Word64 (bytes : Vector UInt8 8)
  | LengthDelim (bytes : List UInt8)
  | Group (items : List WireValue)
  | Word32 (bytes : Vector UInt8 4)
  deriving Repr

/-- The accessor `WireValue::varint` (`wire_enum_accessor!`). -/
def WireValue.varint : WireValue → Except WireError (BitVec 64)
  | .Varint v => .ok v
  | _ => .error .UnexpectedWireType

/-- `WireValue::serialize`: a group writes its items' values one after another. -/
def WireValue.serialize : WireValue → List UInt8
  | .Varint n => serializeVarint n
  | .Word64 v => v.toList
  | .LengthDelim v => serializeVarint (BitVec.ofNat 64 v.length) ++ v
  | .Group items => serializeItems items
  | .Word32 v => v.toList
where
  serializeItems : List WireValue → List UInt8
    | [] => []
    | i :: is => i.serialize ++ serializeItems is

structure WireField where
  fieldNumber : BitVec 32
  value : WireValue
  deriving Repr

/-- `WireField::serialize`: the tag, the value, and for a group the closing tag. -/
def WireField.serialize (f : WireField) : List UInt8 :=
  let wireType : WireType :=
    match f.value with
    | .Varint _ => .Varint
    | .Word64 _ => .Word64
    | .LengthDelim _ => .LengthDelim
    | .Word32 _ => .Word32
    | .Group _ => .StartGroup
  Tag.serialize ⟨f.fieldNumber, wireType⟩ ++ f.value.serialize ++
    if wireType = .StartGroup then Tag.serialize ⟨f.fieldNumber, .EndGroup⟩ else []

/-! ## Parsing a message -/

/-- A `WireFieldIter`: the bytes left, and the group a `StartGroup` tag opened. -/
structure WireFieldIter where
  input : List UInt8
  group : Option (List WireValue)

def WireFieldIter.new (input : List UInt8) : WireFieldIter := ⟨input, none⟩

/-- The `while` loop of `next_impl`. It runs again only after a `StartGroup` tag, which it has
consumed, so the length of the input bounds its rounds. -/
def WireFieldIter.nextImpl.loop :
    Nat → WireFieldIter → Except WireError (Option WireField × WireFieldIter)
  | _, it@⟨[], group⟩ =>
    -- The input is empty: a group that was opened and not closed is incomplete.
    if group.isSome then .error .Incomplete else .ok (none, it)
  | 0, _ => .error .Incomplete
  | fuel + 1, it => do
    let (tag, rest) ← Tag.parse it.input
    match tag.wireType with
    | .Varint =>
      let (v, rest) ← parseVarint rest
      return (some ⟨tag.fieldNumber, .Varint v⟩, { it with input := rest })
    | .Word64 =>
      let (v, rest) ← parseWord64 rest
      return (some ⟨tag.fieldNumber, .Word64 v⟩, { it with input := rest })
    | .Word32 =>
      let (v, rest) ← parseWord32 rest
      return (some ⟨tag.fieldNumber, .Word32 v⟩, { it with input := rest })
    | .LengthDelim =>
      let (len, rest) ← parseVarint rest
      let len := len.toNat
      if rest.length < len then throw .Incomplete
      return (some ⟨tag.fieldNumber, .LengthDelim (rest.take len)⟩,
        { it with input := rest.drop len })
    | .StartGroup => nextImpl.loop fuel { input := rest, group := some [] }
    | .EndGroup =>
      match it.group with
      | some items => return (some ⟨tag.fieldNumber, .Group items⟩, { input := rest, group := none })
      | none => throw .UnexpectedEndGroup

/-- On an empty input the loop stops at once, whatever its fuel. -/
theorem WireFieldIter.nextImpl.loop_nil (fuel : Nat) (group : Option (List WireValue)) :
    nextImpl.loop fuel ⟨[], group⟩ =
      if group.isSome then .error .Incomplete else .ok (none, ⟨[], group⟩) := by
  cases fuel <;> rfl

def WireFieldIter.nextImpl (it : WireFieldIter) :
    Except WireError (Option WireField × WireFieldIter) :=
  nextImpl.loop it.input.length it

/-- The `for` loop of `parse_all`: every field the iterator yields consumes a byte at least, so
one round per byte and one for the end suffice. -/
def WireField.parseAll.loop : Nat → WireFieldIter → Except WireError (List WireField)
  | 0, _ => .ok []
  | fuel + 1, it => do
    match ← it.nextImpl with
    | (none, _) => return []
    | (some field, it) => return field :: (← parseAll.loop fuel it)

theorem WireField.parseAll.loop_succ (fuel : Nat) (it : WireFieldIter) :
    parseAll.loop (fuel + 1) it = do
      match ← it.nextImpl with
      | (none, _) => return []
      | (some field, it) => return field :: (← parseAll.loop fuel it) := rfl

def WireField.parseAll (input : List UInt8) : Except WireError (List WireField) :=
  parseAll.loop (input.length + 1) (.new input)

/-! ## Reading back a message -/

section ParseAll

/-- A value `parse_all` reads back: not a group, and bytes whose length a `u64` holds. -/
def WireValue.RoundTrips : WireValue → Prop
  | .Group _ => False
  | .LengthDelim bytes => bytes.length < 2 ^ 64
  | _ => True

instance : DecidablePred WireValue.RoundTrips
  | .Group _ => inferInstanceAs (Decidable False)
  | .LengthDelim bytes => inferInstanceAs (Decidable (bytes.length < 2 ^ 64))
  | .Varint _ => inferInstanceAs (Decidable True)
  | .Word64 _ => inferInstanceAs (Decidable True)
  | .Word32 _ => inferInstanceAs (Decidable True)

/-- A field `parse_all` reads back: a field number a tag keeps, and a value that round trips. -/
def WireField.RoundTrips (f : WireField) : Prop :=
  f.fieldNumber.toNat < 2 ^ 29 ∧ f.value.RoundTrips

instance : DecidablePred WireField.RoundTrips := fun f =>
  inferInstanceAs (Decidable (f.fieldNumber.toNat < 2 ^ 29 ∧ f.value.RoundTrips))

theorem take_toList_append {n : Nat} (v : Vector UInt8 n) (rest : List UInt8) :
    (v.toList ++ rest).take n = v.toList := by
  rw [List.take_append_of_le_length (by simp), List.take_of_length_le (by simp)]

theorem parseWord64_append (v : Vector UInt8 8) (rest : List UInt8) :
    parseWord64 (v.toList ++ rest) = .ok (v, rest) := by
  rw [parseWord64, dif_neg (by simp)]
  congr 2
  · apply Vector.toArray_inj.mp
    simp only [take_toList_append, Vector.toArray_toList]
  · exact List.drop_left' (by simp)

theorem parseWord32_append (v : Vector UInt8 4) (rest : List UInt8) :
    parseWord32 (v.toList ++ rest) = .ok (v, rest) := by
  rw [parseWord32, dif_neg (by simp)]
  congr 2
  · apply Vector.toArray_inj.mp
    simp only [take_toList_append, Vector.toArray_toList]
  · exact List.drop_left' (by simp)

theorem WireField.serialize_ne_nil (f : WireField) : f.serialize ≠ [] := by
  rw [WireField.serialize, Tag.serialize]
  simp [serializeVarint_ne_nil]

/-- A pass of the loop of `next_impl` reads back a field that round trips and stops right after
it, whatever group the iterator has open. -/
theorem WireFieldIter.nextImpl.loop_serialize {f : WireField} (hf : f.RoundTrips)
    (rest : List UInt8) (group : Option (List WireValue)) (fuel : Nat) :
    nextImpl.loop (fuel + 1) ⟨f.serialize ++ rest, group⟩ = .ok (some f, ⟨rest, group⟩) := by
  obtain ⟨b, bs, hbs⟩ : ∃ b bs, f.serialize ++ rest = b :: bs :=
    List.exists_cons_of_ne_nil (by simp [WireField.serialize_ne_nil])
  rw [hbs, WireFieldIter.nextImpl.loop, ← hbs]
  · obtain ⟨fieldNumber, value⟩ := f
    obtain ⟨hfn, hval⟩ := hf
    have htag (wireType : WireType) (input : List UInt8) :
        Tag.parse (Tag.serialize ⟨fieldNumber, wireType⟩ ++ input) =
          .ok (⟨fieldNumber, wireType⟩, input) :=
      Tag.parse_serialize ⟨fieldNumber, wireType⟩ hfn input
    cases value with
    | Group items => exact absurd hval id
    | Varint v | Word64 v | Word32 v =>
      simp only [WireField.serialize, WireValue.serialize, reduceCtorEq, if_false, List.append_nil,
        List.append_assoc, htag, bind, Except.bind, parseVarint_serializeVarint, parseWord64_append,
        parseWord32_append, pure, Except.pure]
    | LengthDelim bytes =>
      have hlen : (BitVec.ofNat 64 bytes.length).toNat = bytes.length := by
        rw [BitVec.toNat_ofNat, Nat.mod_eq_of_lt hval]
      simp only [WireField.serialize, WireValue.serialize, reduceCtorEq, if_false, List.append_nil,
        List.append_assoc, htag, bind, Except.bind, parseVarint_serializeVarint, hlen, pure,
        Except.pure]
      simp
  · simp

/-- `next_impl` reads back a field that round trips, and stops right after it. -/
theorem WireFieldIter.nextImpl_serialize {f : WireField} (hf : f.RoundTrips) (rest : List UInt8) :
    (WireFieldIter.new (f.serialize ++ rest)).nextImpl = .ok (some f, .new rest) := by
  have hpos : (f.serialize ++ rest).length ≠ 0 := by simp [WireField.serialize_ne_nil]
  obtain ⟨n, hn⟩ := Nat.exists_eq_succ_of_ne_zero hpos
  rw [WireFieldIter.nextImpl, WireFieldIter.new, hn]
  exact nextImpl.loop_serialize hf rest none n

theorem WireField.parseAll.loop_serialize :
    ∀ (fs : List WireField) (fuel : Nat), (∀ f ∈ fs, f.RoundTrips) →
      (fs.flatMap WireField.serialize).length < fuel →
      parseAll.loop fuel (.new (fs.flatMap WireField.serialize)) = .ok fs
  | _, 0, _, hfuel => absurd hfuel (Nat.not_lt_zero _)
  | [], fuel + 1, _, _ => rfl
  | f :: fs, fuel + 1, hrt, hfuel => by
    have hne := WireField.serialize_ne_nil f
    rw [List.flatMap_cons] at hfuel ⊢
    have hrest : (fs.flatMap WireField.serialize).length < fuel := by
      rw [List.length_append] at hfuel
      have := List.length_pos_of_ne_nil hne
      omega
    have ih := parseAll.loop_serialize fs fuel (fun g hg => hrt g (List.mem_cons_of_mem f hg)) hrest
    rw [parseAll.loop_succ, WireFieldIter.nextImpl_serialize (hrt f List.mem_cons_self)]
    simp only [bind, Except.bind, ih, pure, Except.pure]

/-- `parse_all` reads back every message whose fields round trip. -/
theorem WireField.parseAll_serialize (fs : List WireField) (h : ∀ f ∈ fs, f.RoundTrips) :
    parseAll (fs.flatMap WireField.serialize) = .ok fs :=
  parseAll.loop_serialize fs _ h (Nat.lt_succ_self _)

end ParseAll

/-! ## Groups -/

section Groups

variable {g : BitVec 32}

/-- A `StartGroup` tag opens an empty group, and the loop goes on to the next tag. -/
theorem WireFieldIter.nextImpl.loop_startGroup (hg : g.toNat < 2 ^ 29) (rest : List UInt8)
    (group : Option (List WireValue)) (fuel : Nat) :
    nextImpl.loop (fuel + 1) ⟨Tag.serialize ⟨g, .StartGroup⟩ ++ rest, group⟩ =
      nextImpl.loop fuel ⟨rest, some []⟩ := by
  obtain ⟨b, bs, hbs⟩ : ∃ b bs, Tag.serialize ⟨g, .StartGroup⟩ ++ rest = b :: bs :=
    List.exists_cons_of_ne_nil (by simp [Tag.serialize, serializeVarint_ne_nil])
  rw [hbs, WireFieldIter.nextImpl.loop, ← hbs]
  · simp only [Tag.parse_serialize ⟨g, .StartGroup⟩ hg, bind, Except.bind]
  · simp

/-- An `EndGroup` tag closes the open group, whatever it holds, and yields it as a field. -/
theorem WireFieldIter.nextImpl.loop_endGroup (hg : g.toNat < 2 ^ 29) (rest : List UInt8)
    (items : List WireValue) (fuel : Nat) :
    nextImpl.loop (fuel + 1) ⟨Tag.serialize ⟨g, .EndGroup⟩ ++ rest, some items⟩ =
      .ok (some ⟨g, .Group items⟩, ⟨rest, none⟩) := by
  obtain ⟨b, bs, hbs⟩ : ∃ b bs, Tag.serialize ⟨g, .EndGroup⟩ ++ rest = b :: bs :=
    List.exists_cons_of_ne_nil (by simp [Tag.serialize, serializeVarint_ne_nil])
  rw [hbs, WireFieldIter.nextImpl.loop, ← hbs]
  · simp only [Tag.parse_serialize ⟨g, .EndGroup⟩ hg, bind, Except.bind, pure, Except.pure]
  · simp

/-- Every field takes a byte at least. -/
theorem length_flatMap_serialize_ge (fs : List WireField) :
    fs.length ≤ (fs.flatMap WireField.serialize).length := by
  induction fs with
  | nil => simp
  | cons f fs ih =>
    have := List.length_pos_of_ne_nil (WireField.serialize_ne_nil f)
    simp only [List.flatMap_cons, List.length_append, List.length_cons]
    omega

/-- The loop of `parse_all` reads back fields that round trip, a pass each, ahead of whatever
follows them, and whatever group the iterator has open. -/
theorem WireField.parseAll.loop_serialize_append {tail : List UInt8}
    {group : Option (List WireValue)} {fuel : Nat} {r : List WireField}
    (hr : parseAll.loop fuel ⟨tail, group⟩ = .ok r) :
    ∀ fs : List WireField, (∀ f ∈ fs, f.RoundTrips) →
      parseAll.loop (fuel + fs.length) ⟨fs.flatMap WireField.serialize ++ tail, group⟩ =
        .ok (fs ++ r)
  | [], _ => by simpa using hr
  | f :: fs, hrt => by
    have ih := loop_serialize_append hr fs fun f' hf' => hrt f' (List.mem_cons_of_mem f hf')
    have hne : (f.serialize ++ (fs.flatMap WireField.serialize ++ tail)).length ≠ 0 := by
      simp [WireField.serialize_ne_nil]
    obtain ⟨n, hn⟩ := Nat.exists_eq_succ_of_ne_zero hne
    have hnext : WireFieldIter.nextImpl ⟨f.serialize ++ (fs.flatMap WireField.serialize ++ tail),
        group⟩ = .ok (some f, ⟨fs.flatMap WireField.serialize ++ tail, group⟩) := by
      simp only [WireFieldIter.nextImpl, hn]
      exact WireFieldIter.nextImpl.loop_serialize (hrt f List.mem_cons_self) _ group n
    rw [List.flatMap_cons, List.append_assoc, List.length_cons, ← Nat.add_assoc,
      parseAll.loop_succ, hnext]
    simp only [bind, Except.bind, ih, pure, Except.pure, List.cons_append]

/-- From an `EndGroup` tag with an empty group open, `parse_all` yields the group and stops. -/
theorem WireField.parseAll.loop_endGroup (hg : g.toNat < 2 ^ 29) (k : Nat) :
    parseAll.loop (k + 2) ⟨Tag.serialize ⟨g, .EndGroup⟩, some []⟩ = .ok [⟨g, .Group []⟩] := by
  have hne : (Tag.serialize ⟨g, .EndGroup⟩).length ≠ 0 := by
    simp [Tag.serialize, serializeVarint_ne_nil]
  obtain ⟨n, hn⟩ := Nat.exists_eq_succ_of_ne_zero hne
  have hnext : WireFieldIter.nextImpl ⟨Tag.serialize ⟨g, .EndGroup⟩, some []⟩ =
      .ok (some ⟨g, .Group []⟩, ⟨[], none⟩) := by
    simp only [WireFieldIter.nextImpl, hn]
    simpa using WireFieldIter.nextImpl.loop_endGroup hg [] [] n
  rw [parseAll.loop_succ, hnext]
  simp [parseAll.loop_succ, WireFieldIter.nextImpl, WireFieldIter.nextImpl.loop_nil, bind,
    Except.bind, pure, Except.pure]

/-- A group's fields are not collected: after a `StartGroup` tag `next_impl` yields each inner
field at the top level, and the `EndGroup` tag then yields the group itself, empty. -/
theorem parseAll_group_yields_inner_fields (hg : g.toNat < 2 ^ 29) (fs : List WireField)
    (hfs : ∀ f ∈ fs, f.RoundTrips) :
    WireField.parseAll (Tag.serialize ⟨g, .StartGroup⟩ ++ fs.flatMap WireField.serialize ++
      Tag.serialize ⟨g, .EndGroup⟩) = .ok (fs ++ [⟨g, .Group []⟩]) := by
  have hS : (Tag.serialize ⟨g, .StartGroup⟩).length ≠ 0 := by
    simp [Tag.serialize, serializeVarint_ne_nil]
  have hE : (Tag.serialize ⟨g, .EndGroup⟩).length ≠ 0 := by
    simp [Tag.serialize, serializeVarint_ne_nil]
  have hB := length_flatMap_serialize_ge fs
  rw [WireField.parseAll, WireFieldIter.new, List.append_assoc]
  cases fs with
  | nil =>
    simp only [List.flatMap_nil, List.nil_append]
    obtain ⟨m, hm⟩ : ∃ m, (Tag.serialize ⟨g, .StartGroup⟩ ++ Tag.serialize ⟨g, .EndGroup⟩).length =
        m + 2 := ⟨_, (Nat.sub_add_cancel (by rw [List.length_append]; omega)).symm⟩
    have hnext : WireFieldIter.nextImpl ⟨Tag.serialize ⟨g, .StartGroup⟩ ++
        Tag.serialize ⟨g, .EndGroup⟩, none⟩ = .ok (some ⟨g, .Group []⟩, ⟨[], none⟩) := by
      rw [WireFieldIter.nextImpl]
      dsimp only
      rw [hm, WireFieldIter.nextImpl.loop_startGroup hg]
      simpa using WireFieldIter.nextImpl.loop_endGroup hg [] [] m
    rw [hm, WireField.parseAll.loop, hnext]
    simp [WireField.parseAll.loop, WireFieldIter.nextImpl, WireFieldIter.nextImpl.loop, bind,
      Except.bind, pure, Except.pure]
  | cons f fs =>
    -- the first inner field comes out of the same `next_impl` call as the start tag
    have hf := hfs f List.mem_cons_self
    have hB' := length_flatMap_serialize_ge fs
    have hflen := List.length_pos_of_ne_nil (WireField.serialize_ne_nil f)
    simp only [List.flatMap_cons, List.append_assoc]
    set tail := fs.flatMap WireField.serialize ++ Tag.serialize ⟨g, .EndGroup⟩ with htail
    have htaillen : fs.length + 1 ≤ tail.length := by
      rw [htail, List.length_append]
      omega
    obtain ⟨m, hm⟩ : ∃ m, (Tag.serialize ⟨g, .StartGroup⟩ ++ (f.serialize ++ tail)).length =
        m + 2 := ⟨_, (Nat.sub_add_cancel (by simp only [List.length_append]; omega)).symm⟩
    have hnext : WireFieldIter.nextImpl ⟨Tag.serialize ⟨g, .StartGroup⟩ ++ (f.serialize ++ tail),
        none⟩ = .ok (some f, ⟨tail, some []⟩) := by
      rw [WireFieldIter.nextImpl]
      dsimp only
      rw [hm, WireFieldIter.nextImpl.loop_startGroup hg]
      exact WireFieldIter.nextImpl.loop_serialize hf tail (some []) m
    obtain ⟨k, hk⟩ : ∃ k, m + 2 = k + 2 + fs.length := ⟨m - fs.length, by
      simp only [List.length_append] at hm
      omega⟩
    have hrest := WireField.parseAll.loop_serialize_append (WireField.parseAll.loop_endGroup hg k)
      fs fun f' hf' => hfs f' (List.mem_cons_of_mem f hf')
    rw [← htail] at hrest
    rw [hm, WireField.parseAll.loop, hnext, hk]
    simp only [bind, Except.bind, hrest, pure, Except.pure, List.cons_append]

/-- A group of field 1 holding the varint field 2 = 0: the iterator yields field 2 at the top
level, then field 1 as an empty group. -/
theorem parseAll_group_yields_inner_fields_at_one :
    WireField.parseAll ([0x0B] ++ [0x10, 0x00] ++ [0x0C]) =
      .ok ([⟨2, .Varint 0⟩] ++ [⟨1, .Group []⟩]) :=
  @parseAll_group_yields_inner_fields 1 (by decide) [⟨2, .Varint 0⟩]
    (by simp [WireField.RoundTrips, WireValue.RoundTrips])

end Groups

end Dacha.Protobuf
