import Dacha.Protobuf.Wire
import Dacha.Lib.Zigzag

/-!
# Varint codecs and zigzag (`protobuf/core/src/codecs.rs`, `wire.rs:109-130`)

`define_varint_codec!` makes one codec per integer type of a `.proto` file: `serialize` writes a
field holding the varint `to_wire(value)`, and `parse` takes a field's varint and applies
`from_wire`. `VarintCodec` is that macro, and each codec is an instance of it with the source's
two conversions. Through `parse_all` a codec reads back exactly `from_wire (to_wire x)`
(`VarintCodec.parseAll_serialize`), so a codec round trips where its two conversions do.

The signed types `sint32` and `sint64` use zigzag (`Dacha.Lib.zigzag`), so that small magnitudes
give short varints. `encode_zigzag32` computes it as `(n << 1) ^ (n >> 31)`, which is the zigzag
of `n`, and then widens it through `i64`, which sign-extends: a code of 32 bits with its top bit set
becomes a ten-byte varint. Both decoders shift right arithmetically,
where the inverse needs a logical shift, so they read bit 30 back into bit 31: decoding an encoded
`n` gives the low 31 bits of `n` sign-extended (`decodeZigzag32_encodeZigzag32`, and
`decodeZigzag64_encodeZigzag64` with 63 of 64 bits). The codecs round trip exactly on
`[-2^30, 2^30)` and `[-2^62, 2^62)` (`sInt32Codec_round_trip_iff`, `sInt64Codec_round_trip_iff`);
every other number comes back with its sign bit flipped.
-/

namespace Dacha.Protobuf

/-! ## Zigzag -/

open Dacha.Lib

def encodeZigzag32 (n : BitVec 32) : BitVec 64 := ((n <<< 1) ^^^ n.sshiftRight 31).signExtend 64

def decodeZigzag32 (v : BitVec 64) : Except WireError (BitVec 32) :=
  let n := v.setWidth 32
  if n.signExtend 64 ≠ v then .error .IntegerOverflow
  else .ok (n.sshiftRight 1 ^^^ -(n &&& 1))

def encodeZigzag64 (n : BitVec 64) : BitVec 64 := (n <<< 1) ^^^ n.sshiftRight 63

def decodeZigzag64 (v : BitVec 64) : BitVec 64 := v.sshiftRight 1 ^^^ -(v &&& 1)

/-- Decoding an encoded `i32` gives back its low 31 bits, sign-extended. -/
theorem decodeZigzag32_encodeZigzag32 (n : BitVec 32) :
    decodeZigzag32 (encodeZigzag32 n) = .ok ((n.setWidth 31).signExtend 32) := by
  rw [decodeZigzag32, encodeZigzag32, setWidth_signExtend_of_le _ (by decide)]
  simp only [ne_eq, not_true_eq_false, if_false]
  rw [unzigzagWord_zigzagWord n]

/-- Decoding an encoded `i64` gives back its low 63 bits, sign-extended. -/
theorem decodeZigzag64_encodeZigzag64 (n : BitVec 64) :
    decodeZigzag64 (encodeZigzag64 n) = (n.setWidth 63).signExtend 64 :=
  unzigzagWord_zigzagWord n

/-! ## Codecs -/

/-- A codec of `define_varint_codec!`: the conversions from and to the varint on the wire. -/
structure VarintCodec (α : Type) where
  fromWire : BitVec 64 → Except WireError α
  toWire : α → BitVec 64

namespace VarintCodec

variable {α : Type} (c : VarintCodec α)

def parse (field : WireField) : Except WireError α := do
  c.fromWire (← field.value.varint)

def serialize (fieldNumber : BitVec 32) (value : α) : List UInt8 :=
  WireField.serialize ⟨fieldNumber, .Varint (c.toWire value)⟩

/-- What `parse_all` and then the codec's `parse` make of the codec's own output: the field's
conversions composed. -/
theorem parseAll_serialize {fieldNumber : BitVec 32} (hf : fieldNumber.toNat < 2 ^ 29) (x : α) :
    (WireField.parseAll (c.serialize fieldNumber x)).bind (·.mapM c.parse) =
      (c.fromWire (c.toWire x)).map ([·]) := by
  have h := WireField.parseAll_serialize [⟨fieldNumber, .Varint (c.toWire x)⟩]
    (by simpa [WireField.RoundTrips, WireValue.RoundTrips] using hf)
  rw [List.flatMap_singleton] at h
  rw [serialize, h]
  simp only [Except.bind, List.mapM_cons, List.mapM_nil, parse, WireValue.varint, bind, pure,
    Except.pure, Except.map]

end VarintCodec

def Int32Codec : VarintCodec (BitVec 32) := ⟨fun v => .ok (v.setWidth 32), fun v => v.signExtend 64⟩

def Int64Codec : VarintCodec (BitVec 64) := ⟨fun v => .ok v, fun v => v⟩

def UInt32Codec : VarintCodec (BitVec 32) := ⟨fun v => .ok (v.setWidth 32), fun v => v.setWidth 64⟩

def UInt64Codec : VarintCodec (BitVec 64) := ⟨fun v => .ok v, fun v => v⟩

def SInt32Codec : VarintCodec (BitVec 32) := ⟨decodeZigzag32, encodeZigzag32⟩

def SInt64Codec : VarintCodec (BitVec 64) := ⟨fun v => .ok (decodeZigzag64 v), encodeZigzag64⟩

def BoolCodec : VarintCodec Bool := ⟨fun v => .ok (v ≠ 0), fun v => if v then 1 else 0⟩

/-- `SInt32Codec` reads back exactly the numbers of `[-2^30, 2^30)`. -/
theorem sInt32Codec_round_trip_iff {fieldNumber : BitVec 32} (hf : fieldNumber.toNat < 2 ^ 29)
    (n : BitVec 32) :
    (WireField.parseAll (SInt32Codec.serialize fieldNumber n)).bind (·.mapM SInt32Codec.parse) =
        .ok [n] ↔ -2 ^ 30 ≤ n.toInt ∧ n.toInt < 2 ^ 30 := by
  rw [SInt32Codec.parseAll_serialize hf, ← signExtend_setWidth_eq_self_iff]
  show (decodeZigzag32 (encodeZigzag32 n)).map ([·]) = _ ↔ _
  rw [decodeZigzag32_encodeZigzag32]
  simp [Except.map]

theorem sInt32Codec_round_trip_minus_five :
    (WireField.parseAll (SInt32Codec.serialize 1 (-5))).bind (·.mapM SInt32Codec.parse) =
      .ok [-5] :=
  (@sInt32Codec_round_trip_iff 1 (by decide) (-5)).mpr (by decide)

/-- `SInt64Codec` reads back exactly the numbers of `[-2^62, 2^62)`. -/
theorem sInt64Codec_round_trip_iff {fieldNumber : BitVec 32} (hf : fieldNumber.toNat < 2 ^ 29)
    (n : BitVec 64) :
    (WireField.parseAll (SInt64Codec.serialize fieldNumber n)).bind (·.mapM SInt64Codec.parse) =
        .ok [n] ↔ -2 ^ 62 ≤ n.toInt ∧ n.toInt < 2 ^ 62 := by
  rw [SInt64Codec.parseAll_serialize hf, ← signExtend_setWidth_eq_self_iff]
  show (Except.ok (decodeZigzag64 (encodeZigzag64 n))).map ([·]) = _ ↔ _
  rw [decodeZigzag64_encodeZigzag64]
  simp [Except.map]

theorem sInt64Codec_round_trip_minus_five :
    (WireField.parseAll (SInt64Codec.serialize 1 (-5))).bind (·.mapM SInt64Codec.parse) =
      .ok [-5] :=
  (@sInt64Codec_round_trip_iff 1 (by decide) (-5)).mpr (by decide)

/-- `2^30` written as `sint32` in field 1 is read back as `-2^30`. Its encoding is the ten-byte
varint of the sign-extended value, not the zigzag `2^31`; and the zigzag `2^31` itself is
refused as an overflow. In 64 bits, `2^62` decodes to `-2^62`. -/
theorem sint32_two_pow_thirty_reads_back_negated :
    (WireField.parseAll (SInt32Codec.serialize 1 0x40000000)).bind (·.mapM SInt32Codec.parse) =
        .ok [0xC0000000] ∧
      (encodeZigzag32 0x40000000).toNat ≠ zigzag (0x40000000 : BitVec 32).toInt ∧
      (serializeVarint (encodeZigzag32 0x40000000)).length = 10 ∧
      decodeZigzag32 (BitVec.ofNat 64 (zigzag (0x40000000 : BitVec 32).toInt)) =
        .error .IntegerOverflow ∧
      decodeZigzag64 (encodeZigzag64 0x4000000000000000) = 0xC000000000000000 := by
  refine ⟨?_, by decide, by decide, by decide, by decide⟩
  rw [SInt32Codec.parseAll_serialize (by decide)]
  decide

end Dacha.Protobuf
