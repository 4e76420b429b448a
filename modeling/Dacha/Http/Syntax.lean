import Dacha.Parsing.Combinators

/-!
# Chunk lines and trailers (`http/src/chunked_syntax.rs`)

| here | there |
| --- | --- |
| `isSp`, `isHtab`, `isVchar`, `parseOws`, `parseCrlf` | `common_syntax.rs:14-43` |
| `isTchar`, `parseToken` | `message_syntax.rs:383-411` |
| `parseQuotedString`, `isQdtext`, `isObsText`, `parseQuotedPair` | `message_syntax.rs:415-463` |
| `parseHeaderField` and its parts | `message_syntax.rs:269-380` |
| `fromStrRadix16` | `usize::from_str_radix(_, 16)` of `core`, on a 64-bit target |
| `parseChunkSize` | `chunked_syntax.rs:51-55` |
| `parseChunkStart`, `parseChunkExt`, `parseChunkExtVal` | `chunked_syntax.rs:16-34`, `:60-71` |
| `parseChunkEnd`, `parseTrailerPart` | `chunked_syntax.rs:39-45`, `:76-82` |

`parse_chunk_size` reads the hex digits with `take_while1` and converts them with
`usize::from_str_radix(..).unwrap()`; the comment above it says "TODO: Ensure not out of range".
A size of `2^64` or more makes `from_str_radix` return `PosOverflow`, and the `unwrap` panics
(`parseChunkSize_of_overflow`). No other parser of a chunk line or a trailer panics
(`parseChunkStart_eq_panic_iff`, `parseChunkEnd_panicsOnly`).

`Latin1String::from_bytes` always succeeds (its check is commented out), so the `and_then` of
`parse_chunk_ext_val` is a `map`, and the quoted string keeps its bytes.
-/

namespace Dacha.Http

open Dacha.Parsing Parser

/-! ## Characters -/

def isSp (i : UInt8) : Bool := i == 0x20

def isHtab (i : UInt8) : Bool := i == 0x09

def isVchar (i : UInt8) : Bool := 0x21 ≤ i && i ≤ 0x7e

def isObsText (i : UInt8) : Bool := 0x80 ≤ i && i ≤ 0xff

def isFieldVchar (i : UInt8) : Bool := isVchar i || isObsText i

/-- `char::is_ascii_alphanumeric` on a byte. -/
def isAsciiAlphanumeric (i : UInt8) : Bool :=
  (0x30 ≤ i && i ≤ 0x39) || (0x41 ≤ i && i ≤ 0x5a) || (0x61 ≤ i && i ≤ 0x7a)

/-- `is_tchar`: letters, digits and the fifteen symbols of the token rule, as bytes. -/
def isTchar (i : UInt8) : Bool :=
  isAsciiAlphanumeric i ||
    i ∈ [0x21, 0x23, 0x24, 0x25, 0x26, 0x27, 0x2a, 0x2b, 0x2d, 0x2e, 0x5e, 0x5f, 0x60, 0x7c, 0x7e]

/-- `is_qdtext`. The range `0x22-0x5b` holds the double quote itself, where RFC 7230 has
`%x23-5B`. -/
def isQdtext (i : UInt8) : Bool :=
  isHtab i || isSp i || i == 0x21 || (0x22 ≤ i && i ≤ 0x5b) || (0x5d ≤ i && i ≤ 0x7e) ||
    isObsText i

/-- `(i as char).is_digit(16)` -/
def isHexDigit (i : UInt8) : Bool :=
  (0x30 ≤ i && i ≤ 0x39) || (0x41 ≤ i && i ≤ 0x46) || (0x61 ≤ i && i ≤ 0x66)

/-- `char::to_digit(16)` of a hex digit. -/
def hexDigitValue (i : UInt8) : Nat :=
  if i ≤ 0x39 then i.toNat - 0x30 else if i ≤ 0x46 then i.toNat - 0x41 + 10 else i.toNat - 0x61 + 10

/-! ## Common rules -/

def parseCrlf : Parser UInt8 Unit := tag [0x0d, 0x0a]

def parseOws : Parser UInt8 (List UInt8) := takeWhile fun i => isSp i || isHtab i

def parseToken : Parser UInt8 (List UInt8) := takeWhile1 isTchar

def parseQuotedPair : Parser UInt8 UInt8 := do
  let _ ← oneOf [0x5c]
  like fun i => isHtab i || isSp i || isVchar i || isObsText i

def parseQuotedString : Parser UInt8 (List UInt8) := do
  let _ ← oneOf [0x22]
  let data ← many (alt (like isQdtext) parseQuotedPair)
  let _ ← oneOf [0x22]
  pure data

/-! ## Header fields -/

/-- A header of a trailer: `Header { name, value }` of `header.rs`. -/
structure Header where
  name : List UInt8
  value : List UInt8
  deriving DecidableEq, Repr

def parseFieldContent : Parser UInt8 (List UInt8) := slice do
  let _ ← like isFieldVchar
  many do
    let _ ← takeWhile1 fun i => isSp i || isHtab i
    like isFieldVchar

def parseObsFold : Parser UInt8 (List UInt8) := slice do
  let _ ← parseOws
  tag [0x0d, 0x0a]
  let _ ← takeWhile1 fun i => isSp i || isHtab i
  pure ()

/-- `serialize_field_value_internal`: CR and LF become spaces. -/
def serializeFieldValueInternal (data : List UInt8) : List UInt8 :=
  data.map fun b => if b == 0x0d || b == 0x0a then 0x20 else b

def parseFieldValue : Parser UInt8 (List UInt8) :=
  map (slice (many (alt parseFieldContent parseObsFold))) serializeFieldValueInternal

def parseFieldName : Parser UInt8 (List UInt8) := parseToken

def parseHeaderField : Parser UInt8 Header := do
  let name ← parseFieldName
  let _ ← oneOf [0x3a]
  let _ ← parseOws
  let value ← parseFieldValue
  let _ ← parseOws
  pure ⟨name, value⟩

/-! ## Chunk lines -/

/-- `ChunkExtension` (`chunked.rs:17-20`) -/
structure ChunkExtension where
  name : List UInt8
  value : Option (List UInt8)
  deriving DecidableEq, Repr

/-- `ChunkHead` (`chunked.rs:22-25`) -/
structure ChunkHead where
  size : Nat
  extensions : List ChunkExtension
  deriving DecidableEq, Repr

/-- The value of a string of hex digits, most significant first. -/
def hexValue (digits : List UInt8) : Nat := digits.foldl (fun acc d => 16 * acc + hexDigitValue d) 0

/-- `usize::from_str_radix(s, 16)` on the digits `take_while1` accepted: the accumulator is
multiplied and added to with checked arithmetic, and `none` is its `PosOverflow`. -/
def fromStrRadix16 : Nat → List UInt8 → Option Nat
  | acc, [] => some acc
  | acc, d :: ds => if 16 * acc + hexDigitValue d < 2 ^ 64 then fromStrRadix16 (16 * acc + hexDigitValue d) ds
    else none

/-- The panic of `unwrap` on `from_str_radix`'s overflow. -/
def unwrapPosOverflow : String :=
  "called `Result::unwrap()` on an `Err` value: ParseIntError \x7b kind: PosOverflow \x7d"

def parseChunkSize : Parser UInt8 Nat :=
  mapOrPanic (takeWhile1 isHexDigit) fun data =>
    match fromStrRadix16 0 data with
    | some v => .ok v
    | none => .error unwrapPosOverflow

def parseChunkExtName : Parser UInt8 (List UInt8) := parseToken

def parseChunkExtVal : Parser UInt8 (List UInt8) := alt parseQuotedString parseToken

def parseChunkExt : Parser UInt8 (List ChunkExtension) := many do
  let _ ← oneOf [0x3b]
  let name ← parseChunkExtName
  let value ← opt do
    let _ ← oneOf [0x3d]
    parseChunkExtVal
  pure ⟨name, value⟩

def parseChunkStart : Parser UInt8 ChunkHead := do
  let size ← parseChunkSize
  let extensions := (← opt parseChunkExt).getD []
  parseCrlf
  pure ⟨size, extensions⟩

def parseTrailerPart : Parser UInt8 (List Header) := many do
  let h ← parseHeaderField
  parseCrlf
  pure h

def parseChunkEnd : Parser UInt8 (List Header) := do
  let headers ← parseTrailerPart
  parseCrlf
  pure headers

example : parseChunkStart [0x37, 0x0d, 0x0a, 0x4d] = .ok ⟨7, []⟩ [0x4d] := by decide

/-! ## The chunk size -/

/-- One digit step of the conversion. -/
def hexStep (acc : Nat) (d : UInt8) : Nat := 16 * acc + hexDigitValue d

theorem le_foldl_hexStep (ds : List UInt8) (acc : Nat) : acc ≤ ds.foldl hexStep acc := by
  induction ds generalizing acc with
  | nil => exact Nat.le_refl _
  | cons d ds ih =>
    rw [List.foldl_cons]
    exact le_trans (by unfold hexStep; omega) (ih _)

/-- The checked loop of `from_str_radix` overflows exactly when the value does, since each step
only makes the accumulator larger. -/
theorem fromStrRadix16_eq (ds : List UInt8) {acc : Nat} (hacc : acc < 2 ^ 64) :
    fromStrRadix16 acc ds =
      if ds.foldl hexStep acc < 2 ^ 64 then some (ds.foldl hexStep acc) else none := by
  induction ds generalizing acc with
  | nil => rw [List.foldl_nil, if_pos hacc]; rfl
  | cons d ds ih =>
    have hunfold : fromStrRadix16 acc (d :: ds) =
        if hexStep acc d < 2 ^ 64 then fromStrRadix16 (hexStep acc d) ds else none := rfl
    rw [List.foldl_cons, hunfold]
    by_cases hstep : hexStep acc d < 2 ^ 64
    · -- the step fits: the loop goes on from it
      rw [if_pos hstep, ih hstep]
    · -- the step overflows, and so does every value after it
      have hle := le_foldl_hexStep ds (hexStep acc d)
      rw [if_neg hstep, if_neg (by omega)]

theorem hexValue_eq_foldl (ds : List UInt8) : hexValue ds = ds.foldl hexStep 0 := rfl

/-- `from_str_radix` gives the value of the digits when it is below `2^64`. -/
theorem fromStrRadix16_zero (ds : List UInt8) :
    fromStrRadix16 0 ds = if hexValue ds < 2 ^ 64 then some (hexValue ds) else none := by
  rw [hexValue_eq_foldl, fromStrRadix16_eq ds (by norm_num)]

/-- `parse_chunk_size`: a size of `2^64` or more panics. -/
theorem parseChunkSize_of_overflow {input : List UInt8}
    (h : 2 ^ 64 ≤ hexValue (input.takeWhile isHexDigit)) :
    parseChunkSize input = .panic unwrapPosOverflow := by
  have hne : (input.takeWhile isHexDigit).isEmpty = false := by
    cases hw : input.takeWhile isHexDigit with
    | nil => rw [hw] at h; simp [hexValue] at h
    | cons _ _ => rfl
  have hnone : fromStrRadix16 0 (input.takeWhile isHexDigit) = none := by
    rw [fromStrRadix16_zero, if_neg (by omega)]
  simp only [parseChunkSize, mapOrPanic, takeWhile1, hne, Bool.false_eq_true, if_false, hnone]

/-- `parse_chunk_size`: a size below `2^64` is its value. -/
theorem parseChunkSize_of_lt {input : List UInt8} (hne : input.takeWhile isHexDigit ≠ [])
    (h : hexValue (input.takeWhile isHexDigit) < 2 ^ 64) :
    parseChunkSize input =
      .ok (hexValue (input.takeWhile isHexDigit)) (input.dropWhile isHexDigit) := by
  have hne' : (input.takeWhile isHexDigit).isEmpty = false := List.isEmpty_eq_false_iff.mpr hne
  have hsome : fromStrRadix16 0 (input.takeWhile isHexDigit) =
      some (hexValue (input.takeWhile isHexDigit)) := by
    rw [fromStrRadix16_zero, if_pos h]
  simp only [parseChunkSize, mapOrPanic, takeWhile1, hne', Bool.false_eq_true, if_false, hsome]

theorem parseChunkSize_panicsOnly : PanicsOnly (· = unwrapPosOverflow) parseChunkSize := by
  refine PanicsOnly.mapOrPanic (.takeWhile1 _) fun data msg h => ?_
  split at h <;> cases h
  rfl

/-! ## Panics

Every rule but `parse_chunk_size` is built from combinators over predicates, and never
panics. -/

section Panics

variable {P : String → Prop}

theorem parseQuotedPair_panicsOnly : PanicsOnly P parseQuotedPair :=
  .bind (.oneOf _) fun _ => .like _

theorem parseQuotedString_panicsOnly : PanicsOnly P parseQuotedString :=
  .bind (.oneOf _) fun _ =>
    .bind (.many (.alt (.like _) parseQuotedPair_panicsOnly)) fun _ =>
      .bind (.oneOf _) fun _ => .pure _

theorem parseHeaderField_panicsOnly : PanicsOnly P parseHeaderField := by
  have hcontent : PanicsOnly P parseFieldContent :=
    .slice (.bind (.like _) fun _ => .many (.bind (.takeWhile1 _) fun _ => .like _))
  have hfold : PanicsOnly P parseObsFold :=
    .slice (.bind (.takeWhile _) fun _ => .bind (.tag _) fun _ =>
      .bind (.takeWhile1 _) fun _ => .pure _)
  have hvalue : PanicsOnly P parseFieldValue := .map (.slice (.many (.alt hcontent hfold))) _
  exact .bind (.takeWhile1 _) fun _ => .bind (.oneOf _) fun _ => .bind (.takeWhile _) fun _ =>
    .bind hvalue fun _ => .bind (.takeWhile _) fun _ => .pure _

theorem parseChunkExt_panicsOnly : PanicsOnly P parseChunkExt :=
  .many (.bind (.oneOf _) fun _ => .bind (.takeWhile1 _) fun _ =>
    .bind (.opt (.bind (.oneOf _) fun _ => .alt parseQuotedString_panicsOnly (.takeWhile1 _)))
      fun _ => .pure _)

theorem parseChunkEnd_panicsOnly : PanicsOnly P parseChunkEnd :=
  .bind (.many (.bind parseHeaderField_panicsOnly fun _ => .bind (.tag _) fun _ => .pure _))
    fun _ => .bind (.tag _) fun _ => .pure _

/-- What `parse_chunk_start` does after the size. -/
theorem parseChunkStart_rest_panicsOnly (size : Nat) :
    PanicsOnly P (do
      let extensions := (← opt parseChunkExt).getD []
      parseCrlf
      pure (ChunkHead.mk size extensions)) :=
  .bind (.opt parseChunkExt_panicsOnly) fun _ => .bind (.tag _) fun _ => .pure _

end Panics

theorem parseChunkStart_panicsOnly : PanicsOnly (· = unwrapPosOverflow) parseChunkStart :=
  .bind parseChunkSize_panicsOnly parseChunkStart_rest_panicsOnly

/-! ## The loops of `many`

Every `many` of these rules repeats a rule that consumes input, so the fuel of the model's loop
is never used up (`many.loop_eq_of_consumes`): the loops are the source's. -/

theorem parseQuotedPair_consumes : Consumes parseQuotedPair :=
  .bind_left (.oneOf _) fun _ => (Consumes.like _).shortens

theorem parseQuotedString_item_consumes : Consumes (alt (like isQdtext) parseQuotedPair) :=
  .alt (.like _) parseQuotedPair_consumes

theorem parseFieldContent_item_consumes :
    Consumes (do
      let _ ← takeWhile1 fun i => isSp i || isHtab i
      like isFieldVchar) :=
  .bind_left (.takeWhile1 _) fun _ => (Consumes.like _).shortens

theorem parseFieldContent_consumes : Consumes parseFieldContent :=
  .slice (.bind_left (.like _) fun _ => .many parseFieldContent_item_consumes.shortens)

theorem parseObsFold_consumes : Consumes parseObsFold :=
  .slice (.bind_right (.takeWhile _) fun _ => .bind_left (.tag (by decide)) fun _ =>
    .bind (Consumes.takeWhile1 _).shortens fun _ => .pure _)

theorem parseFieldValue_item_consumes : Consumes (alt parseFieldContent parseObsFold) :=
  .alt parseFieldContent_consumes parseObsFold_consumes

theorem parseHeaderField_consumes : Consumes parseHeaderField :=
  .bind_left (.takeWhile1 _) fun _ => .bind (Consumes.oneOf _).shortens fun _ =>
    .bind (.takeWhile _) fun _ =>
      .bind (.map (.slice (.many parseFieldValue_item_consumes.shortens)) _) fun _ =>
        .bind (.takeWhile _) fun _ => .pure _

theorem parseChunkExt_item_consumes :
    Consumes (do
      let _ ← oneOf [(0x3b : UInt8)]
      let name ← parseChunkExtName
      let value ← opt do
        let _ ← oneOf [0x3d]
        parseChunkExtVal
      pure (ChunkExtension.mk name value)) :=
  .bind_left (.oneOf _) fun _ => .bind (Consumes.takeWhile1 _).shortens fun _ =>
    .bind (.opt (.bind (Consumes.oneOf _).shortens fun _ =>
      (Consumes.alt (.bind_left (.oneOf _) fun _ => .bind
        (.many parseQuotedString_item_consumes.shortens) fun _ =>
          .bind (Consumes.oneOf _).shortens fun _ => .pure _) (.takeWhile1 _)).shortens))
      fun _ => .pure _

theorem parseTrailerPart_item_consumes :
    Consumes (do
      let h ← parseHeaderField
      parseCrlf
      pure h) :=
  .bind_left parseHeaderField_consumes fun _ =>
    .bind (Consumes.tag (by decide)).shortens fun _ => .pure _

/-- `parse_chunk_start` panics exactly when the size overflows, with `unwrap`'s message. -/
theorem parseChunkStart_eq_panic_iff (input : List UInt8) (msg : String) :
    parseChunkStart input = .panic msg ↔
      msg = unwrapPosOverflow ∧ 2 ^ 64 ≤ hexValue (input.takeWhile isHexDigit) := by
  constructor
  · intro h
    refine ⟨parseChunkStart_panicsOnly input msg h, ?_⟩
    by_contra hlt
    rw [Nat.not_le] at hlt
    by_cases hne : input.takeWhile isHexDigit = []
    · have hrej : parseChunkSize input = .reject := by
        simp [parseChunkSize, mapOrPanic, takeWhile1, hne]
      rw [parseChunkStart, bind_apply_of_reject hrej] at h
      cases h
    · rw [parseChunkStart, bind_apply_of_ok (parseChunkSize_of_lt hne hlt)] at h
      exact @parseChunkStart_rest_panicsOnly (fun _ => False) _ _ _ h
  · rintro ⟨rfl, h⟩
    rw [parseChunkStart, bind_apply_of_panic (parseChunkSize_of_overflow h)]

end Dacha.Http
