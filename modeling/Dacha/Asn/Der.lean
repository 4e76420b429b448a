import Mathlib
import Dacha.Asn.Encoding

/-!
# The DER reader and writer (`asn/src/encoding.rs`)

| here | there |
| --- | --- |
| `DERWriter`, `writeTag`, `writeLength` | `DERWriter`, `write_tag`, `write_length` (`:765-799`) |
| `writeImplicitly`, `writeExplicitly` | `write_implicitly`, `write_explicitly` (`:804-830`) |
| `writeBool`, `writeOctetstring`, `writeNull`, `writeOid` | `write_bool` (`:842-846`), `write_octetstring`, `write_null`, `write_oid` (`:878-904`) |
| `DERReaderBuffer`, `DERReader`, `readElement` | `DERReaderBuffer`, `DERReader`, `read_element` (`:254-394`) |
| `readImplicitly`, `readExplicitly`, `isFinished` | `read_implicitly`, `read_explicitly` (`:437-468`), `is_finished` (`:743-750`) |
| `readBool`, `readOctetstring`, `readNull`, `readOid` | `read_bool`, `read_octetstring`, `read_null`, `read_oid` (`:487-574`) |

The writer's `out` is the vector it appends to; a write returns the writer after it, or `none` for
a panic. A read returns its result and the reader after it, or `none` for a panic. An error of
`Element::parse` reaches the caller as it is: here it is `ReadError.parse`. The `HashMap` of a
parsed SET is a list of pairs with distinct tags. `write_int`, `write_bitstring` and the string
types are not modelled (their values need `BigInt` and `BitVector`).

An element written under any tag the identifier reader reads back is read back under the same
tag (`readImplicitly_writeOctetstring`, `readImplicitly_writeBool`, `readImplicitly_writeNull`).
A tag number such as `16384` is written but not read (`read_implicit_octetstring_zero_digit_fails`),
and a tag number from `2 ^ 56` on makes the writer panic (`writeTag_eq_none_iff`).
-/

namespace Dacha.Asn

open Dacha.Parsing Parser Dacha.Base128

def TAG_NUMBER_BOOLEAN : Nat := 1
def TAG_NUMBER_OCTET_STRING : Nat := 4
def TAG_NUMBER_NULL : Nat := 5
def TAG_NUMBER_OBJECT_IDENTIFIER : Nat := 6

/-! ## Writer -/

structure DERWriter where
  out : List UInt8
  /-- Where each element starts. -/
  indices : List Nat
  implicitTag : Option Tag

namespace DERWriter

def new (out : List UInt8) : DERWriter := ⟨out, [], none⟩

/-- `out.extend_from_slice`. -/
def extend (w : DERWriter) (data : List UInt8) : DERWriter := { w with out := w.out ++ data }

/-- `write_tag`: a pending implicit tag takes the place of the given one. -/
def writeTag (w : DERWriter) (cls : TagClass) (number : Nat) (constructed : Bool) :
    Option DERWriter :=
  let tag := w.implicitTag.getD ⟨cls, number⟩
  (Identifier.serialize ⟨tag, constructed⟩).map fun bytes =>
    ⟨w.out ++ bytes, w.indices ++ [w.out.length], none⟩

def writeLength (w : DERWriter) (len : Nat) : DERWriter := w.extend (Length.serialize (some len))

def writeImplicitly (w : DERWriter) (tag : Tag) (f : DERWriter → Option DERWriter) :
    Option DERWriter :=
  let w := if w.implicitTag.isNone then { w with implicitTag := some tag } else w
  (f w).map fun w => { w with implicitTag := none }

def writeExplicitly (w : DERWriter) (tag : Tag) (f : DERWriter → Option DERWriter) :
    Option DERWriter := do
  let inner ← f (DERWriter.new [])
  if inner.out.length = 0 then pure w
  else
    let w ← w.writeTag tag.cls tag.number true
    pure ((w.writeLength inner.out.length).extend inner.out)

def writeBool (w : DERWriter) (value : Bool) : Option DERWriter := do
  let w ← w.writeTag .Universal TAG_NUMBER_BOOLEAN false
  pure ((w.writeLength 1).extend [if value then 0xff else 0])

def writeOctetstring (w : DERWriter) (octets : List UInt8) : Option DERWriter := do
  let w ← w.writeTag .Universal TAG_NUMBER_OCTET_STRING false
  pure ((w.writeLength octets.length).extend octets)

def writeNull (w : DERWriter) : Option DERWriter := do
  let w ← w.writeTag .Universal TAG_NUMBER_NULL false
  pure (w.writeLength 0)

/-- `write_oid`; its three `assert!`s are panics. -/
def writeOid (w : DERWriter) (components : List Nat) : Option DERWriter :=
  match components with
  | c0 :: c1 :: rest =>
    if c0 ≤ 2 ∧ c1 < 40 then do
      let arcs ← rest.mapM serializeVarintMsbBe
      let data := UInt8.ofNat (40 * c0 + c1) :: arcs.flatten
      let w ← w.writeTag .Universal TAG_NUMBER_OBJECT_IDENTIFIER false
      pure ((w.writeLength data.length).extend data)
    else none
  | _ => none

end DERWriter

/-! ## Reader -/

inductive DERReaderBuffer where
  | Empty
  | Unparsed (buf : List UInt8)
  | Single (el : Element)
  | Parsed (map : List (Tag × Element))

structure DERReader where
  remaining : DERReaderBuffer
  /-- The octets of each element read, in order. -/
  slices : List (List UInt8)
  implicitTag : Option Tag
  elementsRead : Nat

inductive ReadError where
  | msg (text : String)
  /-- An error of `Element::parse`, passed on as it is. -/
  | parse
  deriving DecidableEq, Repr

namespace DERReader

def new (input : List UInt8) : DERReader := ⟨.Unparsed input, [], none, 0⟩

/-- The `?` after a read: the next step runs on the value; an error or a panic ends the call. -/
def andThen {α β : Type} (res : Option (Except ReadError α × DERReader))
    (k : α → DERReader → Option (Except ReadError β × DERReader)) :
    Option (Except ReadError β × DERReader) :=
  match res with
  | none => none
  | some (.error e, r) => some (.error e, r)
  | some (.ok v, r) => k v r

/-- The element found for a tag, checked for its form, and the reader after it is taken. -/
def takeElement (r : DERReader) (constructed : Bool) (el : Element) (remaining : DERReaderBuffer) :
    Option (Except ReadError (List UInt8) × DERReader) :=
  if constructed ≠ el.ident.constructed then some (.error (.msg "Mismatch in P/C type"), r)
  else
    some (.ok el.data,
      { r with
        remaining := remaining
        elementsRead := r.elementsRead + 1
        slices := r.slices ++ [el.outer] })

/-- `read_element`: the data of the next element, which must have the implicit tag if one is
pending and the given one otherwise. -/
def readElement (r : DERReader) (cls : TagClass) (number : Nat) (constructed : Bool) :
    Option (Except ReadError (List UInt8) × DERReader) :=
  let tag := r.implicitTag.getD ⟨cls, number⟩
  let r := { r with implicitTag := none }
  match r.remaining with
  | .Empty => some (.error (.msg "No remaining data in reader"), r)
  | .Unparsed buffer =>
    match Element.parse buffer with
    | .panic _ => none
    | .reject => some (.error .parse, r)
    | .ok el rest =>
      if tag = el.ident.tag then r.takeElement constructed el (.Unparsed rest)
      else some (.error (.msg "Wrong tag"), r)
  | .Single el =>
    if tag = el.ident.tag then r.takeElement constructed el .Empty
    else some (.error (.msg "Wrong tag"), r)
  | .Parsed map =>
    match map.lookup tag with
    | some el => r.takeElement constructed el (.Parsed (map.filter (·.1 != tag)))
    | none => some (.error (.msg "Missing tag in elements"), r)

def isFinished (r : DERReader) : Bool :=
  match r.remaining with
  | .Empty => true
  | .Single _ => false
  | .Unparsed buf => buf.length == 0
  | .Parsed map => map.length == 0

def readImplicitly {α : Type} (r : DERReader) (tag : Tag)
    (f : DERReader → Option (Except ReadError α × DERReader)) :
    Option (Except ReadError α × DERReader) :=
  let r := if r.implicitTag.isNone then { r with implicitTag := some tag } else r
  (f r).map fun (res, r) => (res, { r with implicitTag := none })

def readExplicitly {α : Type} (r : DERReader) (tag : Tag)
    (f : DERReader → Option (Except ReadError α × DERReader)) :
    Option (Except ReadError α × DERReader) :=
  andThen (r.readElement tag.cls tag.number true) fun data r =>
    andThen (f (DERReader.new data)) fun v inner =>
      if !inner.isFinished then some (.error (.msg "Explicitly typed object contains extra data"), r)
      else some (.ok v, r)

def readBool (r : DERReader) : Option (Except ReadError Bool × DERReader) :=
  andThen (r.readElement .Universal TAG_NUMBER_BOOLEAN false) fun data r =>
    match data with
    | [0x00] => some (.ok false, r)
    | [0xff] => some (.ok true, r)
    | [_] => some (.error (.msg "Invalid boolean value"), r)
    | _ => some (.error (.msg "Data wrong size"), r)

def readOctetstring (r : DERReader) : Option (Except ReadError (List UInt8) × DERReader) :=
  andThen (r.readElement .Universal TAG_NUMBER_OCTET_STRING false) fun data r =>
    some (.ok data, r)

def readNull (r : DERReader) : Option (Except ReadError Unit × DERReader) :=
  andThen (r.readElement .Universal TAG_NUMBER_NULL false) fun data r =>
    if data.length ≠ 0 then some (.error (.msg "Expected no data in NULL"), r)
    else some (.ok (), r)

/-- The contents of an object identifier: the first two components from one octet, then the
arcs as varints for as long as they read. -/
def oidComponents : Parser UInt8 (List Nat) := do
  let first ← beU8
  let val1 := (first / 40).toNat
  let val2 := (first % 40).toNat
  if val1 > 2 then fail
  else
    let extra ← many parseVarintMsbBe
    pure ([val1, val2] ++ extra)

def readOid (r : DERReader) : Option (Except ReadError (List Nat) × DERReader) :=
  andThen (r.readElement .Universal TAG_NUMBER_OBJECT_IDENTIFIER false) fun data r =>
    match complete oidComponents data with
    | .ok items _ => some (.ok items, r)
    | .reject => some (.error .parse, r)
    | .panic _ => none

end DERReader

/-! ## Writing an element -/

section Write

/-- A primitive written under an implicit tag: the tag's identifier, then what the value's writer
appends; the writer panics exactly where the identifier's writer does. -/
theorem DERWriter.writeImplicitly_primitive {w : DERWriter} (hw : w.implicitTag = none) (t : Tag)
    (number : Nat) (k : DERWriter → DERWriter) :
    w.writeImplicitly t (fun w => (w.writeTag .Universal number false).map k) =
      (Identifier.serialize ⟨t, false⟩).map fun ib =>
        { k ⟨w.out ++ ib, w.indices ++ [w.out.length], none⟩ with implicitTag := none } := by
  cases h : Identifier.serialize ⟨t, false⟩ <;>
    simp [DERWriter.writeImplicitly, DERWriter.writeTag, hw, h]

/-- The value writers are a tag and then appended octets. -/
theorem DERWriter.writeOctetstring_eq (w : DERWriter) (octets : List UInt8) :
    w.writeOctetstring octets = (w.writeTag .Universal TAG_NUMBER_OCTET_STRING false).map
      fun w => (w.writeLength octets.length).extend octets := by
  cases h : w.writeTag .Universal TAG_NUMBER_OCTET_STRING false <;>
    simp [DERWriter.writeOctetstring, h]

theorem DERWriter.writeBool_eq (w : DERWriter) (value : Bool) :
    w.writeBool value = (w.writeTag .Universal TAG_NUMBER_BOOLEAN false).map
      fun w => (w.writeLength 1).extend [if value then 0xff else 0] := by
  cases h : w.writeTag .Universal TAG_NUMBER_BOOLEAN false <;> simp [DERWriter.writeBool, h]

theorem DERWriter.writeNull_eq (w : DERWriter) :
    w.writeNull = (w.writeTag .Universal TAG_NUMBER_NULL false).map fun w => w.writeLength 0 := by
  cases h : w.writeTag .Universal TAG_NUMBER_NULL false <;> simp [DERWriter.writeNull, h]

/-- Writing a tag panics exactly on a tag number from `2 ^ 56` on. -/
theorem DERWriter.writeTag_eq_none_iff (w : DERWriter) (cls : TagClass) (number : Nat)
    (constructed : Bool) :
    w.writeTag cls number constructed = none ↔
      2 ^ 56 ≤ (w.implicitTag.getD ⟨cls, number⟩).number := by
  rw [DERWriter.writeTag, Option.map_eq_none_iff, Identifier.serialize_eq_none_iff]

end Write

/-! ## Reading an element -/

section Read

/-- The reader takes an element written with a readable identifier whose tag is the one it
looks for. -/
theorem DERReader.readElement_written {r : DERReader} {t : Tag} {c : Bool}
    (hid : Identifier.Readable ⟨t, c⟩) {ib : List UInt8} (hser : Identifier.serialize ⟨t, c⟩ = some ib)
    {data : List UInt8} (hfit : data.length < 2 ^ 64) {rest : List UInt8}
    (hrem : r.remaining = .Unparsed (ib ++ Length.serialize (some data.length) ++ data ++ rest))
    {cls : TagClass} {number : Nat} (htag : r.implicitTag.getD ⟨cls, number⟩ = t) :
    r.readElement cls number c =
      some (.ok data, { r with
        implicitTag := none
        remaining := .Unparsed rest
        elementsRead := r.elementsRead + 1
        slices := r.slices ++ [ib ++ Length.serialize (some data.length) ++ data] }) := by
  have hp := Element.parse_serialize hid hser data hfit rest
  simp only [DERReader.readElement, hrem, hp, htag, if_true, DERReader.takeElement, ne_eq,
    not_true_eq_false, if_false]

theorem DERReader.readElement_of_reject {r : DERReader} {buffer : List UInt8}
    (hrem : r.remaining = .Unparsed buffer) (h : Element.parse buffer = .reject)
    (cls : TagClass) (number : Nat) (c : Bool) :
    r.readElement cls number c = some (.error .parse, { r with implicitTag := none }) := by
  simp [DERReader.readElement, hrem, h]

/-- A primitive written under an implicit tag and read back under it: the reader gets the data,
and nothing is left. -/
theorem DERReader.readImplicitly_written {α : Type} {t : Tag} (ht : Identifier.Readable ⟨t, false⟩)
    {ib : List UInt8} (hser : Identifier.serialize ⟨t, false⟩ = some ib) (data : List UInt8)
    (hfit : data.length < 2 ^ 64) (number : Nat)
    (k : List UInt8 → DERReader → Option (Except ReadError α × DERReader)) :
    (DERReader.new (ib ++ Length.serialize (some data.length) ++ data)).readImplicitly t
        (fun r => andThen (r.readElement .Universal number false) k) =
      (k data ⟨.Unparsed [], [ib ++ Length.serialize (some data.length) ++ data], none, 1⟩).map
        fun (res, r) => (res, { r with implicitTag := none }) := by
  have hread := @DERReader.readElement_written
    ⟨.Unparsed (ib ++ Length.serialize (some data.length) ++ data), [], some t, 0⟩ t false ht ib
    hser data hfit [] (by simp) .Universal number rfl
  simp only [DERReader.readImplicitly, DERReader.new, Option.isNone_none, if_true, hread, andThen]
  rfl

end Read

/-! ## Round trips -/

section RoundTrip

variable {t : Tag}

theorem readImplicitly_writeOctetstring (ht : Identifier.Readable ⟨t, false⟩) (octets : List UInt8)
    (hfit : octets.length < 2 ^ 64) :
    ∃ w, (DERWriter.new []).writeImplicitly t (·.writeOctetstring octets) = some w ∧
      ∃ r, (DERReader.new w.out).readImplicitly t DERReader.readOctetstring = some (.ok octets, r) ∧
        r.isFinished := by
  obtain ⟨ib, hser, -⟩ := Identifier.parse_serialize ht
  simp only [DERWriter.writeOctetstring_eq]
  rw [DERWriter.writeImplicitly_primitive rfl, hser]
  refine ⟨_, rfl, ?_⟩
  have h := DERReader.readImplicitly_written ht hser octets hfit TAG_NUMBER_OCTET_STRING
    fun data r => some (.ok data, r)
  refine ⟨_, h, ?_⟩
  rfl

/-- The tag `[200]`, written in the long form with the digits `81 48`. -/
theorem readImplicitly_writeOctetstring_at_200 :
    ∃ w, (DERWriter.new []).writeImplicitly ⟨.ContextSpecific, 200⟩ (·.writeOctetstring [1, 2]) =
        some w ∧
      ∃ r, (DERReader.new w.out).readImplicitly ⟨.ContextSpecific, 200⟩
        DERReader.readOctetstring = some (.ok [1, 2], r) ∧ r.isFinished :=
  readImplicitly_writeOctetstring (t := ⟨.ContextSpecific, 200⟩)
    (Or.inr ⟨by decide +kernel, by decide⟩) [1, 2] (by decide)

theorem readImplicitly_writeBool (ht : Identifier.Readable ⟨t, false⟩) (value : Bool) :
    ∃ w, (DERWriter.new []).writeImplicitly t (·.writeBool value) = some w ∧
      ∃ r, (DERReader.new w.out).readImplicitly t DERReader.readBool = some (.ok value, r) ∧
        r.isFinished := by
  obtain ⟨ib, hser, -⟩ := Identifier.parse_serialize ht
  simp only [DERWriter.writeBool_eq]
  rw [DERWriter.writeImplicitly_primitive rfl, hser]
  refine ⟨_, rfl, ?_⟩
  set k : List UInt8 → DERReader → Option (Except ReadError Bool × DERReader) := fun data r =>
    match data with
    | [0x00] => some (.ok false, r)
    | [0xff] => some (.ok true, r)
    | [_] => some (.error (.msg "Invalid boolean value"), r)
    | _ => some (.error (.msg "Data wrong size"), r)
  have hk : ∀ r, k [if value then 0xff else 0] r = some (.ok value, r) := by
    intro r
    cases value <;> rfl
  have h := DERReader.readImplicitly_written ht hser [if value then 0xff else 0] (by simp)
    TAG_NUMBER_BOOLEAN k
  rw [hk] at h
  refine ⟨_, h, ?_⟩
  rfl

theorem readImplicitly_writeBool_at_200 :
    ∃ w, (DERWriter.new []).writeImplicitly ⟨.ContextSpecific, 200⟩ (·.writeBool true) = some w ∧
      ∃ r, (DERReader.new w.out).readImplicitly ⟨.ContextSpecific, 200⟩
        DERReader.readBool = some (.ok true, r) ∧ r.isFinished :=
  readImplicitly_writeBool (t := ⟨.ContextSpecific, 200⟩) (Or.inr ⟨by decide +kernel, by decide⟩)
    true

theorem readImplicitly_writeNull (ht : Identifier.Readable ⟨t, false⟩) :
    ∃ w, (DERWriter.new []).writeImplicitly t DERWriter.writeNull = some w ∧
      ∃ r, (DERReader.new w.out).readImplicitly t DERReader.readNull = some (.ok (), r) ∧
        r.isFinished := by
  obtain ⟨ib, hser, -⟩ := Identifier.parse_serialize ht
  rw [show DERWriter.writeNull = _ from funext DERWriter.writeNull_eq,
    DERWriter.writeImplicitly_primitive rfl, hser]
  refine ⟨_, rfl, ?_⟩
  have h := DERReader.readImplicitly_written ht hser [] (by simp) TAG_NUMBER_NULL
    fun data r => if data.length ≠ 0 then some (.error (.msg "Expected no data in NULL"), r)
      else some (.ok (), r)
  simp only [List.append_nil, List.length_nil, ne_eq, not_true_eq_false, if_false,
    Option.map_some] at h
  refine ⟨_, h, ?_⟩
  rfl

theorem readImplicitly_writeNull_at_200 :
    ∃ w, (DERWriter.new []).writeImplicitly ⟨.ContextSpecific, 200⟩ DERWriter.writeNull = some w ∧
      ∃ r, (DERReader.new w.out).readImplicitly ⟨.ContextSpecific, 200⟩
        DERReader.readNull = some (.ok (), r) ∧ r.isFinished :=
  readImplicitly_writeNull (t := ⟨.ContextSpecific, 200⟩) (Or.inr ⟨by decide +kernel, by decide⟩)

/-- A tag whose number has a zero second-lowest base-128 digit and a digit above it (`16384`,
`32768`, ...) is written, and the element is not read back under it. -/
theorem read_implicit_octetstring_zero_digit_fails (h : 128 * 128 ≤ t.number)
    (hz : t.number / 128 % 128 = 0) (hfit : t.number < 2 ^ 56) (octets : List UInt8) :
    ∃ w, (DERWriter.new []).writeImplicitly t (·.writeOctetstring octets) = some w ∧
      ∃ r, (DERReader.new w.out).readImplicitly t DERReader.readOctetstring =
        some (.error .parse, r) := by
  obtain ⟨ib, hser, hrej⟩ := @Identifier.parse_serialize_of_zero_digit ⟨t, false⟩ h hz hfit
  simp only [DERWriter.writeOctetstring_eq]
  rw [DERWriter.writeImplicitly_primitive rfl, hser]
  refine ⟨_, rfl, ?_⟩
  have hparse : Element.parse (ib ++ Length.serialize (some octets.length) ++ octets) = .reject := by
    rw [List.append_assoc]
    exact Element.parse_of_identifier_reject (hrej _)
  have hread := @DERReader.readElement_of_reject
    ⟨.Unparsed (ib ++ Length.serialize (some octets.length) ++ octets), [], some t, 0⟩ _ rfl
    hparse .Universal TAG_NUMBER_OCTET_STRING false
  exact ⟨_, by
    simp only [DERReader.readImplicitly, DERReader.new, DERReader.readOctetstring, DERWriter.new,
      DERWriter.writeLength, DERWriter.extend, List.nil_append, Option.isNone_none, if_true]
    rw [hread]
    rfl⟩

/-- The tag `[16384]` in the context-specific class. -/
theorem read_implicit_octetstring_at_16384 :
    ∃ w, (DERWriter.new []).writeImplicitly ⟨.ContextSpecific, 16384⟩ (·.writeOctetstring []) =
        some w ∧
      ∃ r, (DERReader.new w.out).readImplicitly ⟨.ContextSpecific, 16384⟩
        DERReader.readOctetstring = some (.error .parse, r) :=
  @read_implicit_octetstring_zero_digit_fails ⟨.ContextSpecific, 16384⟩ (by decide) (by decide)
    (by decide) []

end RoundTrip

end Dacha.Asn
