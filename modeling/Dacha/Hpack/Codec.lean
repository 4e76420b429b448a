import Mathlib
import Dacha.Http.Reader
import Dacha.Hpack.HeaderField
import Dacha.Hpack.DynamicTable

/-!
# The encoder and the decoder (`encoder.rs`, `decoder.rs`)

| here | there |
| --- | --- |
| `Encoder`, `Encoder.new`, `Encoder.setLocalMaxSize` | `Encoder` (`encoder.rs:6-42`) |
| `Encoder.appendTableSizeUpdate` | `append_table_size_update` (`:44-51`) |
| `Encoder.append`, `applyLocalMaxSize`, `appendRepresentation` | `append` (`:53-98`), its local limit (`:54-58`) and its choice of representation (`:60-87`) |
| `Decoder`, `Decoder.resolveStringRef` | `Decoder` (`decoder.rs:34-89`) |
| `Decoder.decodeRepresentation` | the body of `decode_next`'s loop (`:99-137`) for one representation |
| `DecoderIterator.decodeNextLoop`, `decodeNext` | `decode_next` (`:97-139`) |
| `parseAllLoop`, `Decoder.parseAll` | `parse_all` (`:64-71`) over the iterator's `next` (`:147-153`) |

The encoder has no error of its own: an `.error` of it is a panic, of `resize` or of an `unwrap`.
`decode_next` loops until a representation is a header, each round reading at least a byte, and
`parse_all` calls it until it ends, so both get the input's length as fuel.

The calls that make a header block are `EncoderCall`s; `Encoder.encodeBlocks` runs blocks on one
encoder and `Decoder.decodeBlocks` parses them on one decoder. `decodeBlocks_encodeBlocks` is the
agreement of the two: from tables in step, the bytes of a block are representations
(`Encodes`) whose decoding gives the block's headers and leaves the decoder's table equal to the
encoder's (`Replays`); `parseAll_of_encodes` says `parse_all` decodes them one by one.
-/

namespace Dacha.Hpack

open Dacha.Http (Outcome Error)

def eqIgnoreAsciiCase (a b : List UInt8) : Bool :=
  let toAsciiLowercase (c : UInt8) : UInt8 := if 65 ≤ c ∧ c ≤ 90 then c + 32 else c
  a.map toAsciiLowercase == b.map toAsciiLowercase

structure Encoder where
  protocolMaxSize : Nat
  localMaxSize : Option Nat
  dynamicTable : DynamicTable
  deriving DecidableEq, Repr

/-- The representation `append` picks for a header: literals that are never indexed for
credentials, else the best match of the tables, indexed anew unless it matches in full. -/
def appendRepresentation (header : HeaderField) (t : DynamicTable) :
    StringReference × StringReference × IndexingMode :=
  let neverIndex := eqIgnoreAsciiCase header.name (ascii "Authentication") ||
    eqIgnoreAsciiCase header.name (ascii "Cookie")
  if neverIndex then (.Literal header.name, .Literal header.value, .Never)
  else
    match searchForHeader header t with
    | some result =>
      if result.valueMatches then (.Indexed result.index, .Indexed result.index, .No)
      else (.Indexed result.index, .Literal header.value, .Yes)
    | none => (.Literal header.name, .Literal header.value, .Yes)

namespace Encoder

def new (protocolMaxSize : Nat) : Encoder := ⟨protocolMaxSize, none, DynamicTable.new protocolMaxSize⟩

def setLocalMaxSize (e : Encoder) (localMaxSize : Nat) : Encoder :=
  { e with localMaxSize := some localMaxSize }

def appendTableSizeUpdate (e : Encoder) (maxSize : Nat) : Except String (Encoder × List UInt8) := do
  let dynamicTable ← e.dynamicTable.resize maxSize
  let bytes ← (HeaderFieldRepresentation.DynamicTableSizeUpdate maxSize).serialize
  pure ({ e with dynamicTable := dynamicTable }, bytes)

/-- The size update `append` sends first when the table is larger than the local limit. -/
def applyLocalMaxSize (e : Encoder) : Except String (Encoder × List UInt8) :=
  match e.localMaxSize with
  | some localMaxSize =>
    if e.dynamicTable.maxSize > localMaxSize then e.appendTableSizeUpdate localMaxSize
    else pure (e, [])
  | none => pure (e, [])

def append (e : Encoder) (header : HeaderField) : Except String (Encoder × List UInt8) := do
  let (e, out) ← e.applyLocalMaxSize
  let (name, value, indexed) := appendRepresentation header e.dynamicTable
  let dynamicTable := if indexed = .Yes then e.dynamicTable.insert header else e.dynamicTable
  let bytes ← (HeaderFieldRepresentation.HeaderField name value indexed).serialize
  pure ({ e with dynamicTable := dynamicTable }, out ++ bytes)

end Encoder

/-- A call on the encoder while it writes a header block. -/
inductive EncoderCall where
  | append (header : HeaderField)
  | appendTableSizeUpdate (maxSize : Nat)
  | setLocalMaxSize (localMaxSize : Nat)
  deriving DecidableEq, Repr

namespace EncoderCall

/-- The headers a call appends. -/
def appended : EncoderCall → List HeaderField
  | .append header => [header]
  | _ => []

/-- What the source asks of a call's arguments: lengths are `usize`s, and a size update is at most
the protocol's maximum. -/
def Valid (protocolMaxSize : Nat) : EncoderCall → Prop
  | .append header => header.name.length < 2 ^ 64 ∧ header.value.length < 2 ^ 64
  | .appendTableSizeUpdate maxSize => maxSize ≤ protocolMaxSize
  | .setLocalMaxSize _ => True

instance (protocolMaxSize : Nat) : DecidablePred (Valid protocolMaxSize) := fun c =>
  match c with
  | .append _ => inferInstanceAs (Decidable (_ ∧ _))
  | .appendTableSizeUpdate _ => inferInstanceAs (Decidable (_ ≤ _))
  | .setLocalMaxSize _ => inferInstanceAs (Decidable True)

end EncoderCall

/-- The headers a block's calls append. -/
def appendedHeaders (calls : List EncoderCall) : List HeaderField := calls.flatMap EncoderCall.appended

namespace Encoder

def call (e : Encoder) : EncoderCall → Except String (Encoder × List UInt8)
  | .append header => e.append header
  | .appendTableSizeUpdate maxSize => e.appendTableSizeUpdate maxSize
  | .setLocalMaxSize localMaxSize => pure (e.setLocalMaxSize localMaxSize, [])

/-- A header block: the calls one after another, each appending to the block's bytes. -/
def encodeBlock : Encoder → List EncoderCall → Except String (Encoder × List UInt8)
  | e, [] => pure (e, [])
  | e, c :: cs => do
    let (e, bytes) ← e.call c
    let (e, rest) ← e.encodeBlock cs
    pure (e, bytes ++ rest)

/-- Header blocks on one encoder: each block's bytes, with the entries of the table after it. -/
def encodeBlocks : Encoder → List (List EncoderCall) →
    Except String (List (List UInt8 × List HeaderField))
  | _, [] => pure []
  | e, block :: blocks => do
    let (e, bytes) ← e.encodeBlock block
    let rest ← e.encodeBlocks blocks
    pure ((bytes, e.dynamicTable.entries) :: rest)

end Encoder

/-- `hpack_encoder_test`: a static-table hit, a new header, the same header fully indexed, a name
match with a new value, and the first header again at its shifted index. -/
example : (Encoder.new 512).encodeBlocks
    [[.append ⟨ascii ":status", ascii "200"⟩],
      [.append ⟨ascii "awesome-header", ascii "awesome-value"⟩],
      [.append ⟨ascii "awesome-header", ascii "awesome-value"⟩],
      [.append ⟨ascii "awesome-header", ascii "brand-new-value"⟩],
      [.append ⟨ascii "awesome-header", ascii "awesome-value"⟩]] =
    .ok [([0x88], []),
      ([64, 138, 31, 130, 160, 244, 149, 105, 202, 57, 11, 103, 138, 31, 130, 160, 244, 149, 110,
        227, 162, 210, 255], [⟨ascii "awesome-header", ascii "awesome-value"⟩]),
      ([190], [⟨ascii "awesome-header", ascii "awesome-value"⟩]),
      ([126, 139, 142, 193, 213, 34, 213, 23, 194, 221, 199, 69, 165],
        [⟨ascii "awesome-header", ascii "brand-new-value"⟩, ⟨ascii "awesome-header", ascii "awesome-value"⟩]),
      ([191], [⟨ascii "awesome-header", ascii "brand-new-value"⟩,
        ⟨ascii "awesome-header", ascii "awesome-value"⟩])] := by
  decide +kernel

structure Decoder where
  dynamicTable : DynamicTable
  protocolMaxSize : Nat
  deriving DecidableEq, Repr

structure DecoderIterator where
  decoder : Decoder
  input : List UInt8
  deriving DecidableEq, Repr

namespace Decoder

def new (protocolMaxSize : Nat) : Decoder := ⟨DynamicTable.new protocolMaxSize, protocolMaxSize⟩

def resolveStringRef (d : Decoder) (r : StringReference) (isValue : Bool) : Option (List UInt8) :=
  match r with
  | .Indexed i =>
    (lookupHeaderByIndex i d.dynamicTable).map fun h => if isValue then h.value else h.name
  | .Literal value => some value

/-- One representation in `decode_next`: a header, or nothing after a size update. -/
def decodeRepresentation (d : Decoder) :
    HeaderFieldRepresentation → Outcome Decoder (Option HeaderField)
  | .HeaderField name value indexed =>
    match d.resolveStringRef name false with
    | none => .ret (.error (.msg "Failed to find name")) d
    | some nameData =>
      match d.resolveStringRef value true with
      | none => .ret (.error (.msg "Failed to find value data")) d
      | some valueData =>
        let header : HeaderField := ⟨nameData, valueData⟩
        .ret (.ok (some header))
          (if indexed = .Yes then { d with dynamicTable := d.dynamicTable.insert header } else d)
  | .DynamicTableSizeUpdate maxSize =>
    if maxSize > d.protocolMaxSize then
      .ret (.error (.msg "Dynamic size update > protocol max size")) d
    else
      match d.dynamicTable.resize maxSize with
      | .error msg => .panic msg
      | .ok dynamicTable => .ret (.ok none) { d with dynamicTable := dynamicTable }

end Decoder

namespace DecoderIterator

/-- The loop of `decode_next`: representations are read until one is a header. -/
def decodeNextLoop : Nat → DecoderIterator → Outcome DecoderIterator (Option HeaderField)
  | 0, it => .ret (.ok none) it
  | fuel + 1, it =>
    if it.input.isEmpty then .ret (.ok none) it
    else
      match HeaderFieldRepresentation.parse it.input with
      | .error e => .ret (.error (.msg e)) it
      | .ok (repr, rest) =>
        match it.decoder.decodeRepresentation repr with
        | .panic msg => .panic msg
        | .ret (.error e) decoder => .ret (.error e) ⟨decoder, rest⟩
        | .ret (.ok (some header)) decoder => .ret (.ok (some header)) ⟨decoder, rest⟩
        | .ret (.ok none) decoder => decodeNextLoop fuel ⟨decoder, rest⟩

def decodeNext (it : DecoderIterator) : Outcome DecoderIterator (Option HeaderField) :=
  decodeNextLoop (it.input.length + 1) it

end DecoderIterator

/-- The loop of `parse_all`: `next` until the iterator ends or fails. -/
def parseAllLoop : Nat → DecoderIterator → List HeaderField → Outcome DecoderIterator (List HeaderField)
  | 0, it, out => .ret (.ok out) it
  | fuel + 1, it, out =>
    match it.decodeNext with
    | .panic msg => .panic msg
    | .ret (.error e) it => .ret (.error e) it
    | .ret (.ok none) it => .ret (.ok out) it
    | .ret (.ok (some header)) it => parseAllLoop fuel it (out ++ [header])

namespace Decoder

def parseAll (d : Decoder) (data : List UInt8) : Outcome Decoder (List HeaderField) :=
  match parseAllLoop (data.length + 1) ⟨d, data⟩ [] with
  | .panic msg => .panic msg
  | .ret result it => .ret result it.decoder

/-- Header blocks through `parse_all` on one decoder: each block's headers, with the entries of
the table after it. -/
def decodeBlocks : Decoder → List (List UInt8) →
    Outcome Decoder (List (List HeaderField × List HeaderField))
  | d, [] => .ret (.ok []) d
  | d, block :: blocks =>
    match d.parseAll block with
    | .panic msg => .panic msg
    | .ret (.error e) d => .ret (.error e) d
    | .ret (.ok headers) d =>
      match d.decodeBlocks blocks with
      | .panic msg => .panic msg
      | .ret (.error e) d' => .ret (.error e) d'
      | .ret (.ok rest) d' => .ret (.ok ((headers, d.dynamicTable.entries) :: rest)) d'

/-- `hpack_decoder_example5`, the first request of RFC 7541 C.3: three static-table hits and a
literal with an indexed name, which is inserted (57 bytes). -/
example : (Decoder.new 512).parseAll
    [0x82, 0x86, 0x84, 0x41, 0x0f, 0x77, 0x77, 0x77, 0x2e, 0x65, 0x78, 0x61, 0x6d, 0x70, 0x6c, 0x65,
      0x2e, 0x63, 0x6f, 0x6d] =
    .ret (.ok [⟨ascii ":method", ascii "GET"⟩, ⟨ascii ":scheme", ascii "http"⟩,
        ⟨ascii ":path", ascii "/"⟩, ⟨ascii ":authority", ascii "www.example.com"⟩])
      ⟨⟨512, 57, [⟨ascii ":authority", ascii "www.example.com"⟩]⟩, 512⟩ := by
  decide +kernel

/-- Representations decoded one after another, as `decode_next` treats each. -/
def decodeRepresentations : Decoder → List HeaderFieldRepresentation →
    Outcome Decoder (List HeaderField)
  | d, [] => .ret (.ok []) d
  | d, r :: rs =>
    match d.decodeRepresentation r with
    | .panic msg => .panic msg
    | .ret (.error e) d => .ret (.error e) d
    | .ret (.ok header) d =>
      match d.decodeRepresentations rs with
      | .panic msg => .panic msg
      | .ret (.error e) d' => .ret (.error e) d'
      | .ret (.ok headers) d' => .ret (.ok (header.toList ++ headers)) d'

end Decoder

/-! ## The decoder on serialized representations -/

/-- `bytes` are the representations `reps` serialized one after another. -/
inductive Encodes : List HeaderFieldRepresentation → List UInt8 → Prop
  | nil : Encodes [] []
  | cons {r : HeaderFieldRepresentation} {rs : List HeaderFieldRepresentation}
      {b bs : List UInt8} : r.Serializable → r.serialize = .ok b → Encodes rs bs →
      Encodes (r :: rs) (b ++ bs)

theorem Encodes.append {rs rs' : List HeaderFieldRepresentation} {bs bs' : List UInt8}
    (h : Encodes rs bs) (h' : Encodes rs' bs') : Encodes (rs ++ rs') (bs ++ bs') := by
  induction h with
  | nil => exact h'
  | cons hr hser _ ih => rw [List.cons_append, List.append_assoc]; exact .cons hr hser ih

/-- Every representation takes a byte, so there are no more of them than bytes. -/
theorem Encodes.length_le {rs : List HeaderFieldRepresentation} {bs : List UInt8}
    (h : Encodes rs bs) : rs.length ≤ bs.length := by
  induction h with
  | nil => simp
  | cons _ hser _ ih =>
    have := List.length_pos_of_ne_nil (serialize_ne_nil hser)
    simp; omega

namespace DecoderIterator

/-- One round of `decode_next` on a serialized representation: it is read back and decoded. -/
theorem decodeNextLoop_cons {r : HeaderFieldRepresentation} {b : List UInt8}
    (hr : r.Serializable) (hser : r.serialize = .ok b) (fuel : Nat) (d : Decoder)
    (bs : List UInt8) :
    decodeNextLoop (fuel + 1) ⟨d, b ++ bs⟩ =
      match d.decodeRepresentation r with
      | .panic msg => .panic msg
      | .ret (.error e) decoder => .ret (.error e) ⟨decoder, bs⟩
      | .ret (.ok (some header)) decoder => .ret (.ok (some header)) ⟨decoder, bs⟩
      | .ret (.ok none) decoder => decodeNextLoop fuel ⟨decoder, bs⟩ := by
  obtain ⟨b', hser', hparse⟩ := parse_serialize hr bs
  rw [hser, Except.ok.injEq] at hser'
  subst hser'
  have hne : (b ++ bs).isEmpty = false := by
    simp [serialize_ne_nil hser]
  simp only [decodeNextLoop, hne, Bool.false_eq_true, if_false, hparse]

/-- On serialized representations `decode_next` takes as many rounds as there are
representations, so any fuel above that gives one outcome. -/
theorem decodeNextLoop_congr {rs : List HeaderFieldRepresentation} {bs : List UInt8}
    (h : Encodes rs bs) :
    ∀ (d : Decoder) (fuel fuel' : Nat), rs.length < fuel → rs.length < fuel' →
      decodeNextLoop fuel ⟨d, bs⟩ = decodeNextLoop fuel' ⟨d, bs⟩ := by
  induction h with
  | nil =>
    intro d fuel fuel' hf hf'
    obtain ⟨f, rfl⟩ : ∃ f, fuel = f + 1 := ⟨fuel - 1, by simp at hf; omega⟩
    obtain ⟨f', rfl⟩ : ∃ f', fuel' = f' + 1 := ⟨fuel' - 1, by simp at hf'; omega⟩
    rfl
  | cons hr hser _ ih =>
    intro d fuel fuel' hf hf'
    obtain ⟨f, rfl⟩ : ∃ f, fuel = f + 1 := ⟨fuel - 1, by simp at hf; omega⟩
    obtain ⟨f', rfl⟩ : ∃ f', fuel' = f' + 1 := ⟨fuel' - 1, by simp at hf'; omega⟩
    simp only [List.length_cons] at hf hf'
    rw [decodeNextLoop_cons hr hser, decodeNextLoop_cons hr hser]
    split <;> first | rfl | exact ih _ f f' (by omega) (by omega)

end DecoderIterator

/-- `parse_all`'s round looks at the iterator only through `decode_next`. -/
theorem parseAllLoop_congr {it it' : DecoderIterator} (h : it.decodeNext = it'.decodeNext)
    (fuel : Nat) (out : List HeaderField) :
    parseAllLoop (fuel + 1) it out = parseAllLoop (fuel + 1) it' out := by
  simp only [parseAllLoop, h]

namespace Decoder

theorem decodeRepresentations_cons_ok {d d' : Decoder} {r : HeaderFieldRepresentation}
    {rs : List HeaderFieldRepresentation} {headers : List HeaderField}
    (h : d.decodeRepresentations (r :: rs) = .ret (.ok headers) d') :
    ∃ header d₁ rest, d.decodeRepresentation r = .ret (.ok header) d₁ ∧
      d₁.decodeRepresentations rs = .ret (.ok rest) d' ∧ headers = header.toList ++ rest := by
  simp only [decodeRepresentations] at h
  split at h
  · cases h
  · cases h
  · next header d₁ hr =>
    split at h
    · cases h
    · cases h
    · next rest d₂ hrs =>
      cases h
      exact ⟨header, d₁, rest, hr, hrs, rfl⟩

theorem decodeRepresentations_append {d d₁ d₂ : Decoder} {rs rs' : List HeaderFieldRepresentation}
    {hs hs' : List HeaderField} (h : d.decodeRepresentations rs = .ret (.ok hs) d₁)
    (h' : d₁.decodeRepresentations rs' = .ret (.ok hs') d₂) :
    d.decodeRepresentations (rs ++ rs') = .ret (.ok (hs ++ hs')) d₂ := by
  induction rs generalizing d hs with
  | nil =>
    simp only [decodeRepresentations, Outcome.ret.injEq, Except.ok.injEq] at h
    obtain ⟨rfl, rfl⟩ := h
    simpa using h'
  | cons r rs ih =>
    obtain ⟨header, d₀, rest, hr, hrs, rfl⟩ := decodeRepresentations_cons_ok h
    simp [decodeRepresentations, hr, ih hrs]

end Decoder

/-- `parse_all` on serialized representations decodes them one by one. The induction is on the
representations; a size update is decoded inside `decode_next`, which then goes on with the fuel
it has left, and `decodeNextLoop_congr` says that this is the round `parse_all` makes next. -/
theorem parseAllLoop_of_encodes {rs : List HeaderFieldRepresentation} {bs : List UInt8}
    (h : Encodes rs bs) :
    ∀ {d d' : Decoder} {hs : List HeaderField}, d.decodeRepresentations rs = .ret (.ok hs) d' →
      ∀ (fuel : Nat), rs.length < fuel → ∀ out,
        parseAllLoop fuel ⟨d, bs⟩ out = .ret (.ok (out ++ hs)) ⟨d', []⟩ := by
  induction h with
  | nil =>
    intro d d' hs hdec fuel hf out
    simp only [Decoder.decodeRepresentations, Outcome.ret.injEq, Except.ok.injEq] at hdec
    obtain ⟨rfl, rfl⟩ := hdec
    obtain ⟨f, rfl⟩ : ∃ f, fuel = f + 1 := ⟨fuel - 1, by simp at hf; omega⟩
    simp [parseAllLoop, DecoderIterator.decodeNext, DecoderIterator.decodeNextLoop]
  | @cons r rs b bs hr hser hrs ih =>
    intro d d' hs hdec fuel hf out
    obtain ⟨header, d₁, rest, hone, hrest, rfl⟩ := Decoder.decodeRepresentations_cons_ok hdec
    obtain ⟨f, rfl⟩ : ∃ f, fuel = f + 1 := ⟨fuel - 1, by simp at hf; omega⟩
    simp only [List.length_cons] at hf
    have hbs := hrs.length_le
    have hb := List.length_pos_of_ne_nil (serialize_ne_nil hser)
    have hnext : DecoderIterator.decodeNext ⟨d, b ++ bs⟩ =
        DecoderIterator.decodeNextLoop ((b ++ bs).length + 1) ⟨d, b ++ bs⟩ := rfl
    rw [DecoderIterator.decodeNextLoop_cons hr hser, hone] at hnext
    cases header with
    | some header =>
      simp only [parseAllLoop, hnext]
      rw [ih hrest f (by omega) (out ++ [header])]
      simp
    | none =>
      have hround : DecoderIterator.decodeNext ⟨d, b ++ bs⟩ =
          DecoderIterator.decodeNext ⟨d₁, bs⟩ := by
        rw [hnext]
        exact DecoderIterator.decodeNextLoop_congr hrs d₁ _ _ (by simp; omega)
          (by show rs.length < bs.length + 1; omega)
      rw [parseAllLoop_congr hround, ih hrest (f + 1) (by omega) out]
      simp

theorem parseAll_of_encodes {rs : List HeaderFieldRepresentation} {bs : List UInt8}
    (h : Encodes rs bs) {d d' : Decoder} {hs : List HeaderField}
    (hdec : d.decodeRepresentations rs = .ret (.ok hs) d') : d.parseAll bs = .ret (.ok hs) d' := by
  have hlen := h.length_le
  simp [Decoder.parseAll, parseAllLoop_of_encodes h hdec (bs.length + 1) (by omega) []]

/-! ## The encoder's calls replayed by the decoder -/

namespace Encoder

/-- What the encoder keeps: a protocol maximum that fits a `usize`, a table within it, and the
table's own invariant. -/
structure Inv (e : Encoder) : Prop where
  protocol_lt : e.protocolMaxSize < 2 ^ 64
  max_le : e.dynamicTable.maxSize ≤ e.protocolMaxSize
  table : e.dynamicTable.Inv

theorem new_inv {protocolMaxSize : Nat} (hp : protocolMaxSize < 2 ^ 64) :
    (new protocolMaxSize).Inv :=
  ⟨hp, le_rfl, DynamicTable.new_inv _⟩

/-- The bytes some calls wrote are representations that decode, from a decoder whose table is the
encoder's before the calls, to the headers the calls appended, and leave the decoder's table the
encoder's after them. -/
def Replays (e e' : Encoder) (bytes : List UInt8) (headers : List HeaderField) : Prop :=
  ∃ reps, Encodes reps bytes ∧ ∀ d : Decoder, d.dynamicTable = e.dynamicTable →
    d.protocolMaxSize = e.protocolMaxSize →
    d.decodeRepresentations reps = .ret (.ok headers) { d with dynamicTable := e'.dynamicTable }

theorem Replays.of_dynamicTable_eq {e e' : Encoder} (h : e'.dynamicTable = e.dynamicTable) :
    Replays e e' [] [] :=
  ⟨[], .nil, fun d hd _ => by rw [h, ← hd]; rfl⟩

theorem Replays.append {e e₁ e₂ : Encoder} {b₁ b₂ : List UInt8} {hs₁ hs₂ : List HeaderField}
    (h₁ : Replays e e₁ b₁ hs₁) (h₂ : Replays e₁ e₂ b₂ hs₂)
    (hp : e₁.protocolMaxSize = e.protocolMaxSize) : Replays e e₂ (b₁ ++ b₂) (hs₁ ++ hs₂) := by
  obtain ⟨rs₁, henc₁, hdec₁⟩ := h₁
  obtain ⟨rs₂, henc₂, hdec₂⟩ := h₂
  refine ⟨rs₁ ++ rs₂, henc₁.append henc₂, fun d hd hpd => ?_⟩
  have hmid := hdec₂ { d with dynamicTable := e₁.dynamicTable } rfl (by simp [hpd, hp])
  exact Decoder.decodeRepresentations_append (hdec₁ d hd hpd) hmid

/-- One representation that the decoder turns into `header`, or into nothing, with the table the
encoder has after it. -/
theorem replays_single {e e' : Encoder} {r : HeaderFieldRepresentation} {b : List UInt8}
    (header : Option HeaderField) (hr : r.Serializable) (hser : r.serialize = .ok b)
    (hdec : ∀ d : Decoder, d.dynamicTable = e.dynamicTable → d.protocolMaxSize = e.protocolMaxSize →
      d.decodeRepresentation r = .ret (.ok header) { d with dynamicTable := e'.dynamicTable }) :
    Replays e e' b header.toList := by
  refine ⟨[r], by simpa using Encodes.cons hr hser .nil, fun d hd hpd => ?_⟩
  simp [Decoder.decodeRepresentations, hdec d hd hpd]

theorem appendTableSizeUpdate_replays {e e' : Encoder} {maxSize : Nat} {bytes : List UInt8}
    (he : e.Inv) (hmax : maxSize ≤ e.protocolMaxSize)
    (h : e.appendTableSizeUpdate maxSize = .ok (e', bytes)) :
    e'.Inv ∧ e'.protocolMaxSize = e.protocolMaxSize ∧ Replays e e' bytes [] := by
  cases hr : e.dynamicTable.resize maxSize with
  | error msg => simp [appendTableSizeUpdate, hr, bind, Except.bind] at h
  | ok t =>
    simp only [appendTableSizeUpdate, hr, HeaderFieldRepresentation.serialize, bind, Except.bind,
      pure, Except.pure, Except.ok.injEq, Prod.mk.injEq] at h
    obtain ⟨rfl, rfl⟩ := h
    obtain ⟨hinv, hmax'⟩ := DynamicTable.resize_inv he.table hr
    refine ⟨⟨he.protocol_lt, by simp [hmax', hmax], hinv⟩, rfl, ?_⟩
    refine replays_single none
      (show (HeaderFieldRepresentation.DynamicTableSizeUpdate maxSize).Serializable from
        lt_of_le_of_lt hmax he.protocol_lt) rfl
      fun d hd hpd => ?_
    have hle : ¬ maxSize > d.protocolMaxSize := by omega
    simp [Decoder.decodeRepresentation, hle, hd, hr]

theorem applyLocalMaxSize_replays {e e' : Encoder} {bytes : List UInt8} (he : e.Inv)
    (h : e.applyLocalMaxSize = .ok (e', bytes)) :
    e'.Inv ∧ e'.protocolMaxSize = e.protocolMaxSize ∧ Replays e e' bytes [] := by
  unfold applyLocalMaxSize at h
  split at h
  · next localMaxSize _ =>
    split at h
    · next hgt =>
      exact appendTableSizeUpdate_replays he (by have := he.max_le; omega) h
    · simp only [pure, Except.pure, Except.ok.injEq, Prod.mk.injEq] at h
      obtain ⟨rfl, rfl⟩ := h
      exact ⟨he, rfl, Replays.of_dynamicTable_eq rfl⟩
  · simp only [pure, Except.pure, Except.ok.injEq, Prod.mk.injEq] at h
    obtain ⟨rfl, rfl⟩ := h
    exact ⟨he, rfl, Replays.of_dynamicTable_eq rfl⟩

end Encoder

section Representation

variable {header : HeaderField} {t : DynamicTable} {name value : StringReference}
  {indexed : IndexingMode}

/-- An index `search_for_header` returns fits a `usize`: the table holds at most
`max_size / 32` entries. -/
theorem index_lt_of_namesAt (ht : t.Inv) (hmax : t.maxSize < 2 ^ 64) {j : Nat}
    (hj : NamesAt header t j) : j < 2 ^ 64 := by
  have hlen := DynamicTable.length_le ht
  have h61 : STATIC_TABLE.length = 61 := length_STATIC_TABLE
  obtain ⟨-, hle, -⟩ := hj
  omega

/-- The representation `append` picks serializes, and decodes, from the same table, to the header
with the table `append` leaves. -/
theorem appendRepresentation_spec (ht : t.Inv) (hmax : t.maxSize < 2 ^ 64)
    (hname : header.name.length < 2 ^ 64) (hvalue : header.value.length < 2 ^ 64)
    (hrep : appendRepresentation header t = (name, value, indexed)) :
    (HeaderFieldRepresentation.HeaderField name value indexed).Serializable ∧
      ∀ d : Decoder, d.dynamicTable = t →
        d.decodeRepresentation (.HeaderField name value indexed) =
          .ret (.ok (some header))
            { d with dynamicTable := if indexed = .Yes then t.insert header else t } := by
  unfold appendRepresentation at hrep
  by_cases hnever : (eqIgnoreAsciiCase header.name (ascii "Authentication") ||
      eqIgnoreAsciiCase header.name (ascii "Cookie")) = true
  · -- credentials: literals, never indexed
    simp only [hnever, if_true, Prod.mk.injEq] at hrep
    obtain ⟨rfl, rfl, rfl⟩ := hrep
    refine ⟨⟨hname, hvalue⟩, fun d hd => ?_⟩
    simp [Decoder.decodeRepresentation, Decoder.resolveStringRef, ← hd]
  · simp only [hnever, Bool.false_eq_true, if_false] at hrep
    cases hsearch : searchForHeader header t with
    | some result =>
      simp only [hsearch] at hrep
      obtain ⟨hnames, hfull⟩ := searchForHeader_sound header t hsearch
      have hpos : 0 < result.index := hnames.1
      have hlt := index_lt_of_namesAt ht hmax hnames
      by_cases hvm : result.valueMatches = true
      · -- a full match: one index, nothing inserted
        simp only [hvm, if_true, Prod.mk.injEq] at hrep
        obtain ⟨rfl, rfl, rfl⟩ := hrep
        refine ⟨⟨rfl, hpos, hlt⟩, fun d hd => ?_⟩
        subst hd
        simp [Decoder.decodeRepresentation, Decoder.resolveStringRef, hfull hvm]
      · -- a name match: the name by index, the value literal, and the header inserted
        simp only [hvm, Bool.false_eq_true, if_false, Prod.mk.injEq] at hrep
        obtain ⟨rfl, rfl, rfl⟩ := hrep
        obtain ⟨-, -, entry, hlook, hentry⟩ := hnames
        refine ⟨⟨⟨hpos, hlt⟩, hvalue⟩, fun d hd => ?_⟩
        simp [Decoder.decodeRepresentation, Decoder.resolveStringRef, hd, hlook, hentry]
    | none =>
      simp only [hsearch, Prod.mk.injEq] at hrep
      obtain ⟨rfl, rfl, rfl⟩ := hrep
      refine ⟨⟨hname, hvalue⟩, fun d hd => ?_⟩
      simp [Decoder.decodeRepresentation, Decoder.resolveStringRef, hd]

end Representation

namespace Encoder

theorem append_replays {e e' : Encoder} {header : HeaderField} {bytes : List UInt8} (he : e.Inv)
    (hname : header.name.length < 2 ^ 64) (hvalue : header.value.length < 2 ^ 64)
    (h : e.append header = .ok (e', bytes)) :
    e'.Inv ∧ e'.protocolMaxSize = e.protocolMaxSize ∧ Replays e e' bytes [header] := by
  cases hloc : e.applyLocalMaxSize with
  | error msg => simp [append, hloc, bind, Except.bind] at h
  | ok p =>
    obtain ⟨e₁, out⟩ := p
    obtain ⟨he₁, hp₁, hreplay₁⟩ := applyLocalMaxSize_replays he hloc
    rcases hrep : appendRepresentation header e₁.dynamicTable with ⟨name, value, indexed⟩
    obtain ⟨hser, hdec⟩ := appendRepresentation_spec he₁.table
      (lt_of_le_of_lt he₁.max_le he₁.protocol_lt) hname hvalue hrep
    obtain ⟨b, hb, -⟩ := parse_serialize hser []
    simp only [append, hloc, hrep, hb, bind, Except.bind, pure, Except.pure, Except.ok.injEq,
      Prod.mk.injEq] at h
    obtain ⟨rfl, rfl⟩ := h
    have hinv : (if indexed = .Yes then e₁.dynamicTable.insert header else e₁.dynamicTable).Inv := by
      split
      · exact DynamicTable.insert_inv he₁.table header
      · exact he₁.table
    refine ⟨⟨he₁.protocol_lt, by split <;> simp [he₁.max_le], hinv⟩, hp₁, ?_⟩
    exact hreplay₁.append (replays_single (some header) hser hb fun d hd _ => hdec d hd) hp₁

theorem call_replays {e e' : Encoder} {c : EncoderCall} {bytes : List UInt8} (he : e.Inv)
    (hc : c.Valid e.protocolMaxSize) (h : e.call c = .ok (e', bytes)) :
    e'.Inv ∧ e'.protocolMaxSize = e.protocolMaxSize ∧ Replays e e' bytes c.appended := by
  cases c with
  | append header => exact append_replays he hc.1 hc.2 h
  | appendTableSizeUpdate maxSize => exact appendTableSizeUpdate_replays he hc h
  | setLocalMaxSize localMaxSize =>
    simp only [call, pure, Except.pure, Except.ok.injEq, Prod.mk.injEq] at h
    obtain ⟨rfl, rfl⟩ := h
    exact ⟨⟨he.protocol_lt, he.max_le, he.table⟩, rfl, Replays.of_dynamicTable_eq rfl⟩

/-- A block replays call by call. -/
theorem encodeBlock_replays : ∀ {e e' : Encoder} {calls : List EncoderCall} {bytes : List UInt8},
    e.Inv → (∀ c ∈ calls, c.Valid e.protocolMaxSize) → e.encodeBlock calls = .ok (e', bytes) →
      e'.Inv ∧ e'.protocolMaxSize = e.protocolMaxSize ∧ Replays e e' bytes (appendedHeaders calls)
  | e, e', [], bytes, he, _, h => by
    simp only [encodeBlock, pure, Except.pure, Except.ok.injEq, Prod.mk.injEq] at h
    obtain ⟨rfl, rfl⟩ := h
    exact ⟨he, rfl, Replays.of_dynamicTable_eq rfl⟩
  | e, e', c :: cs, bytes, he, hvalid, h => by
    cases hc : e.call c with
    | error msg => simp [encodeBlock, hc, bind, Except.bind] at h
    | ok p =>
      obtain ⟨e₁, b₁⟩ := p
      obtain ⟨he₁, hp₁, hreplay₁⟩ := call_replays he (hvalid c (by simp)) hc
      cases hcs : e₁.encodeBlock cs with
      | error msg => simp [encodeBlock, hc, hcs, bind, Except.bind] at h
      | ok q =>
        obtain ⟨e₂, b₂⟩ := q
        simp only [encodeBlock, hc, hcs, bind, Except.bind, pure, Except.pure, Except.ok.injEq,
          Prod.mk.injEq] at h
        obtain ⟨rfl, rfl⟩ := h
        obtain ⟨he₂, hp₂, hreplay₂⟩ := encodeBlock_replays he₁
          (fun c' hc' => hp₁ ▸ hvalid c' (List.mem_cons_of_mem c hc')) hcs
        exact ⟨he₂, hp₂.trans hp₁, hreplay₁.append hreplay₂ hp₁⟩

end Encoder

/-- From tables in step, the decoder reads every block the encoder writes: the headers the block
appended, with the encoder's table after it. The induction is on the blocks; each block replays
(`encodeBlock_replays`) and `parse_all` decodes what replays (`parseAll_of_encodes`). -/
theorem decodeBlocks_of_inSync : ∀ {e : Encoder} {d : Decoder} {blocks : List (List EncoderCall)}
    {encoded : List (List UInt8 × List HeaderField)}, e.Inv → d.dynamicTable = e.dynamicTable →
    d.protocolMaxSize = e.protocolMaxSize →
    (∀ block ∈ blocks, ∀ c ∈ block, c.Valid e.protocolMaxSize) → e.encodeBlocks blocks = .ok encoded →
    ∃ d', d.decodeBlocks (encoded.map Prod.fst) =
      .ret (.ok (List.zipWith (fun block enc => (appendedHeaders block, enc.2)) blocks encoded)) d'
  | e, d, [], encoded, _, _, _, _, h => by
    simp only [Encoder.encodeBlocks, pure, Except.pure, Except.ok.injEq] at h
    subst h
    exact ⟨d, rfl⟩
  | e, d, block :: blocks, encoded, he, hd, hpd, hvalid, h => by
    cases hblock : e.encodeBlock block with
    | error msg => simp [Encoder.encodeBlocks, hblock, bind, Except.bind] at h
    | ok p =>
      obtain ⟨e₁, bytes⟩ := p
      cases hrest : e₁.encodeBlocks blocks with
      | error msg => simp [Encoder.encodeBlocks, hblock, hrest, bind, Except.bind] at h
      | ok rest =>
        simp only [Encoder.encodeBlocks, hblock, hrest, bind, Except.bind, pure, Except.pure,
          Except.ok.injEq] at h
        subst h
        obtain ⟨he₁, hp₁, reps, henc, hdec⟩ :=
          Encoder.encodeBlock_replays he (hvalid block (by simp)) hblock
        have hparse := parseAll_of_encodes henc (hdec d hd hpd)
        obtain ⟨d', hd'⟩ := @decodeBlocks_of_inSync e₁ { d with dynamicTable := e₁.dynamicTable }
          blocks rest he₁ rfl (by simp [hpd, hp₁])
          (fun block' hb' c hc => hp₁ ▸ hvalid block' (List.mem_cons_of_mem block hb') c hc) hrest
        exact ⟨d', by simp [Decoder.decodeBlocks, hparse, hd']⟩

theorem decodeBlocks_encodeBlocks {protocolMaxSize : Nat} (hp : protocolMaxSize < 2 ^ 64)
    {blocks : List (List EncoderCall)}
    (hvalid : ∀ block ∈ blocks, ∀ c ∈ block, c.Valid protocolMaxSize)
    {encoded : List (List UInt8 × List HeaderField)}
    (henc : (Encoder.new protocolMaxSize).encodeBlocks blocks = .ok encoded) :
    ∃ d, (Decoder.new protocolMaxSize).decodeBlocks (encoded.map Prod.fst) =
      .ret (.ok (List.zipWith (fun block enc => (appendedHeaders block, enc.2)) blocks encoded)) d :=
  decodeBlocks_of_inSync (Encoder.new_inv hp) rfl rfl hvalid henc

/-- A static-table hit in one block; a size update and a new header in the next. -/
theorem decodeBlocks_encodeBlocks_awesome :
    let blocks : List (List EncoderCall) := [[.append ⟨ascii ":status", ascii "200"⟩],
      [.appendTableSizeUpdate 100, .append ⟨ascii "awesome-header", ascii "awesome-value"⟩]]
    let encoded : List (List UInt8 × List HeaderField) := [([0x88], []),
      ([63, 69, 64, 138, 31, 130, 160, 244, 149, 105, 202, 57, 11, 103, 138, 31, 130, 160, 244, 149,
        110, 227, 162, 210, 255], [⟨ascii "awesome-header", ascii "awesome-value"⟩])]
    (512 : Nat) < 2 ^ 64 ∧ (∀ block ∈ blocks, ∀ c ∈ block, c.Valid 512) ∧
      (Encoder.new 512).encodeBlocks blocks = .ok encoded ∧
      ∃ d, (Decoder.new 512).decodeBlocks (encoded.map Prod.fst) =
        .ret (.ok (List.zipWith (fun block enc => (appendedHeaders block, enc.2)) blocks encoded)) d := by
  intro blocks encoded
  have hvalid : ∀ block ∈ blocks, ∀ c ∈ block, c.Valid 512 := by decide +kernel
  have henc : (Encoder.new 512).encodeBlocks blocks = .ok encoded := by decide +kernel
  exact ⟨by decide, hvalid, henc, decodeBlocks_encodeBlocks (by decide) hvalid henc⟩

end Dacha.Hpack
