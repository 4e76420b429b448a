import Mathlib
import Dacha.Hpack.Primitive

/-!
# HPACK field representations (`http/src/hpack/header_field.rs`)

| here | there |
| --- | --- |
| `StringReference` | `StringReference` (`:252-258`); `Literal` and `LiteralRef` are both `literal` |
| `IndexingMode` | `IndexingMode` (`:261-269`) |
| `HeaderFieldRepresentation` | `HeaderFieldRepresentation` (`:43-54`) |
| `HeaderFieldRepresentation.parse`, `parseLiteralHeader` | `parse` (`:57-118`), `parse_literal_header` (`:120-150`) |
| `HeaderFieldRepresentation.serialize`, `serializeLiteralHeader` | `serialize` (`:152-207`), `serialize_literal_header` (`:209-249`) |
| `leadingZeros` | `u8::leading_zeros` |

`serialize` returns the bytes it appends. The first byte's leading zeros name the kind:
`1` indexed (RFC 7541 6.1), `01` literal with indexing (6.2.1), `001` size update (6.3), `0001`
never indexed (6.2.3), `0000` without indexing (6.2.2). Each kind sets its flag bits above its
integer's prefix, so the prefix reads back the integer (`parseVarint_serializeVarint`), and
`parse_serialize` reads back every representation that serializes: `Serializable` names them.
-/

namespace Dacha.Hpack

/-- A name or value: an index into the tables, or the bytes themselves. -/
inductive StringReference where
  | Indexed (idx : Nat)
  | Literal (data : List UInt8)
  deriving DecidableEq, Repr

inductive IndexingMode where
  | No
  /-- The field will not be indexed and its value not Huffman-coded. -/
  | Never
  | Yes
  deriving DecidableEq, Repr

inductive HeaderFieldRepresentation where
  | HeaderField (name value : StringReference) (indexed : IndexingMode)
  | DynamicTableSizeUpdate (maxSize : Nat)
  deriving DecidableEq, Repr

def leadingZeros (b : UInt8) : Nat :=
  ((List.range 8).reverse.takeWhile fun i => !b.toNat.testBit i).length

namespace HeaderFieldRepresentation

/-- `parse_literal_header`: the name's index (`0` for a literal name), then the value. -/
def parseLiteralHeader (codePrefixBits : Nat) (indexed : IndexingMode) (input : List UInt8) :
    Except String (HeaderFieldRepresentation × List UInt8) := do
  let (index, input) ← parseVarint input codePrefixBits
  let (name, input) ← if index = 0 then do
      let (data, input) ← parseStringLiteral input
      pure (StringReference.Literal data, input)
    else pure (StringReference.Indexed index, input)
  let (value, input) ← parseStringLiteral input
  pure (.HeaderField name (.Literal value) indexed, input)

def parse (input : List UInt8) : Except String (HeaderFieldRepresentation × List UInt8) := do
  let (firstByte, _) ← beU8 input
  match leadingZeros firstByte with
  | 0 =>
    let (index, input) ← parseVarint input 7
    if index = 0 then throw "Unexpected zero index"
    pure (.HeaderField (.Indexed index) (.Indexed index) .No, input)
  | 1 => parseLiteralHeader 6 .Yes input
  | 2 =>
    let (maxSize, input) ← parseVarint input 5
    pure (.DynamicTableSizeUpdate maxSize, input)
  | 3 => parseLiteralHeader 4 .Never input
  | _ => parseLiteralHeader 4 .No input

def serializeLiteralHeader (codePrefixBits : Nat) (indexed : IndexingMode)
    (name value : StringReference) : Except String (List UInt8) := do
  let valueData ← match value with
    | .Literal data => pure data
    | .Indexed _ => throw "Literal header field can't have an indexed value"
  let maybeCompress := indexed != .Never
  let nameBytes ← match name with
    | .Indexed nameIdx =>
      if nameIdx = 0 then throw "Zero index" else pure (serializeVarint nameIdx codePrefixBits)
    | .Literal nameData =>
      pure (serializeVarint 0 codePrefixBits ++ serializeStringLiteral nameData maybeCompress)
  pure (nameBytes ++ serializeStringLiteral valueData maybeCompress)

def serialize : HeaderFieldRepresentation → Except String (List UInt8)
  | .HeaderField name value indexed =>
    match indexed with
    | .No =>
      match name, value with
      | .Indexed nameIdx, .Indexed valueIdx =>
        if nameIdx ≠ valueIdx then throw "name/value indexed with different indices"
        else if nameIdx = 0 then throw "Zero index"
        else pure (orFirst ((1 : UInt8) <<< 7) (serializeVarint nameIdx 7))
      | _, _ => serializeLiteralHeader 4 indexed name value
    | .Yes => orFirst ((0b01 : UInt8) <<< 6) <$> serializeLiteralHeader 6 indexed name value
    | .Never => orFirst ((0b0001 : UInt8) <<< 4) <$> serializeLiteralHeader 4 indexed name value
  | .DynamicTableSizeUpdate maxSize => pure (orFirst ((0b001 : UInt8) <<< 5) (serializeVarint maxSize 5))

end HeaderFieldRepresentation

/-! ## Round trip -/

/-- A name that serializes: a nonzero index or a literal, each fitting a `usize`. -/
def StringReference.Serializable : StringReference → Prop
  | .Indexed idx => 0 < idx ∧ idx < 2 ^ 64
  | .Literal data => data.length < 2 ^ 64

/-- The representations `serialize` accepts, with every integer and length a `usize`. -/
def HeaderFieldRepresentation.Serializable : HeaderFieldRepresentation → Prop
  | .HeaderField name (.Literal value) _ => name.Serializable ∧ value.length < 2 ^ 64
  | .HeaderField (.Indexed i) (.Indexed j) .No => i = j ∧ 0 < i ∧ i < 2 ^ 64
  | .HeaderField _ (.Indexed _) _ => False
  | .DynamicTableSizeUpdate maxSize => maxSize < 2 ^ 64

/-- A reference whose integers are `usize`s, as every reference of the source is. -/
def StringReference.Fits : StringReference → Prop
  | .Indexed idx => idx < 2 ^ 64
  | .Literal data => data.length < 2 ^ 64

/-- A representation whose indices, sizes and string lengths are `usize`s. -/
def HeaderFieldRepresentation.Fits : HeaderFieldRepresentation → Prop
  | .HeaderField name value _ => name.Fits ∧ value.Fits
  | .DynamicTableSizeUpdate maxSize => maxSize < 2 ^ 64

/-! The leading zeros of the first byte are what `parse` dispatches on; each pattern the
serializer writes sets one bit above a value that fits below it. -/

theorem leadingZeros_eq (b : UInt8) :
    leadingZeros b = ([7, 6, 5, 4, 3, 2, 1, 0].takeWhile fun i => !b.toNat.testBit i).length := rfl

theorem testBit_toNat_of_lt {b : UInt8} {k i : Nat} (hb : b.toNat < 2 ^ k) (hi : k ≤ i) :
    b.toNat.testBit i = false :=
  Nat.testBit_lt_two_pow (lt_of_lt_of_le hb (Nat.pow_le_pow_right (by norm_num) hi))

theorem testBit_or_of_lt {b : UInt8} (m : UInt8) {k i : Nat} (hb : b.toNat < 2 ^ k) (hi : k ≤ i) :
    (b ||| m).toNat.testBit i = m.toNat.testBit i := by
  rw [UInt8.toNat_or, Nat.testBit_or, testBit_toNat_of_lt hb hi, Bool.false_or]

theorem leadingZeros_or_128 : ∀ b : UInt8, leadingZeros (b ||| (1 : UInt8) <<< 7) = 0 := by
  intro b
  have h7 : (b ||| (1 : UInt8) <<< 7).toNat.testBit 7 = true := by
    rw [UInt8.toNat_or, Nat.testBit_or, Bool.or_eq_true]
    exact Or.inr (by decide)
  simp only [leadingZeros_eq, List.takeWhile_cons, h7]
  rfl

theorem leadingZeros_or_64 : ∀ b : UInt8, b.toNat < 64 →
    leadingZeros (b ||| (0b01 : UInt8) <<< 6) = 1 := by
  intro b hb
  have hb' : b.toNat < 2 ^ 6 := hb
  have h7 := testBit_or_of_lt ((0b01 : UInt8) <<< 6) hb' (show 6 ≤ 7 by norm_num)
  have h6 := testBit_or_of_lt ((0b01 : UInt8) <<< 6) hb' le_rfl
  simp only [leadingZeros_eq, List.takeWhile_cons, h7, h6]
  rfl

theorem leadingZeros_or_32 : ∀ b : UInt8, b.toNat < 32 →
    leadingZeros (b ||| (0b001 : UInt8) <<< 5) = 2 := by
  intro b hb
  have hb' : b.toNat < 2 ^ 5 := hb
  have h7 := testBit_or_of_lt ((0b001 : UInt8) <<< 5) hb' (show 5 ≤ 7 by norm_num)
  have h6 := testBit_or_of_lt ((0b001 : UInt8) <<< 5) hb' (show 5 ≤ 6 by norm_num)
  have h5 := testBit_or_of_lt ((0b001 : UInt8) <<< 5) hb' le_rfl
  simp only [leadingZeros_eq, List.takeWhile_cons, h7, h6, h5]
  rfl

theorem leadingZeros_or_16 : ∀ b : UInt8, b.toNat < 16 →
    leadingZeros (b ||| (0b0001 : UInt8) <<< 4) = 3 := by
  intro b hb
  have hb' : b.toNat < 2 ^ 4 := hb
  have h7 := testBit_or_of_lt ((0b0001 : UInt8) <<< 4) hb' (show 4 ≤ 7 by norm_num)
  have h6 := testBit_or_of_lt ((0b0001 : UInt8) <<< 4) hb' (show 4 ≤ 6 by norm_num)
  have h5 := testBit_or_of_lt ((0b0001 : UInt8) <<< 4) hb' (show 4 ≤ 5 by norm_num)
  have h4 := testBit_or_of_lt ((0b0001 : UInt8) <<< 4) hb' le_rfl
  simp only [leadingZeros_eq, List.takeWhile_cons, h7, h6, h5, h4]
  rfl

theorem four_le_leadingZeros : ∀ b : UInt8, b.toNat < 16 → 4 ≤ leadingZeros b := by
  intro b hb
  have hb' : b.toNat < 2 ^ 4 := hb
  simp only [leadingZeros_eq, List.takeWhile_cons, testBit_toNat_of_lt hb' (show 4 ≤ 7 by norm_num),
    testBit_toNat_of_lt hb' (show 4 ≤ 6 by norm_num), testBit_toNat_of_lt hb' (show 4 ≤ 5 by norm_num),
    testBit_toNat_of_lt hb' le_rfl, Bool.not_false, if_true, List.length_cons]
  omega

/-- The first byte the literal-header serializer writes is the index's, which fits the prefix. -/
theorem serializeLiteralHeader_head {p : Nat} (hp : p ≤ 8) {mode : IndexingMode}
    {name value : StringReference} {bytes : List UInt8}
    (h : HeaderFieldRepresentation.serializeLiteralHeader p mode name value = .ok bytes) :
    ∃ b bs, bytes = b :: bs ∧ b.toNat < 2 ^ p := by
  unfold HeaderFieldRepresentation.serializeLiteralHeader at h
  cases value with
  | Indexed _ => simp [throw, throwThe, MonadExceptOf.throw, bind, Except.bind] at h
  | Literal v =>
    cases name with
    | Indexed i =>
      by_cases hi : i = 0
      · simp [hi, throw, throwThe, MonadExceptOf.throw, bind, Except.bind, pure, Except.pure] at h
      · obtain ⟨b, bs, hser, hb⟩ := serializeVarint_head i p hp
        simp only [hi, if_false, bind, Except.bind, pure, Except.pure, Except.ok.injEq] at h
        exact ⟨b, _, by rw [← h, hser, List.cons_append], hb⟩
    | Literal n =>
      obtain ⟨b, bs, hser, hb⟩ := serializeVarint_head 0 p hp
      simp only [bind, Except.bind, pure, Except.pure, Except.ok.injEq] at h
      exact ⟨b, _, by rw [← h, hser, List.cons_append, List.cons_append], hb⟩

/-- The literal-header parser reads back what the serializer wrote, whatever flag bits above the
prefix the first byte carries. -/
theorem parseLiteralHeader_serializeLiteralHeader {p : Nat} (hp : 1 ≤ p ∧ p ≤ 8)
    (mode : IndexingMode) {name : StringReference} (hname : name.Serializable)
    {value : List UInt8} (hvalue : value.length < 2 ^ 64) (mask : UInt8)
    (hmask : mask.toNat % 2 ^ p = 0) (rest : List UInt8) :
    ∃ bytes, HeaderFieldRepresentation.serializeLiteralHeader p mode name (.Literal value) =
        .ok bytes ∧
      HeaderFieldRepresentation.parseLiteralHeader p mode (orFirst mask bytes ++ rest) =
        .ok (.HeaderField name (.Literal value) mode, rest) := by
  have hval := parseStringLiteral_serializeStringLiteral value hvalue (mode != .Never) rest
  cases name with
  | Indexed i =>
    obtain ⟨hi0, hi⟩ := hname
    obtain ⟨b, bs, hser, -⟩ := serializeVarint_head i p hp.2
    have hvar := parseVarint_serializeVarint hi p hp mask hmask
      (serializeStringLiteral value (mode != .Never) ++ rest)
    refine ⟨serializeVarint i p ++ serializeStringLiteral value (mode != .Never), by
      simp [HeaderFieldRepresentation.serializeLiteralHeader, Nat.pos_iff_ne_zero.mp hi0, bind,
        Except.bind, pure, Except.pure], ?_⟩
    have horFirst : orFirst mask (serializeVarint i p ++ serializeStringLiteral value (mode != .Never)) =
        orFirst mask (serializeVarint i p) ++ serializeStringLiteral value (mode != .Never) := by
      rw [hser]; rfl
    rw [horFirst, List.append_assoc]
    simp [HeaderFieldRepresentation.parseLiteralHeader, hvar, Nat.pos_iff_ne_zero.mp hi0, hval,
      bind, Except.bind, pure, Except.pure]
  | Literal n =>
    obtain ⟨b, bs, hser, -⟩ := serializeVarint_head 0 p hp.2
    have hvar := parseVarint_serializeVarint (Nat.two_pow_pos 64) p hp mask hmask
      (serializeStringLiteral n (mode != .Never) ++ serializeStringLiteral value (mode != .Never) ++ rest)
    have hn := parseStringLiteral_serializeStringLiteral n hname (mode != .Never)
      (serializeStringLiteral value (mode != .Never) ++ rest)
    refine ⟨serializeVarint 0 p ++ serializeStringLiteral n (mode != .Never) ++
      serializeStringLiteral value (mode != .Never), by
      simp [HeaderFieldRepresentation.serializeLiteralHeader, bind, Except.bind, pure,
        Except.pure], ?_⟩
    have horFirst : orFirst mask (serializeVarint 0 p ++ serializeStringLiteral n (mode != .Never) ++
        serializeStringLiteral value (mode != .Never)) =
        orFirst mask (serializeVarint 0 p) ++ serializeStringLiteral n (mode != .Never) ++
          serializeStringLiteral value (mode != .Never) := by
      rw [hser]; rfl
    rw [horFirst, List.append_assoc, List.append_assoc]
    rw [List.append_assoc] at hvar
    simp [HeaderFieldRepresentation.parseLiteralHeader, hvar, hn, hval, bind, Except.bind, pure,
      Except.pure]

section ParseSerialize

open HeaderFieldRepresentation

theorem parse_cons (c : UInt8) (cs : List UInt8) :
    parse (c :: cs) = match leadingZeros c with
      | 0 => do
        let (index, input) ← parseVarint (c :: cs) 7
        if index = 0 then throw "Unexpected zero index"
        pure (.HeaderField (.Indexed index) (.Indexed index) .No, input)
      | 1 => parseLiteralHeader 6 .Yes (c :: cs)
      | 2 => do
        let (maxSize, input) ← parseVarint (c :: cs) 5
        pure (.DynamicTableSizeUpdate maxSize, input)
      | 3 => parseLiteralHeader 4 .Never (c :: cs)
      | _ => parseLiteralHeader 4 .No (c :: cs) := rfl

/-- A literal header with the given flag bits: `parse` sees the kind from the flags and reads the
rest back. -/
theorem parse_literal (p : Nat) (hp : 1 ≤ p ∧ p ≤ 8) (mode : IndexingMode) (mask : UInt8)
    (hmask : mask.toNat % 2 ^ p = 0) {name : StringReference} (hname : name.Serializable)
    {value : List UInt8} (hvalue : value.length < 2 ^ 64) (rest : List UInt8)
    (hkind : ∀ bytes, serializeLiteralHeader p mode name (.Literal value) = .ok bytes →
      parse (orFirst mask bytes ++ rest) = parseLiteralHeader p mode (orFirst mask bytes ++ rest)) :
    ∃ bytes, serializeLiteralHeader p mode name (.Literal value) = .ok bytes ∧
      parse (orFirst mask bytes ++ rest) = .ok (.HeaderField name (.Literal value) mode, rest) := by
  obtain ⟨bytes, hser, hparse⟩ :=
    parseLiteralHeader_serializeLiteralHeader hp mode hname hvalue mask hmask rest
  exact ⟨bytes, hser, by rw [hkind bytes hser, hparse]⟩

/-- Every representation that serializes reads back. -/
theorem parse_serialize {r : HeaderFieldRepresentation} (hr : r.Serializable) (rest : List UInt8) :
    ∃ bytes, r.serialize = .ok bytes ∧ parse (bytes ++ rest) = .ok (r, rest) := by
  match r, hr with
  | .HeaderField (.Indexed i) (.Indexed j) .No, ⟨hij, hi0, hi⟩ =>
    subst hij
    obtain ⟨b, bs, hser, -⟩ := serializeVarint_head i 7 (by decide)
    have hvar := parseVarint_serializeVarint hi 7 (by decide) ((1 : UInt8) <<< 7) (by decide) rest
    refine ⟨orFirst ((1 : UInt8) <<< 7) (serializeVarint i 7), by
      simp [serialize, Nat.pos_iff_ne_zero.mp hi0, pure, Except.pure], ?_⟩
    rw [hser] at hvar ⊢
    simp only [orFirst, List.cons_append, parse_cons, leadingZeros_or_128] at hvar ⊢
    simp [hvar, Nat.pos_iff_ne_zero.mp hi0, bind, Except.bind, pure, Except.pure]
  | .HeaderField name (.Literal value) .No, ⟨hname, hvalue⟩ =>
    obtain ⟨bytes, hser, hparse⟩ := parse_literal 4 (by decide) .No 0 (by decide) hname
      hvalue rest fun bytes hser => by
        obtain ⟨b, bs, rfl, hb⟩ := serializeLiteralHeader_head (by decide) hser
        obtain ⟨k, hk⟩ : ∃ k, leadingZeros b = k + 4 :=
          ⟨leadingZeros b - 4, by have := four_le_leadingZeros b hb; omega⟩
        simp only [orFirst_zero, List.cons_append, parse_cons, hk]
    refine ⟨bytes, ?_, by simpa using hparse⟩
    cases name <;> simpa [serialize] using hser
  | .HeaderField name (.Literal value) .Yes, ⟨hname, hvalue⟩ =>
    obtain ⟨bytes, hser, hparse⟩ := parse_literal 6 (by decide) .Yes ((0b01 : UInt8) <<< 6)
      (by decide) hname hvalue rest fun bytes hser => by
        obtain ⟨b, bs, rfl, hb⟩ := serializeLiteralHeader_head (by decide) hser
        simp only [orFirst, List.cons_append, parse_cons, leadingZeros_or_64 b hb]
    exact ⟨_, by simp [serialize, hser, Functor.map, Except.map], hparse⟩
  | .HeaderField name (.Literal value) .Never, ⟨hname, hvalue⟩ =>
    obtain ⟨bytes, hser, hparse⟩ := parse_literal 4 (by decide) .Never
      ((0b0001 : UInt8) <<< 4) (by decide) hname hvalue rest fun bytes hser => by
        obtain ⟨b, bs, rfl, hb⟩ := serializeLiteralHeader_head (by decide) hser
        simp only [orFirst, List.cons_append, parse_cons, leadingZeros_or_16 b hb]
    exact ⟨_, by simp [serialize, hser, Functor.map, Except.map], hparse⟩
  | .DynamicTableSizeUpdate maxSize, hmax =>
    obtain ⟨b, bs, hser, hb⟩ := serializeVarint_head maxSize 5 (by decide)
    have hvar := parseVarint_serializeVarint hmax 5 (by decide) ((0b001 : UInt8) <<< 5) (by decide)
      rest
    refine ⟨_, rfl, ?_⟩
    rw [hser] at hvar ⊢
    simp only [orFirst, List.cons_append, parse_cons, leadingZeros_or_32 b hb] at hvar ⊢
    simp [hvar, bind, Except.bind, pure, Except.pure]

theorem serialize_ne_nil {r : HeaderFieldRepresentation} {bytes : List UInt8}
    (h : r.serialize = .ok bytes) : bytes ≠ [] := by
  have hvarint : ∀ value p, p ≤ 8 → serializeVarint value p ≠ [] := fun value p hp => by
    obtain ⟨b, bs, hser, -⟩ := serializeVarint_head value p hp
    simp [hser]
  have hliteral : ∀ {p mode name value bytes}, p ≤ 8 →
      serializeLiteralHeader p mode name value = .ok bytes → bytes ≠ [] := fun hp hser => by
    obtain ⟨b, bs, rfl, -⟩ := serializeLiteralHeader_head hp hser
    simp
  match r with
  | .HeaderField name value .No =>
    match name, value with
    | .Indexed i, .Indexed j =>
      simp only [serialize] at h
      split at h
      · cases h
      · split at h
        · cases h
        · cases h
          cases hv : serializeVarint i 7 with
          | nil => exact absurd hv (hvarint i 7 (by decide))
          | cons b bs => simp [orFirst]
    | .Indexed _, .Literal _ | .Literal _, .Indexed _ | .Literal _, .Literal _ =>
      simp only [serialize] at h
      exact hliteral (by decide) h
  | .HeaderField name value .Yes =>
    simp only [serialize] at h
    cases hser : serializeLiteralHeader 6 .Yes name value with
    | error e => simp [hser, Functor.map, Except.map] at h
    | ok b =>
      simp only [hser, Functor.map, Except.map, Except.ok.injEq] at h
      subst h
      cases b with
      | nil => exact absurd rfl (hliteral (by decide) hser)
      | cons b bs => simp [orFirst]
  | .HeaderField name value .Never =>
    simp only [serialize] at h
    cases hser : serializeLiteralHeader 4 .Never name value with
    | error e => simp [hser, Functor.map, Except.map] at h
    | ok b =>
      simp only [hser, Functor.map, Except.map, Except.ok.injEq] at h
      subst h
      cases b with
      | nil => exact absurd rfl (hliteral (by decide) hser)
      | cons b bs => simp [orFirst]
  | .DynamicTableSizeUpdate maxSize =>
    cases h
    obtain ⟨b, bs, hser, -⟩ := serializeVarint_head maxSize 5 (by decide)
    simp [hser, orFirst]

/-- What the literal-header serializer accepts: a literal value, and a name that is a literal
or a nonzero index. -/
theorem serializeLiteralHeader_ok {p : Nat} {mode : IndexingMode} {name value : StringReference}
    {bytes : List UInt8} (h : serializeLiteralHeader p mode name value = .ok bytes) :
    (∃ data, value = .Literal data) ∧ ∀ i, name = .Indexed i → i ≠ 0 := by
  unfold serializeLiteralHeader at h
  cases value with
  | Indexed _ => simp [throw, throwThe, MonadExceptOf.throw, bind, Except.bind] at h
  | Literal data =>
    refine ⟨⟨data, rfl⟩, ?_⟩
    rintro i rfl hi
    simp [hi, throw, throwThe, MonadExceptOf.throw, bind, Except.bind, pure, Except.pure] at h

/-- Every representation `serialize` accepts, with `usize` integers, is one that reads back. -/
theorem serializable_of_serialize_ok {r : HeaderFieldRepresentation} {bytes : List UInt8}
    (h : r.serialize = .ok bytes) (hfit : r.Fits) : r.Serializable := by
  have hliteral : ∀ {p mode name value bytes}, name.Fits → value.Fits →
      serializeLiteralHeader p mode name value = .ok bytes →
      HeaderFieldRepresentation.Serializable (.HeaderField name value mode) := by
    intro p mode name value bytes hname hvalue hser
    obtain ⟨⟨data, rfl⟩, hidx⟩ := serializeLiteralHeader_ok hser
    cases name with
    | Indexed i => exact ⟨⟨Nat.pos_of_ne_zero (hidx i rfl), hname⟩, hvalue⟩
    | Literal n => exact ⟨hname, hvalue⟩
  match r, hfit with
  | .HeaderField (.Indexed i) (.Indexed j) .No, ⟨hi, _⟩ =>
    simp only [serialize] at h
    split at h
    · cases h
    · split at h
      · cases h
      · exact ⟨by omega, by omega, hi⟩
  | .HeaderField (.Indexed i) (.Literal v) .No, ⟨hname, hvalue⟩ => exact hliteral hname hvalue h
  | .HeaderField (.Literal n) value .No, ⟨hname, hvalue⟩ =>
    cases value <;> exact hliteral hname hvalue h
  | .HeaderField name value .Yes, ⟨hname, hvalue⟩ =>
    simp only [serialize] at h
    cases hser : serializeLiteralHeader 6 .Yes name value with
    | error e => simp [hser, Functor.map, Except.map] at h
    | ok b => exact hliteral hname hvalue hser
  | .HeaderField name value .Never, ⟨hname, hvalue⟩ =>
    simp only [serialize] at h
    cases hser : serializeLiteralHeader 4 .Never name value with
    | error e => simp [hser, Functor.map, Except.map] at h
    | ok b => exact hliteral hname hvalue hser
  | .DynamicTableSizeUpdate maxSize, hmax => exact hmax

/-- The representation codec round trips: whatever `serialize` accepts, `parse` reads back from
its bytes followed by anything, and leaves that remainder. -/
theorem representation_round_trip {r : HeaderFieldRepresentation} {bytes : List UInt8}
    (hser : r.serialize = .ok bytes) (hfit : r.Fits) (rest : List UInt8) :
    parse (bytes ++ rest) = .ok (r, rest) := by
  obtain ⟨bytes', hser', hparse⟩ := parse_serialize (serializable_of_serialize_ok hser hfit) rest
  rw [hser, Except.ok.injEq] at hser'
  rw [hser']
  exact hparse

/-- A literal header field with a literal name, without indexing, reads back. -/
theorem representation_round_trip_literal :
    HeaderFieldRepresentation.serialize (.HeaderField (.Literal [97]) (.Literal [98]) .No) =
        .ok [0, 1, 97, 1, 98] ∧
      HeaderFieldRepresentation.Fits (.HeaderField (.Literal [97]) (.Literal [98]) .No) ∧
      parse ([0, 1, 97, 1, 98] ++ [7]) =
        .ok (.HeaderField (.Literal [97]) (.Literal [98]) .No, [7]) :=
  have hser : HeaderFieldRepresentation.serialize
      (.HeaderField (.Literal [97]) (.Literal [98]) .No) = .ok [0, 1, 97, 1, 98] := by decide
  have hfit : HeaderFieldRepresentation.Fits (.HeaderField (.Literal [97]) (.Literal [98]) .No) :=
    ⟨(by decide : [97].length < 2 ^ 64), (by decide : [98].length < 2 ^ 64)⟩
  ⟨hser, hfit, representation_round_trip hser hfit [7]⟩

end ParseSerialize

end Dacha.Hpack
