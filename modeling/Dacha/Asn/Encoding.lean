import Mathlib
import Dacha.Parsing.Combinators
import Dacha.Lib.Base128
import Dacha.Lib.MsbBits

/-!
# BER/DER elements (`asn/src/encoding.rs`, `asn/core/src/tag.rs`)

| here | there |
| --- | --- |
| `TagClass`, `TagClass.from`, `Tag` | `TagClass`, `TagClass::from`, `Tag` (`tag.rs:1-29`) |
| `parseVarintMsbBe` | `parse_varint_msb_be` (`:43-73`) |
| `serializeVarintMsbBe` | `serialize_varint_msb_be` (`:75-93`) |
| `Identifier`, `Identifier.parse`, `Identifier.serialize` | `Identifier` (`:96-136`) |
| `Length`, `Length.parse`, `Length.serialize` | `Length` (`:139-197`) |
| `Element`, `Element.parse` | `Element` (`:200-243`) |

`usize` is 64 bits wide: the varint reader takes at most `64 / 7 = 9` octets and a long length
at most 8. The reader's number is a `Nat`: nine octets carry 63 bits, so its shifts never drop a
bit. The writer's buffer is the 8 octets of a `usize`, filled from the end; `none` is its panic.

The writer produces the base-128 encoding of `Dacha.Base128` below `2 ^ 56` and panics from there
on (`serializeVarintMsbBe_eq`). The reader takes a zero digit anywhere but last for a leading
zero: it reads back exactly the numbers whose inner digits are all non-zero
(`parseVarintMsbBe_msbVarint`), and refuses a tag number such as `16384`
(`Identifier.parse_serialize_of_zero_digit`). Lengths round trip (`Length.parse_serialize`), but
`Length.parse` takes one to eight big-endian octets and never checks that the short form or fewer
octets would have done, so an element it accepts need not be written the way it was read
(`Element.parse_long_form_not_minimal`).
-/

namespace Dacha.Asn

open Dacha.Parsing Parser
open Dacha.Base128 Dacha.MsbBits

/-! ## Tags -/

inductive TagClass where
  | Universal
  | Application
  | ContextSpecific
  | Private
  deriving DecidableEq, Repr

/-- `TagClass::from`; `none` is its panic "Value larger than 2 bits". -/
def TagClass.from (v : UInt8) : Option TagClass :=
  match v.toNat with
  | 0 => some .Universal
  | 1 => some .Application
  | 2 => some .ContextSpecific
  | 3 => some .Private
  | _ => none

/-- `class as u8`. -/
def TagClass.toU8 : TagClass → UInt8
  | .Universal => 0
  | .Application => 1
  | .ContextSpecific => 2
  | .Private => 3

structure Tag where
  /-- `class` -/
  cls : TagClass
  number : Nat
  deriving DecidableEq, Repr

/-- `MAX_TAG_NUMBER_BITS / 7`: the most octets a varint may take. -/
def MAX_VARINT_OCTETS : Nat := 64 / 7

def USIZE_OCTETS : Nat := 8

/-! ## Base-128 varints -/

/-- The loop of `parse_varint_msb_be`, with `k` passes left. -/
def parseVarintMsbBe.loop : Nat → Nat → Parser UInt8 Nat
  | 0, _ => fail
  | k + 1, number => do
    let octet ← beU8
    let numPart := octet &&& 0x7f
    let number := number <<< 7 ||| numPart.toNat
    if octet >>> 7 = 0 then pure number
    -- "Last octet contains zero": a zero digit is taken for a leading zero
    else if numPart = 0 then fail
    else loop k number

def parseVarintMsbBe : Parser UInt8 Nat := parseVarintMsbBe.loop MAX_VARINT_OCTETS 0

/-- The loop of `serialize_varint_msb_be`: it ORs the low seven bits of `num` into `buf[i]`, and
the flag into `buf[i - 1]` while more bits are left. -/
def serializeVarintMsbBe.loop (buf : List UInt8) (i num : Nat) : Option (List UInt8) :=
  let b := UInt8.ofNat (num &&& 0x7f)
  let num := num >>> 7
  let buf := buf.modify i (· ||| b)
  if num = 0 then some (buf.drop i)
  else
    match i with
    -- `buf[i - 1]` at `i = 0`: the index underflows
    | 0 => none
    | i + 1 => loop (buf.modify i (· ||| 0x80)) i num

/-- `serialize_varint_msb_be`: the octets it appends. -/
def serializeVarintMsbBe (num : Nat) : Option (List UInt8) :=
  serializeVarintMsbBe.loop (List.replicate USIZE_OCTETS 0) (USIZE_OCTETS - 1) num

section SerializeVarint

theorem modify_replicate_append (i : Nat) (c : UInt8) (tail : List UInt8) (f : UInt8 → UInt8) :
    (List.replicate i 0 ++ c :: tail).modify i f = List.replicate i 0 ++ f c :: tail := by
  induction i with
  | zero => simp
  | succ i ih => simp [List.replicate_succ, ih]

theorem drop_replicate_append (i : Nat) (c : UInt8) (tail : List UInt8) :
    (List.replicate i 0 ++ c :: tail).drop i = c :: tail := by
  simp

theorem ofNat_and_127 (num : Nat) : UInt8.ofNat (num &&& 0x7f) = UInt8.ofNat (num % 128) := by
  rw [show (0x7f : Nat) = 2 ^ 7 - 1 by rfl, Nat.and_two_pow_sub_one_eq_mod]

/-- The loop writes `num`'s encoding below `buf[i]` and over it, where the flag `c` of the digit
written before is ORed into the last octet; it panics once `num` has more digits than places. -/
theorem serializeVarintMsbBe.loop_spec (i : Nat) :
    ∀ (num : Nat) (c : UInt8) (tail : List UInt8),
      loop (List.replicate i 0 ++ c :: tail) i num =
        if num < 128 ^ (i + 1) then some ((msbVarint num).modifyLast (· ||| c) ++ tail)
        else none := by
  induction i with
  | zero =>
    intro num c tail
    rw [loop]
    simp only [modify_replicate_append, drop_replicate_append, ofNat_and_127,
      Nat.shiftRight_eq_div_pow, zero_add, pow_one]
    by_cases h : num < 128
    · rw [if_pos (by omega), if_pos h, msbVarint_of_lt h, Nat.mod_eq_of_lt h, UInt8.or_comm]
      rfl
    · rw [if_neg (by omega), if_neg h]
  | succ i ih =>
    intro num c tail
    rw [loop]
    simp only [modify_replicate_append, drop_replicate_append, ofNat_and_127,
      Nat.shiftRight_eq_div_pow]
    by_cases h : num < 128
    · -- one digit: it is the last octet
      rw [if_pos (by omega), if_pos (lt_of_lt_of_le h (Nat.le_self_pow (by omega) _)),
        msbVarint_of_lt h, Nat.mod_eq_of_lt h, UInt8.or_comm]
      rfl
    · -- more digits: the flag goes into the octet below, and the loop goes on with the quotient
      rw [if_neg (by omega)]
      have hbuf : (List.replicate (i + 1) 0 ++ (c ||| UInt8.ofNat (num % 128)) :: tail).modify i
          (· ||| 0x80) = List.replicate i 0 ++ 0x80 :: (c ||| UInt8.ofNat (num % 128)) :: tail := by
        rw [List.replicate_succ', List.append_assoc, List.singleton_append,
          modify_replicate_append]
        rfl
      have hlt : num / 2 ^ 7 < 128 ^ (i + 1) ↔ num < 128 ^ (i + 1 + 1) := by
        rw [Nat.div_lt_iff_lt_mul (by norm_num), pow_succ 128 (i + 1)]
        rfl
      simp only [hbuf, ih, hlt]
      split_ifs
      · conv_rhs => rw [msbVarint_of_le (show 128 ≤ num by omega), List.modifyLast_concat]
        rw [modifyLast_or_msbVarint, UInt8.or_comm c]
        simp
      · rfl

/-- The writer produces the base-128 encoding below `2 ^ 56`, and panics from there on. -/
theorem serializeVarintMsbBe_eq (num : Nat) :
    serializeVarintMsbBe num = if num < 2 ^ 56 then some (msbVarint num) else none := by
  have h := serializeVarintMsbBe.loop_spec 7 num 0 []
  simp only [show (128 : Nat) ^ (7 + 1) = 2 ^ 56 by norm_num, List.append_nil] at h
  rw [serializeVarintMsbBe, show USIZE_OCTETS - 1 = 7 from rfl,
    show List.replicate USIZE_OCTETS (0 : UInt8) = List.replicate 7 0 ++ [0] from rfl, h]
  congr 2
  have hid : (fun b : UInt8 => b ||| 0) = id := funext fun _ => UInt8.or_zero
  rw [hid, ← List.dropLast_append_getLast (msbVarint_ne_nil num), List.modifyLast_concat]
  rfl

end SerializeVarint

section ParseVarint

theorem shiftLeft_or_digit (acc : Nat) (b : UInt8) :
    acc <<< 7 ||| (b &&& 0x7f).toNat = digitStep acc b := by
  have hd : b.toNat % 128 < 2 ^ 7 := Nat.mod_lt _ (by norm_num)
  rw [toNat_and_127, digitStep, ← Nat.shiftLeft_add_eq_or_of_lt hd, Nat.shiftLeft_eq]

theorem shiftRight_7_eq_zero_iff (b : UInt8) : b >>> 7 = 0 ↔ b.toNat < 128 := by
  rw [← UInt8.toNat_inj, toNat_shiftRight_7]
  simp only [UInt8.toNat_zero]
  omega

theorem and_127_eq_zero_iff (b : UInt8) : b &&& 0x7f = 0 ↔ b.toNat % 128 = 0 := by
  rw [← UInt8.toNat_inj, toNat_and_127]
  rfl

/-- One pass of the reader: a last octet ends it, a flagged zero digit is refused, and any other
flagged octet adds its digit. -/
theorem parseVarintMsbBe.loop_cons (k acc : Nat) (b : UInt8) (rest : List UInt8) :
    loop (k + 1) acc (b :: rest) =
      if b.toNat < 128 then .ok (digitStep acc b) rest
      else if b.toNat % 128 = 0 then .reject
      else loop k (digitStep acc b) rest := by
  rw [loop, bind_apply_of_ok (beU8_cons b rest)]
  simp only [shiftLeft_or_digit, shiftRight_7_eq_zero_iff, and_127_eq_zero_iff]
  split_ifs <;> rfl

/-- The reader over flagged octets then a last one: it returns their digits when none of the
flagged ones is zero and there are fewer than `k` of them, and refuses the input otherwise. -/
theorem parseVarintMsbBe.loop_flagged (hs : List UInt8) (hflag : ∀ b ∈ hs, 128 ≤ b.toNat)
    {d : UInt8} (hd : d.toNat < 128) (rest : List UInt8) :
    ∀ k acc, loop k acc (hs ++ d :: rest) =
      if (∀ b ∈ hs, b.toNat % 128 ≠ 0) ∧ hs.length < k then .ok ((hs ++ [d]).foldl digitStep acc) rest
      else .reject := by
  induction hs with
  | nil =>
    intro k acc
    cases k with
    | zero => simp [loop]
    | succ k => simp [loop_cons, hd]
  | cons b hs ih =>
    intro k acc
    have hb := hflag b List.mem_cons_self
    cases k with
    | zero => simp [loop]
    | succ k =>
      rw [List.cons_append, loop_cons, if_neg (by omega),
        ih (fun b' hb' => hflag b' (List.mem_cons_of_mem b hb')) k]
      by_cases hz : b.toNat % 128 = 0
      · simp [hz]
      · simp [hz]

/-- The reader reads back exactly the numbers of at most nine digits whose inner digits are all
non-zero. -/
theorem parseVarintMsbBe_msbVarint (n : Nat) (rest : List UInt8) :
    parseVarintMsbBe (msbVarint n ++ rest) =
      if InnerDigitsNonzero n ∧ (msbVarint n).length ≤ MAX_VARINT_OCTETS then .ok n rest
      else .reject := by
  have hsplit := List.dropLast_append_getLast (msbVarint_ne_nil n)
  have hlen : (msbVarint n).length = (msbVarint n).dropLast.length + 1 := by
    rw [List.length_dropLast]
    have := List.length_pos_of_ne_nil (msbVarint_ne_nil n)
    omega
  rw [parseVarintMsbBe, ← hsplit, List.append_assoc, List.singleton_append,
    parseVarintMsbBe.loop_flagged _ (fun b hb => le_toNat_of_mem_dropLast hb)
      (getLast_msbVarint_lt n), hsplit, foldl_digit_msbVarint, hlen]
  simp only [zero_mul, zero_add]
  split_ifs with hread hspec hspec
  · rfl
  · exact absurd ⟨hread.1, by omega⟩ hspec
  · exact absurd ⟨hspec.1, by omega⟩ hread
  · rfl

end ParseVarint

/-! ## Identifier octets -/

structure Identifier where
  tag : Tag
  constructed : Bool
  deriving DecidableEq, Repr

def Identifier.parse : Parser UInt8 Identifier := do
  let first ← beU8
  let some cls := TagClass.from ((first >>> 6) &&& 0b11) | fun _ => .panic "Value larger than 2 bits"
  let constructed := (first >>> 5) &&& 0b1 == 1
  let number := (first &&& 0b11111).toNat
  if number = 31 then do
    let number ← parseVarintMsbBe
    if number ≤ 30 then fail
    else pure ⟨⟨cls, number⟩, constructed⟩
  else pure ⟨⟨cls, number⟩, constructed⟩

/-- The first identifier octet: the class in bits 7-6, the constructed bit 5, and `low` (the number
or 31) in bits 4-0. -/
def Identifier.firstOctet (cls : TagClass) (constructed : Bool) (low : UInt8) : UInt8 :=
  (cls.toU8 <<< 6) ||| ((if constructed then 1 else 0 : UInt8) <<< 5) ||| low

/-- `Identifier::serialize`: the octets it appends. -/
def Identifier.serialize (id : Identifier) : Option (List UInt8) :=
  let first := firstOctet id.tag.cls id.constructed
    (if id.tag.number ≤ 30 then UInt8.ofNat id.tag.number else 31)
  if id.tag.number ≥ 31 then (serializeVarintMsbBe id.tag.number).map (first :: ·)
  else some [first]

/-! ## Length octets -/

inductive Length where
  | Short (n : UInt8)
  | Long (n : Nat)
  | Indefinite
  deriving DecidableEq, Repr

def Length.parse : Parser UInt8 Length := do
  let first ← beU8
  let upper := first &&& 0x80
  let lower := first &&& 0x7f
  if upper = 0 then pure (.Short lower)
  else if lower = 0 then pure .Indefinite
  else if lower = 127 then fail
  else if lower.toNat > USIZE_OCTETS then fail
  else do
    let data ← takeExact lower.toNat
    -- `usize::from_be_bytes` of the octets right-aligned in a zeroed buffer
    pure (.Long (fromBe (List.replicate (USIZE_OCTETS - lower.toNat) 0 ++ data)))

/-- `Length::serialize`: the octets it appends, the minimal form of a `usize` length. -/
def Length.serialize : Option Nat → List UInt8
  | none => [0x80]
  | some len =>
    if len ≤ 127 then [UInt8.ofNat len]
    else
      let buf := toBe len USIZE_OCTETS
      let i := buf.findIdx (· != 0)
      let nbytes := buf.length - i
      (0x80 ||| UInt8.ofNat nbytes) :: buf.drop i

/-! ## Elements -/

structure Element where
  ident : Identifier
  len : Length
  data : List UInt8
  /-- The octets of the whole element. -/
  outer : List UInt8
  deriving DecidableEq, Repr

/-- The data octets `Element::parse` takes after the length. -/
def Element.takeData : Length → Parser UInt8 (List UInt8)
  | .Short n => takeExact n.toNat
  | .Long n => takeExact n
  | .Indefinite => fail

/-- The `seq!` inside `Element::parse`. -/
def Element.parseParts : Parser UInt8 (Identifier × Length × List UInt8) := do
  let ident ← Identifier.parse
  let len ← Length.parse
  let data ← Element.takeData len
  pure (ident, len, data)

def Element.parse : Parser UInt8 Element :=
  map (sliceWith Element.parseParts) fun ((ident, len, data), outer) => ⟨ident, len, data, outer⟩

section IdentifierOctets

theorem firstOctet_fields (c : TagClass) : ∀ (k : Bool) (l : Fin 32),
    TagClass.from ((Identifier.firstOctet c k (UInt8.ofNat l) >>> 6) &&& 0b11) = some c ∧
      ((Identifier.firstOctet c k (UInt8.ofNat l) >>> 5) &&& 0b1 == 1) = k ∧
      (Identifier.firstOctet c k (UInt8.ofNat l) &&& 0b11111).toNat = l := by
  cases c <;> decide

theorem Identifier.parse_firstOctet (c : TagClass) (k : Bool) (l : Fin 32) (rest : List UInt8) :
    Identifier.parse (firstOctet c k (UInt8.ofNat l) :: rest) =
      if l.val = 31 then
        (do
          let number ← parseVarintMsbBe
          if number ≤ 30 then fail else pure (⟨⟨c, number⟩, k⟩ : Identifier) : Parser UInt8 Identifier)
          rest
      else .ok ⟨⟨c, l⟩, k⟩ rest := by
  obtain ⟨hc, hk, hl⟩ := firstOctet_fields c k l
  rw [Identifier.parse, bind_apply_of_ok (beU8_cons _ rest)]
  simp only [hc, hk, hl]
  split_ifs <;> rfl

theorem Identifier.serialize_of_le {id : Identifier} (h : id.tag.number ≤ 30) :
    id.serialize = some [firstOctet id.tag.cls id.constructed (UInt8.ofNat id.tag.number)] := by
  simp [Identifier.serialize, h, show ¬ 31 ≤ id.tag.number by omega]

theorem Identifier.serialize_of_ge {id : Identifier} (h : 31 ≤ id.tag.number) :
    id.serialize = if id.tag.number < 2 ^ 56 then
      some (firstOctet id.tag.cls id.constructed 31 :: msbVarint id.tag.number) else none := by
  rw [Identifier.serialize, if_pos h, serializeVarintMsbBe_eq, if_neg (by omega)]
  split_ifs <;> rfl

/-- The writer panics exactly on tag numbers from `2 ^ 56` on. -/
theorem Identifier.serialize_eq_none_iff (id : Identifier) :
    id.serialize = none ↔ 2 ^ 56 ≤ id.tag.number := by
  rcases Nat.lt_or_ge id.tag.number 31 with h | h
  · rw [Identifier.serialize_of_le (by omega)]
    simp only [reduceCtorEq, false_iff, not_le]
    omega
  · rw [Identifier.serialize_of_ge h]
    split_ifs with hfit
    · simp only [false_iff, not_le]
      exact hfit
    · simp only [true_iff]
      omega

/-- The identifiers the reader reads back: a number below 31, or one the writer can write whose
inner digits are non-zero. -/
def Identifier.Readable (id : Identifier) : Prop :=
  id.tag.number ≤ 30 ∨ (InnerDigitsNonzero id.tag.number ∧ id.tag.number < 2 ^ 56)

/-- The reader reads back every readable identifier the writer writes, whatever follows it. -/
theorem Identifier.parse_serialize {id : Identifier} (h : id.Readable) :
    ∃ bs, id.serialize = some bs ∧ ∀ rest, Identifier.parse (bs ++ rest) = .ok id rest := by
  obtain ⟨⟨c, n⟩, k⟩ := id
  rcases Nat.lt_or_ge n 31 with hn | hn
  · refine ⟨_, Identifier.serialize_of_le (show n ≤ 30 by omega), fun rest => ?_⟩
    have h := Identifier.parse_firstOctet c k ⟨n, by omega⟩ rest
    simpa [show n ≠ 31 by omega] using h
  · have hfit : n < 2 ^ 56 := by
      rcases h with h | h
      · simp at h; omega
      · exact h.2
    have hdigits : InnerDigitsNonzero n := by
      rcases h with h | h
      · simp at h; omega
      · exact h.1
    have hlen : (msbVarint n).length ≤ MAX_VARINT_OCTETS :=
      Nat.le_trans (length_msbVarint_le 7 (by norm_num; omega)) (by decide)
    refine ⟨_, by rw [Identifier.serialize_of_ge hn, if_pos hfit], fun rest => ?_⟩
    have h := Identifier.parse_firstOctet c k ⟨31, by omega⟩ (msbVarint n ++ rest)
    rw [if_pos rfl, bind_apply_of_ok (by rw [parseVarintMsbBe_msbVarint, if_pos ⟨hdigits, hlen⟩]),
      if_neg (by omega)] at h
    exact h

/-- A number whose second-lowest base-128 digit is zero, with a digit above it (such as
`16384 = 128 ^ 2`), is written but not read back: the reader takes the zero for a leading one. -/
theorem Identifier.parse_serialize_of_zero_digit {id : Identifier} (h : 128 * 128 ≤ id.tag.number)
    (hz : id.tag.number / 128 % 128 = 0) (hfit : id.tag.number < 2 ^ 56) :
    ∃ bs, id.serialize = some bs ∧ ∀ rest, Identifier.parse (bs ++ rest) = .reject := by
  obtain ⟨⟨c, n⟩, k⟩ := id
  refine ⟨_, by rw [Identifier.serialize_of_ge (by simp at h ⊢; omega), if_pos hfit], fun rest => ?_⟩
  have h' := Identifier.parse_firstOctet c k ⟨31, by omega⟩ (msbVarint n ++ rest)
  rw [if_pos rfl, bind_apply_of_reject (by
    rw [parseVarintMsbBe_msbVarint, if_neg (fun hr => not_innerDigitsNonzero_of_digit_zero h hz hr.1)])]
    at h'
  exact h'

end IdentifierOctets

section LengthOctets

theorem Length.parse_short {b : UInt8} (hb : b.toNat < 128) (rest : List UInt8) :
    Length.parse (b :: rest) = .ok (.Short b) rest := by
  have hu : b &&& 0x80 = 0 := (and_128_eq_zero_iff b).2 hb
  have hl : b &&& 0x7f = b := by rw [← UInt8.toNat_inj, toNat_and_127, Nat.mod_eq_of_lt hb]
  rw [Length.parse, bind_apply_of_ok (beU8_cons b rest)]
  simp only [hu, hl, if_true]
  rfl

/-- The long form with `m` octets, whatever their value: nothing checks that it is minimal. -/
theorem Length.parse_long {m : Nat} (hm1 : 1 ≤ m) (hm8 : m ≤ USIZE_OCTETS) {data : List UInt8}
    (hlen : data.length = m) (rest : List UInt8) :
    Length.parse ((0x80 ||| UInt8.ofNat m) :: (data ++ rest)) = .ok (.Long (fromBe data)) rest := by
  have hm8' : m ≤ 8 := hm8
  have hm : (UInt8.ofNat m).toNat = m := toNat_ofNat_digit (by omega)
  have hfirst : (0x80 ||| UInt8.ofNat m).toNat = m + 128 := by
    rw [UInt8.or_comm, toNat_or_128 (by omega), hm]
  have hu : ¬ (0x80 ||| UInt8.ofNat m) &&& 0x80 = 0 := by
    rw [and_128_eq_zero_iff]
    omega
  have hl : (0x80 ||| UInt8.ofNat m) &&& 0x7f = UInt8.ofNat m := by
    rw [← UInt8.toNat_inj, toNat_and_127, hfirst, hm]
    omega
  have hl0 : ¬ UInt8.ofNat m = 0 := by
    rw [← UInt8.toNat_inj, hm]
    simp only [UInt8.toNat_zero]
    omega
  have hl127 : ¬ UInt8.ofNat m = 127 := by
    rw [← UInt8.toNat_inj, hm]
    simp only [UInt8.reduceToNat]
    omega
  rw [Length.parse, bind_apply_of_ok (beU8_cons _ _)]
  simp only [hu, hl, hl0, hl127, hm, if_false, gt_iff_lt, show ¬ USIZE_OCTETS < m by omega]
  rw [← hlen, bind_apply_of_ok (takeExact_append data rest), fromBe_append, fromBe_replicate_zero,
    zero_mul, zero_add]
  rfl

theorem findIdx_replicate_zero_append (k : Nat) {x : UInt8} (hx : x ≠ 0) (rest : List UInt8) :
    (List.replicate k 0 ++ x :: rest).findIdx (· != 0) = k := by
  induction k with
  | zero => simp [List.findIdx_cons, bne_iff_ne.mpr hx]
  | succ k ih => simp [List.replicate_succ, List.findIdx_cons, ih]

/-- A length above 127 is written as the flag with its octet count, then its octets without
leading zeros. -/
theorem Length.serialize_of_gt {len : Nat} (h : 127 < len) (hfit : len < 2 ^ 64) :
    Length.serialize (some len) =
      (0x80 ||| UInt8.ofNat (Nat.log 256 len + 1)) :: toBe len (Nat.log 256 len + 1) := by
  have hlog : Nat.log 256 len < 8 := Nat.log_lt_of_lt_pow (by omega) (by norm_num; omega)
  have hlow := Nat.pow_log_le_self 256 (show len ≠ 0 by omega)
  have hhigh := Nat.lt_pow_succ_log_self (show 1 < 256 by norm_num) len
  have htop : len / 256 ^ Nat.log 256 len % 256 ≠ 0 := by
    have hpos : 0 < 256 ^ Nat.log 256 len := by positivity
    have h1 : 1 ≤ len / 256 ^ Nat.log 256 len := (Nat.one_le_div_iff hpos).2 hlow
    have h2 : len / 256 ^ Nat.log 256 len < 256 := by
      rw [Nat.div_lt_iff_lt_mul hpos, ← pow_succ']
      exact hhigh
    omega
  have hbuf : toBe len USIZE_OCTETS =
      List.replicate (7 - Nat.log 256 len) 0 ++ toBe len (Nat.log 256 len + 1) := by
    rw [← toBe_of_lt (7 - Nat.log 256 len) hhigh]
    congr 1
    unfold USIZE_OCTETS
    omega
  have hne : UInt8.ofNat (len / 256 ^ Nat.log 256 len % 256) ≠ 0 := by
    rw [Ne, ← UInt8.toNat_inj, UInt8.toNat_ofNat', Nat.mod_mod]
    simpa using htop
  rw [Length.serialize, if_neg (by omega)]
  simp only [hbuf, toBe, findIdx_replicate_zero_append _ hne, List.length_append,
    List.length_replicate, List.length_cons, length_toBe, List.drop_left' (List.length_replicate ..)]
  congr 3
  omega

/-- The reader reads back every length the writer writes, in the short form up to 127. -/
theorem Length.parse_serialize {len : Nat} (hfit : len < 2 ^ 64) (rest : List UInt8) :
    Length.parse (Length.serialize (some len) ++ rest) =
      .ok (if len ≤ 127 then .Short (UInt8.ofNat len) else .Long len) rest := by
  by_cases h : len ≤ 127
  · rw [Length.serialize, if_pos h, if_pos h]
    exact Length.parse_short (by rw [toNat_ofNat_digit (show len < 128 by omega)]; omega) rest
  · have hlog : Nat.log 256 len < 8 := Nat.log_lt_of_lt_pow (by omega) (by norm_num; omega)
    rw [Length.serialize_of_gt (by omega) hfit, if_neg h, List.cons_append,
      Length.parse_long (by omega) (by unfold USIZE_OCTETS; omega) (length_toBe _ _),
      fromBe_toBe_of_lt (Nat.lt_pow_succ_log_self (by norm_num) len)]

end LengthOctets

section Elements

/-- An element is its identifier, its length and its data, one after the other; what it consumed
is the three of them. -/
theorem Element.parse_append {ib lb data rest : List UInt8} {id : Identifier} {len : Length}
    (hid : Identifier.parse (ib ++ (lb ++ data ++ rest)) = .ok id (lb ++ data ++ rest))
    (hlen : Length.parse (lb ++ (data ++ rest)) = .ok len (data ++ rest))
    (hdata : Element.takeData len (data ++ rest) = .ok data rest) :
    Element.parse (ib ++ lb ++ data ++ rest) = .ok ⟨id, len, data, ib ++ lb ++ data⟩ rest := by
  have hparts : Element.parseParts (ib ++ lb ++ data ++ rest) = .ok (id, len, data) rest := by
    rw [Element.parseParts, List.append_assoc ib, List.append_assoc ib, bind_apply_of_ok hid, bind_apply_of_ok (by rwa [List.append_assoc]), bind_apply_of_ok hdata]
    rfl
  rw [Element.parse, map_apply_of_ok (sliceWith_append hparts)]

theorem Element.parse_of_identifier_reject {input : List UInt8}
    (h : Identifier.parse input = .reject) : Element.parse input = .reject := by
  have hparts : Element.parseParts input = .reject := by
    rw [Element.parseParts, bind_apply_of_reject h]
  simp [Element.parse, sliceWith, hparts, map, Reply.map]

/-- The reader reads back an element written with a readable identifier, its minimal length and
its data, whatever follows it. -/
theorem Element.parse_serialize {id : Identifier} (hid : id.Readable) {ib : List UInt8}
    (hser : id.serialize = some ib) (data : List UInt8) (hfit : data.length < 2 ^ 64)
    (rest : List UInt8) :
    Element.parse (ib ++ Length.serialize (some data.length) ++ data ++ rest) =
      .ok ⟨id, if data.length ≤ 127 then .Short (UInt8.ofNat data.length) else .Long data.length,
        data, ib ++ Length.serialize (some data.length) ++ data⟩ rest := by
  obtain ⟨ib', hser', hparse⟩ := Identifier.parse_serialize hid
  obtain rfl : ib = ib' := Option.some.inj (hser.symm.trans hser')
  refine Element.parse_append (hparse _) (Length.parse_serialize hfit _) ?_
  by_cases h : data.length ≤ 127
  · rw [if_pos h, Element.takeData, toNat_ofNat_digit (by omega)]
    exact takeExact_append data rest
  · rw [if_neg h, Element.takeData]
    exact takeExact_append data rest

/-- A length below 128 written in the long form, in any number of octets from one to eight, is
accepted: the element's octets are not the ones its fields are written as. -/
theorem Element.parse_long_form_not_minimal {id : Identifier} (hid : id.Readable) {m : Nat}
    (hm1 : 1 ≤ m) (hm8 : m ≤ USIZE_OCTETS) (data rest : List UInt8) (hlen : data.length < 128) :
    ∃ ib e, id.serialize = some ib ∧
      Element.parse (ib ++ ((0x80 ||| UInt8.ofNat m) :: toBe data.length m) ++ data ++ rest) =
        .ok e rest ∧
      e = ⟨id, .Long data.length, data, ib ++ ((0x80 ||| UInt8.ofNat m) :: toBe data.length m) ++ data⟩ ∧
      ib ++ Length.serialize (some e.data.length) ++ e.data ≠ e.outer := by
  obtain ⟨ib, hser, hparse⟩ := Identifier.parse_serialize hid
  have hfits : data.length < 256 ^ m :=
    lt_of_lt_of_le hlen (le_trans (by norm_num) (Nat.pow_le_pow_right (by norm_num) hm1))
  refine ⟨ib, _, hser, Element.parse_append (hparse _) ?_ ?_, rfl, ?_⟩
  · rw [List.cons_append, Length.parse_long hm1 hm8 (length_toBe _ _),
      fromBe_toBe_of_lt hfits]
  · exact takeExact_append data rest
  · -- the short form takes one octet where the long form takes `m + 1`
    intro heq
    have := congrArg List.length heq
    simp only [Length.serialize, show data.length ≤ 127 by omega, if_true, List.length_append,
      List.length_cons, List.length_nil, length_toBe] at this
    omega

/-- The OCTET STRING `1 2 3 4 5` with its length `5` in the long form `81 05`. -/
theorem parse_long_form_octet_string :
    Identifier.Readable ⟨⟨.Universal, 4⟩, false⟩ ∧
    ∃ ib e, Identifier.serialize ⟨⟨.Universal, 4⟩, false⟩ = some ib ∧
      Element.parse (ib ++ ((0x80 ||| UInt8.ofNat 1) :: toBe [1, 2, 3, 4, 5].length 1) ++
        [1, 2, 3, 4, 5] ++ []) = .ok e [] ∧
      e = ⟨⟨⟨.Universal, 4⟩, false⟩, .Long 5, [1, 2, 3, 4, 5],
        ib ++ ((0x80 ||| UInt8.ofNat 1) :: toBe [1, 2, 3, 4, 5].length 1) ++ [1, 2, 3, 4, 5]⟩ ∧
      ib ++ Length.serialize (some e.data.length) ++ e.data ≠ e.outer :=
  have hid : Identifier.Readable ⟨⟨.Universal, 4⟩, false⟩ := Or.inl (by decide)
  ⟨hid, Element.parse_long_form_not_minimal hid (le_refl 1) (by decide) [1, 2, 3, 4, 5] []
    (by decide)⟩

end Elements

end Dacha.Asn
