import Mathlib
import Dacha.Lib.Bytes
import Dacha.SSTable.InternalKey

/-!
# Index separators (`table/comparator.rs:97-136`, `db/internal_key.rs:134-155`)

| here | there |
| --- | --- |
| `BytewiseComparator.commonPrefixLength`, `separatorLoop`, `findShortestSeparator` | `BytewiseComparator::find_shortest_separator`: the `while` loop, the `for` loop, the whole |
| `BytewiseComparator.shortSuccessorLoop`, `findShortSuccessor` | `BytewiseComparator::find_short_successor` |
| `parseInternalKey` | `InternalKey::parse` (`internal_key.rs:46-60`) |
| `compareSerialized` | `InternalKeyComparator::compare` on serialized keys (`:116-131`) |
| `InternalKeyComparator.findShortestSeparator`, `findShortSuccessor` | `:134-155` |

An index block stores, between two data blocks, a key at least the last key of the first and
below the first key of the second; `find_shortest_separator` makes it short by incrementing a
byte of `start` where that keeps it below `limit` and cutting `start` after that byte. The `for`
loop goes on past the first byte that differs: an increment there still lands between the two.
`find_short_successor` increments the last byte that is not `0xff` and cuts after it.

The internal-key versions take the user keys apart from the eight-byte tag, compute on the user
keys and put `start`'s tag back: `u64::from_ne_bytes` and `to_ne_bytes` give back the same eight
bytes. They panic (`None`) on a key below eight bytes.

The model's comparisons are `bytewiseCompare` of `InternalKey.lean`; a byte is incremented only
below `0xff`, so the `u8` addition never overflows.
-/

namespace Dacha.SSTable

namespace BytewiseComparator

/-- The `while` loop: how many leading bytes `start` and `limit` share, at most the shorter
length (`diff_index`). -/
def commonPrefixLength : List UInt8 → List UInt8 → Nat
  | a :: as, b :: bs => if a = b then commonPrefixLength as bs + 1 else 0
  | _, _ => 0

/-- The `for` loop over the positions `is`: at the first where `start`'s byte is below `0xff` and
one more is still below `limit`'s, that byte is incremented and `start` is cut after it. -/
def separatorLoop (start limit : List UInt8) : List Nat → List UInt8
  | [] => start
  | i :: is =>
    if start.getD i 0 < 0xff ∧ start.getD i 0 + 1 < limit.getD i 0 then
      (start.set i (start.getD i 0 + 1)).take (i + 1)
    else separatorLoop start limit is

/-- `find_shortest_separator`: `start` itself when it is a prefix of `limit` (or `limit` of it). -/
def findShortestSeparator (start limit : List UInt8) : List UInt8 :=
  let minLength := min start.length limit.length
  let diffIndex := commonPrefixLength start limit
  if diffIndex ≥ minLength then start
  else separatorLoop start limit (List.range' diffIndex (minLength - diffIndex))

/-- The loop of `find_short_successor` over the positions `is`, the last first: the first byte
that is not `0xff` is incremented and the key cut after it. -/
def shortSuccessorLoop (key : List UInt8) : List Nat → List UInt8
  | [] => key
  | i :: is =>
    if key.getD i 0 ≠ 0xff then (key.set i (key.getD i 0 + 1)).take (i + 1)
    else shortSuccessorLoop key is

/-- `find_short_successor`; a key of only `0xff` bytes comes back unchanged. -/
def findShortSuccessor (key : List UInt8) : List UInt8 :=
  shortSuccessorLoop key (List.range key.length).reverse

end BytewiseComparator

/-- `InternalKey::parse`: the user key, the sequence and the type byte of a serialized key, whose
last eight bytes hold `(sequence << 8) | type` little endian. `None` below eight bytes, or for a
type byte that `ValueType::from_value` does not name (`0..=0x13` and `0xff`). -/
def parseInternalKey (input : List UInt8) : Option (List UInt8 × Nat × UInt8) :=
  if input.length < 8 then none
  else
    let num := Bytes.fromLe (input.drop (input.length - 8))
    let typ := UInt8.ofNat (num % 256)
    if typ ≤ 0x13 ∨ typ = 0xff then some (input.take (input.length - 8), num / 256, typ)
    else none

/-- `InternalKeyComparator::compare` on serialized keys: user keys bytewise, then decreasing
sequence; `None` where `InternalKey::parse(..).unwrap()` panics. -/
def compareSerialized (a b : List UInt8) : Option Ordering := do
  let (ua, sa, _) ← parseInternalKey a
  let (ub, sb, _) ← parseInternalKey b
  pure (match bytewiseCompare ua ub with
    | .eq => Ord.compare sb sa
    | o => o)

namespace InternalKeyComparator

/-- `find_shortest_separator`: the user keys' separator followed by `start`'s eight-byte tag.
`start.len() - 8` and the assert of `InternalKey::user_key(limit)` panic below eight bytes. -/
def findShortestSeparator (start limit : List UInt8) : Option (List UInt8) :=
  if start.length < 8 then none
  else if limit.length < 8 then none
  else
    some (BytewiseComparator.findShortestSeparator (start.take (start.length - 8))
      (limit.take (limit.length - 8)) ++ start.drop (start.length - 8))

/-- `find_short_successor`: the user key's successor followed by the key's eight-byte tag. -/
def findShortSuccessor (key : List UInt8) : Option (List UInt8) :=
  if key.length < 8 then none
  else
    some (BytewiseComparator.findShortSuccessor (key.take (key.length - 8)) ++
      key.drop (key.length - 8))

end InternalKeyComparator

/-! ## Keys that share a prefix -/

@[simp] theorem bytewiseCompare_append_left (p a b : List UInt8) :
    bytewiseCompare (p ++ a) (p ++ b) = bytewiseCompare a b := by
  induction p with
  | nil => rfl
  | cons x p ih => simp [bytewiseCompare, ih]

theorem bytewiseCompare_cons_of_ne {x y : UInt8} (hne : x ≠ y) (as bs : List UInt8) :
    bytewiseCompare (x :: as) (y :: bs) = compare x y := by
  simp only [bytewiseCompare]
  cases h : compare x y with
  | eq => exact absurd (Std.LawfulEqOrd.compare_eq_iff_eq.mp h) hne
  | lt => rfl
  | gt => rfl

theorem bytewiseCompare_of_lt {x y : UInt8} (h : x < y) (p as bs : List UInt8) :
    bytewiseCompare (p ++ x :: as) (p ++ y :: bs) = .lt := by
  rw [bytewiseCompare_append_left, bytewiseCompare_cons_of_ne (UInt8.ne_of_lt h), Std.compare_eq_lt.mpr h]

theorem set_take_succ {key : List UInt8} {i : Nat} (hi : i < key.length) (v : UInt8) :
    (key.set i v).take (i + 1) = key.take i ++ [v] := by
  have hlen : (key.take i).length = i := by simp; omega
  rw [List.set_eq_take_append_cons_drop, if_pos hi, List.take_append, hlen,
    List.take_of_length_le (by omega), Nat.add_sub_cancel_left]
  rfl

/-- Byte `i` below `0xff`, incremented, with the key cut after it, gives a greater key. -/
theorem bytewiseCompare_increment {key : List UInt8} {i : Nat} (hi : i < key.length)
    (hff : key[i] ≠ 0xff) : bytewiseCompare key ((key.set i (key[i] + 1)).take (i + 1)) = .lt := by
  have hsplit : key = key.take i ++ key[i] :: key.drop (i + 1) := by
    rw [← List.drop_eq_getElem_cons hi, List.take_append_drop]
  have h := bytewiseCompare_of_lt (UInt8.lt_add_one hff) (key.take i) (key.drop (i + 1)) []
  rwa [← hsplit, ← set_take_succ hi] at h

namespace BytewiseComparator

/-- `diff_index` splits the two keys into their common prefix and two tails that are empty or
start with different bytes. -/
theorem commonPrefixLength_spec : ∀ a b : List UInt8, ∃ p as bs, a = p ++ as ∧ b = p ++ bs ∧
    commonPrefixLength a b = p.length ∧ ∀ x y as' bs', as = x :: as' → bs = y :: bs' → x ≠ y
  | [], b => ⟨[], [], b, rfl, rfl, rfl, by simp⟩
  | a :: as, [] => ⟨[], a :: as, [], rfl, rfl, rfl, by simp⟩
  | a :: as, b :: bs => by
    by_cases hab : a = b
    · obtain ⟨p, as', bs', ha, hb, hlen, hne⟩ := commonPrefixLength_spec as bs
      refine ⟨a :: p, as', bs', by rw [ha]; rfl, by rw [hb, hab]; rfl, ?_, hne⟩
      simp [commonPrefixLength, hab, hlen]
    · refine ⟨[], a :: as, b :: bs, rfl, rfl, by simp [commonPrefixLength, hab], ?_⟩
      rintro x y as' bs' ⟨rfl, rfl⟩ ⟨rfl, rfl⟩
      exact hab

theorem commonPrefixLength_self : ∀ a : List UInt8, commonPrefixLength a a = a.length
  | [] => rfl
  | a :: as => by simp [commonPrefixLength, commonPrefixLength_self as]

/-- The `for` loop gives back `start`, or `start` cut after an increment at one of its
positions where the guard held. -/
theorem separatorLoop_cases (start limit : List UInt8) (is : List Nat) :
    separatorLoop start limit is = start ∨
      ∃ i ∈ is, start.getD i 0 < 0xff ∧ start.getD i 0 + 1 < limit.getD i 0 ∧
        separatorLoop start limit is = (start.set i (start.getD i 0 + 1)).take (i + 1) := by
  induction is with
  | nil => exact Or.inl rfl
  | cons i is ih =>
    by_cases hguard : start.getD i 0 < 0xff ∧ start.getD i 0 + 1 < limit.getD i 0
    · exact Or.inr ⟨i, List.mem_cons_self, hguard.1, hguard.2, by rw [separatorLoop, if_pos hguard]⟩
    · rw [separatorLoop, if_neg hguard]
      rcases ih with h | ⟨j, hj, h1, h2, h⟩
      · exact Or.inl h
      · exact Or.inr ⟨j, List.mem_cons_of_mem _ hj, h1, h2, h⟩

/-- The loop of `find_short_successor` gives back the key, or the key cut after an increment at
one of its positions that did not hold `0xff`. -/
theorem shortSuccessorLoop_cases (key : List UInt8) (is : List Nat) :
    shortSuccessorLoop key is = key ∨
      ∃ i ∈ is, key.getD i 0 ≠ 0xff ∧
        shortSuccessorLoop key is = (key.set i (key.getD i 0 + 1)).take (i + 1) := by
  induction is with
  | nil => exact Or.inl rfl
  | cons i is ih =>
    by_cases hguard : key.getD i 0 ≠ 0xff
    · exact Or.inr ⟨i, List.mem_cons_self, hguard, by rw [shortSuccessorLoop, if_pos hguard]⟩
    · rw [shortSuccessorLoop, if_neg hguard]
      rcases ih with h | ⟨j, hj, h1, h⟩
      · exact Or.inl h
      · exact Or.inr ⟨j, List.mem_cons_of_mem _ hj, h1, h⟩

theorem findShortestSeparator_self (key : List UInt8) : findShortestSeparator key key = key := by
  simp [findShortestSeparator, commonPrefixLength_self]

theorem take_append_cons_of_lt {α : Type} {p as : List α} {x : α} {i : Nat} (hi : p.length < i) :
    (p ++ x :: as).take i = p ++ x :: as.take (i - p.length - 1) := by
  obtain ⟨k, hk⟩ : ∃ k, i - p.length = k + 1 := ⟨i - p.length - 1, by omega⟩
  rw [List.take_append, List.take_of_length_le (by omega), hk, List.take_succ_cons,
    Nat.add_sub_cancel]

/-- `find_shortest_separator` lands between the two keys: at least `start`, below `limit`. -/
theorem findShortestSeparator_between {start limit : List UInt8}
    (h : bytewiseCompare start limit = .lt) :
    (bytewiseCompare start (findShortestSeparator start limit)).isLE ∧
      bytewiseCompare (findShortestSeparator start limit) limit = .lt := by
  obtain ⟨p, as, bs, rfl, rfl, hdiff, hne⟩ := commonPrefixLength_spec start limit
  simp only [findShortestSeparator, hdiff]
  split_ifs with hge
  · simp [h]
  obtain ⟨x, as', rfl⟩ : ∃ x as', as = x :: as' := by
    cases as with
    | nil => simp only [List.append_nil] at hge; omega
    | cons x as' => exact ⟨x, as', rfl⟩
  obtain ⟨y, bs', rfl⟩ : ∃ y bs', bs = y :: bs' := by
    cases bs with
    | nil => simp only [List.append_nil] at hge; omega
    | cons y bs' => exact ⟨y, bs', rfl⟩
  have hxy : x < y := by
    rw [bytewiseCompare_append_left, bytewiseCompare_cons_of_ne (hne x y as' bs' rfl rfl)] at h
    exact Std.compare_eq_lt.mp h
  rcases separatorLoop_cases (p ++ x :: as') (p ++ y :: bs') _ with hs | ⟨i, hi, hff, hlim, hs⟩
  · rw [hs]; simp [h]
  rw [List.mem_range'_1] at hi
  simp only [List.length_append, List.length_cons] at hi
  have hilen : i < (p ++ x :: as').length := by simp; omega
  rw [List.getD_eq_getElem _ _ hilen] at hff hlim hs
  rw [hs, bytewiseCompare_increment hilen (UInt8.ne_of_lt hff), set_take_succ hilen]
  refine ⟨rfl, ?_⟩
  rcases Nat.eq_or_lt_of_le hi.1 with heq | hgt
  · -- the increment is at the first differing byte, and stays below `y`
    subst heq
    simp only [List.getElem_append_right (Nat.le_refl _), Nat.sub_self, List.getElem_cons_zero,
      List.take_left'] at hlim ⊢
    have hy : (p ++ y :: bs').getD p.length 0 = y := by simp
    rw [hy] at hlim
    exact bytewiseCompare_of_lt hlim p [] bs'
  · -- past it: the separator keeps `x`
    rw [take_append_cons_of_lt hgt, List.append_assoc, List.cons_append]
    exact bytewiseCompare_of_lt hxy p _ bs'

/-- The increment can land past the first differing byte: `1 + 1` is not below `2`, `5 + 1` is
below `9`. -/
example : findShortestSeparator [1, 5, 7] [2, 9, 9] = [1, 6] := by decide

/-- `find_short_successor` never goes below the key. -/
theorem findShortSuccessor_ge (key : List UInt8) :
    (bytewiseCompare key (findShortSuccessor key)).isLE := by
  rcases shortSuccessorLoop_cases key (List.range key.length).reverse with hs | ⟨i, hi, hff, hs⟩
  · simp [findShortSuccessor, hs]
  · have hilen : i < key.length := List.mem_range.mp (List.mem_reverse.mp hi)
    rw [List.getD_eq_getElem _ _ hilen] at hff hs
    rw [findShortSuccessor, hs, bytewiseCompare_increment hilen hff]
    rfl

end BytewiseComparator

/-! ## Internal keys: the tag moved onto another user key -/

theorem eight_le_of_parseInternalKey {k : List UInt8} {r} (h : parseInternalKey k = some r) :
    8 ≤ k.length := by
  unfold parseInternalKey at h
  split_ifs at h with hk
  omega

theorem parseInternalKey_user {k u : List UInt8} {sq : Nat} {t : UInt8}
    (h : parseInternalKey k = some (u, sq, t)) : k.take (k.length - 8) = u := by
  simp only [parseInternalKey] at h
  split_ifs at h
  simp only [Option.some.injEq, Prod.mk.injEq] at h
  exact h.1

/-- Any user key followed by the last eight bytes of a key that parses parses to that user key,
with the key's sequence and type. -/
theorem parseInternalKey_retag {k u : List UInt8} {sq : Nat} {t : UInt8}
    (h : parseInternalKey k = some (u, sq, t)) (w : List UInt8) :
    parseInternalKey (w ++ k.drop (k.length - 8)) = some (w, sq, t) := by
  have hk := eight_le_of_parseInternalKey h
  have htag : (k.drop (k.length - 8)).length = 8 := by simp; omega
  have hlen : (w ++ k.drop (k.length - 8)).length - 8 = w.length := by simp [htag]
  simp only [parseInternalKey] at h ⊢
  rw [if_neg (by omega)] at h
  rw [if_neg (by simp [htag]), hlen, List.drop_left, List.take_left]
  split_ifs at h ⊢
  simp only [Option.some.injEq, Prod.mk.injEq] at h
  obtain ⟨-, rfl, rfl⟩ := h
  rfl

theorem compareSerialized_of_parse {a b ua ub : List UInt8} {sa sb : Nat} {ta tb : UInt8}
    (ha : parseInternalKey a = some (ua, sa, ta)) (hb : parseInternalKey b = some (ub, sb, tb)) :
    compareSerialized a b =
      some (match bytewiseCompare ua ub with
        | .eq => Ord.compare sb sa
        | o => o) := by
  simp [compareSerialized, ha, hb]

theorem isSome_parse_of_compareSerialized {a b : List UInt8} {o : Ordering}
    (h : compareSerialized a b = some o) :
    (parseInternalKey a).isSome ∧ (parseInternalKey b).isSome := by
  unfold compareSerialized at h
  cases ha : parseInternalKey a <;> cases hb : parseInternalKey b <;> simp_all

/-- Moving a key's tag onto a user key that is not below the key's gives a key not below it. -/
theorem compareSerialized_retag_isLE {k u w : List UInt8} {sq : Nat} {t : UInt8}
    (h : parseInternalKey k = some (u, sq, t)) (hw : (bytewiseCompare u w).isLE) :
    ∃ o, compareSerialized k (w ++ k.drop (k.length - 8)) = some o ∧ o.isLE := by
  refine ⟨_, compareSerialized_of_parse h (parseInternalKey_retag h w), ?_⟩
  cases hc : bytewiseCompare u w <;> simp_all

namespace InternalKeyComparator

/-- Over internal keys that parse, `find_shortest_separator` gives a key that parses, at least
`start` and below `limit`. -/
theorem findShortestSeparator_between {start limit : List UInt8}
    (h : compareSerialized start limit = some .lt) :
    ∃ s, findShortestSeparator start limit = some s ∧ (parseInternalKey s).isSome ∧
      (∃ o, compareSerialized start s = some o ∧ o.isLE) ∧ compareSerialized s limit = some .lt := by
  obtain ⟨⟨us, ss, ts⟩, hs⟩ := Option.isSome_iff_exists.mp (isSome_parse_of_compareSerialized h).1
  obtain ⟨⟨ul, sl, tl⟩, hl⟩ := Option.isSome_iff_exists.mp (isSome_parse_of_compareSerialized h).2
  have hsep : findShortestSeparator start limit =
      some (BytewiseComparator.findShortestSeparator us ul ++ start.drop (start.length - 8)) := by
    have h1 := eight_le_of_parseInternalKey hs
    have h2 := eight_le_of_parseInternalKey hl
    rw [findShortestSeparator, if_neg (by omega), if_neg (by omega), parseInternalKey_user hs,
      parseInternalKey_user hl]
  refine ⟨_, hsep, by rw [parseInternalKey_retag hs]; rfl, ?_⟩
  have hcmp := compareSerialized_of_parse hs hl
  cases hc : bytewiseCompare us ul with
  | lt =>
    obtain ⟨hle, hlt⟩ := BytewiseComparator.findShortestSeparator_between hc
    refine ⟨compareSerialized_retag_isLE hs hle, ?_⟩
    rw [compareSerialized_of_parse (parseInternalKey_retag hs _) hl, hlt]
  | eq =>
    rw [bytewiseCompare_eq_iff] at hc
    subst hc
    rw [BytewiseComparator.findShortestSeparator_self, ← parseInternalKey_user hs,
      List.take_append_drop]
    exact ⟨⟨.eq, by simp [compareSerialized_of_parse hs hs], rfl⟩, h⟩
  | gt => simp [hcmp, hc] at h

/-- Over an internal key that parses, `find_short_successor` gives a key that parses and is not
below it. -/
theorem findShortSuccessor_ge {key : List UInt8} (h : (parseInternalKey key).isSome) :
    ∃ s, findShortSuccessor key = some s ∧ (parseInternalKey s).isSome ∧
      ∃ o, compareSerialized key s = some o ∧ o.isLE := by
  obtain ⟨⟨u, sq, t⟩, hk⟩ := Option.isSome_iff_exists.mp h
  have hsucc : findShortSuccessor key =
      some (BytewiseComparator.findShortSuccessor u ++ key.drop (key.length - 8)) := by
    rw [findShortSuccessor, if_neg (by have := eight_le_of_parseInternalKey hk; omega),
      parseInternalKey_user hk]
  exact ⟨_, hsucc, by rw [parseInternalKey_retag hk]; rfl,
    compareSerialized_retag_isLE hk (BytewiseComparator.findShortSuccessor_ge u)⟩

end InternalKeyComparator

/-- The separators an index block is built from: for byte keys, and for internal keys over them,
the shortest separator of `start < limit` is in `[start, limit)`, the short successor of a key is
not below it, and the internal-key versions give keys that parse. -/
theorem separators_stay_between (start limit k : List UInt8) :
    (bytewiseCompare start limit = .lt →
      (bytewiseCompare start (BytewiseComparator.findShortestSeparator start limit)).isLE ∧
        bytewiseCompare (BytewiseComparator.findShortestSeparator start limit) limit = .lt) ∧
    (bytewiseCompare k (BytewiseComparator.findShortSuccessor k)).isLE ∧
    (compareSerialized start limit = some .lt →
      ∃ s, InternalKeyComparator.findShortestSeparator start limit = some s ∧
        (parseInternalKey s).isSome ∧ (∃ o, compareSerialized start s = some o ∧ o.isLE) ∧
        compareSerialized s limit = some .lt) ∧
    ((parseInternalKey k).isSome →
      ∃ s, InternalKeyComparator.findShortSuccessor k = some s ∧ (parseInternalKey s).isSome ∧
        ∃ o, compareSerialized k s = some o ∧ o.isLE) :=
  ⟨BytewiseComparator.findShortestSeparator_between, BytewiseComparator.findShortSuccessor_ge k,
    InternalKeyComparator.findShortestSeparator_between, InternalKeyComparator.findShortSuccessor_ge⟩

/-- "abc" and "az" as user keys, and as internal keys of type `Value` at sequences 5 and 3: the
user-key separator is "ac", and both internal-key functions return. -/
theorem separator_abc_az :
    BytewiseComparator.findShortestSeparator [0x61, 0x62, 0x63] [0x61, 0x7a] = [0x61, 0x63] ∧
    bytewiseCompare [0x61, 0x63] [0x61, 0x7a] = .lt ∧
    (∃ s, InternalKeyComparator.findShortestSeparator [0x61, 0x62, 0x63, 1, 5, 0, 0, 0, 0, 0, 0]
        [0x61, 0x7a, 1, 3, 0, 0, 0, 0, 0, 0] = some s ∧
      compareSerialized s [0x61, 0x7a, 1, 3, 0, 0, 0, 0, 0, 0] = some .lt) ∧
    ∃ s, InternalKeyComparator.findShortSuccessor [0x61, 0x62, 0x63, 1, 5, 0, 0, 0, 0, 0, 0] =
      some s ∧ (parseInternalKey s).isSome := by
  have hsep : BytewiseComparator.findShortestSeparator [0x61, 0x62, 0x63] [0x61, 0x7a] =
      [0x61, 0x63] := by decide
  obtain ⟨hbytes, -, -, -⟩ := separators_stay_between [0x61, 0x62, 0x63] [0x61, 0x7a] []
  obtain ⟨-, -, hinternal, hsucc⟩ := separators_stay_between
    [0x61, 0x62, 0x63, 1, 5, 0, 0, 0, 0, 0, 0] [0x61, 0x7a, 1, 3, 0, 0, 0, 0, 0, 0]
    [0x61, 0x62, 0x63, 1, 5, 0, 0, 0, 0, 0, 0]
  obtain ⟨s, hs, -, -, hlt⟩ := hinternal (by decide)
  obtain ⟨s', hs', hparse, -⟩ := hsucc (by decide)
  exact ⟨hsep, hsep ▸ (hbytes (by decide)).2, ⟨s, hs, hlt⟩, ⟨s', hs', hparse⟩⟩

end Dacha.SSTable
