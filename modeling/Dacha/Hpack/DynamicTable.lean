import Mathlib
import Dacha.Hpack.StaticTables

/-!
# The dynamic table and the index space (`dynamic_table.rs`, `indexing_tables.rs`)

| here | there |
| --- | --- |
| `DynamicTable` | `DynamicTable` (`dynamic_table.rs:6-24`); `entries` newest first |
| `DynamicTable.insert`, `evictLoop` | `insert` (`:57-75`) and its eviction loop |
| `DynamicTable.resize`, `resizeLoop` | `resize` (`:77-93`) |
| `DynamicTable.entrySize` | `entry_size` (`:97-99`), RFC 7541 4.1 |
| `lookupHeaderByIndex` | `lookup_header_by_index` (`indexing_tables.rs:10-29`) |
| `searchForHeader`, `searchStatic`, `searchDynamic` | `search_for_header` (`:43-98`) and its two loops |

The eviction loops pop the oldest entry (`pop_back`); here they walk the entries oldest first.
A panic in `resize` is an error with the panic's text. Sizes are `Nat`: only `current_size`
accumulates, and it would take `2 ^ 64` bytes of inserted headers to overflow it.

`insert` does not reset `current_size` when it clears the table for an entry larger than
`max_size`. `current_size` then stays above the true size, which is why `Inv` only bounds the
entries' size by it, and a later `resize` below it panics (`oversized_insert_keeps_current_size`). `Inv` is what every insert and resize keeps (`insert_inv`, `resize_inv`):
the entries fit both `current_size` and `max_size`. So every index in use fits a `usize`
(`length_le`). `searchForHeader` is sound: the index it returns names an entry with the query's
name, and with its value when it says so (`searchForHeader_sound`).
-/

namespace Dacha.Hpack

structure DynamicTable where
  maxSize : Nat
  currentSize : Nat
  entries : List HeaderField
  deriving DecidableEq, Repr

namespace DynamicTable

def new (maxSize : Nat) : DynamicTable := ⟨maxSize, 0, []⟩

def index (t : DynamicTable) (idx : Nat) : Option HeaderField := t.entries[idx]?

def entrySize (headerField : HeaderField) : Nat :=
  headerField.name.length + headerField.value.length + 32

/-- The size the entries take. -/
def size (entries : List HeaderField) : Nat := (entries.map entrySize).sum

/-- The eviction loop of `insert` over the entries oldest first: the oldest goes while the new
entry does not fit, and an empty table ends the loop. -/
def evictLoop (newEntrySize maxSize : Nat) : Nat → List HeaderField → Nat × List HeaderField
  | currentSize, [] => (currentSize, [])
  | currentSize, oldest :: rest =>
    if currentSize + newEntrySize > maxSize then
      evictLoop newEntrySize maxSize (currentSize - entrySize oldest) rest
    else (currentSize, oldest :: rest)

def insert (t : DynamicTable) (headerField : HeaderField) : DynamicTable :=
  let newEntrySize := entrySize headerField
  if newEntrySize > t.maxSize then { t with entries := [] }
  else
    let evicted := evictLoop newEntrySize t.maxSize t.currentSize t.entries.reverse
    { t with currentSize := evicted.1 + newEntrySize, entries := headerField :: evicted.2.reverse }

/-- The loop of `resize` over the entries oldest first; running out of them is the panic. -/
def resizeLoop (newSize : Nat) : Nat → List HeaderField → Except String (Nat × List HeaderField)
  | currentSize, [] =>
    if currentSize > newSize then .error "Hit end of headers before current_size = 0"
    else .ok (currentSize, [])
  | currentSize, oldest :: rest =>
    if currentSize > newSize then resizeLoop newSize (currentSize - entrySize oldest) rest
    else .ok (currentSize, oldest :: rest)

def resize (t : DynamicTable) (newSize : Nat) : Except String DynamicTable := do
  let (currentSize, kept) ← resizeLoop newSize t.currentSize t.entries.reverse
  pure { t with maxSize := newSize, currentSize := currentSize, entries := kept.reverse }

/-! ## The size invariant -/

/-- The entries fit both the size the table counts and its maximum. -/
structure Inv (t : DynamicTable) : Prop where
  le_current : size t.entries ≤ t.currentSize
  le_max : size t.entries ≤ t.maxSize

@[simp] theorem size_nil : size [] = 0 := rfl

@[simp] theorem size_cons (e : HeaderField) (es : List HeaderField) :
    size (e :: es) = entrySize e + size es := by simp [size]

@[simp] theorem size_append (xs ys : List HeaderField) : size (xs ++ ys) = size xs + size ys := by
  simp [size]

@[simp] theorem size_reverse (es : List HeaderField) : size es.reverse = size es := by
  simp [size, List.sum_reverse]

theorem new_inv (maxSize : Nat) : Inv (new maxSize) := ⟨le_rfl, Nat.zero_le _⟩

/-- Eviction drops a run of the oldest entries and counts them off; it stops once the new entry
fits or nothing is left. -/
theorem evictLoop_spec (newEntrySize maxSize : Nat) :
    ∀ (currentSize : Nat) (oldestFirst : List HeaderField), size oldestFirst ≤ currentSize →
      let r := evictLoop newEntrySize maxSize currentSize oldestFirst
      size r.2 ≤ r.1 ∧ (r.2 = [] ∨ r.1 + newEntrySize ≤ maxSize) ∧ ∃ dropped, oldestFirst = dropped ++ r.2
  | currentSize, [], _ => ⟨Nat.zero_le _, .inl rfl, [], rfl⟩
  | currentSize, oldest :: rest, h => by
    simp only [size_cons] at h
    by_cases hfit : currentSize + newEntrySize > maxSize
    · obtain ⟨hle, hend, dropped, hd⟩ :=
        evictLoop_spec newEntrySize maxSize (currentSize - entrySize oldest) rest (by omega)
      simp only [evictLoop, if_pos hfit]
      exact ⟨hle, hend, oldest :: dropped, by rw [List.cons_append, ← hd]⟩
    · simp only [evictLoop, if_neg hfit]
      exact ⟨by simpa using h, .inr (by omega), [], rfl⟩

@[simp] theorem insert_maxSize (t : DynamicTable) (headerField : HeaderField) :
    (t.insert headerField).maxSize = t.maxSize := by
  by_cases hbig : entrySize headerField > t.maxSize <;> simp [insert, hbig]

theorem insert_inv {t : DynamicTable} (h : Inv t) (headerField : HeaderField) :
    Inv (t.insert headerField) := by
  by_cases hbig : entrySize headerField > t.maxSize
  · -- the table is cleared; its counted size stays as it was
    simp only [insert, if_pos hbig]
    exact ⟨Nat.zero_le _, Nat.zero_le _⟩
  · simp only [insert, if_neg hbig]
    obtain ⟨hle, hend, -⟩ := evictLoop_spec (entrySize headerField) t.maxSize
      t.currentSize t.entries.reverse (by simpa using h.le_current)
    refine ⟨by simp; omega, ?_⟩
    simp only [size_cons, size_reverse]
    rcases hend with hnil | hroom
    · rw [hnil]; simp; omega
    · omega

/-- The resize loop drops a run of the oldest entries and counts them off, and ends within the
new size. -/
theorem resizeLoop_spec (newSize : Nat) :
    ∀ {currentSize : Nat} {oldestFirst : List HeaderField} {r : Nat × List HeaderField},
      size oldestFirst ≤ currentSize → resizeLoop newSize currentSize oldestFirst = .ok r →
      size r.2 ≤ r.1 ∧ r.1 ≤ newSize ∧ ∃ dropped, oldestFirst = dropped ++ r.2
  | currentSize, [], r, _, hr => by
    simp only [resizeLoop] at hr
    split at hr
    · cases hr
    · cases hr; exact ⟨by simp, by omega, [], rfl⟩
  | currentSize, oldest :: rest, r, h, hr => by
    simp only [size_cons] at h
    simp only [resizeLoop] at hr
    split at hr
    · obtain ⟨hle, hnew, dropped, hd⟩ := resizeLoop_spec newSize (by omega) hr
      exact ⟨hle, hnew, oldest :: dropped, by rw [List.cons_append, ← hd]⟩
    · cases hr; exact ⟨by simpa using h, by omega, [], rfl⟩

theorem resize_inv {t t' : DynamicTable} (h : Inv t) {newSize : Nat}
    (hr : t.resize newSize = .ok t') : Inv t' ∧ t'.maxSize = newSize := by
  unfold resize at hr
  cases hloop : resizeLoop newSize t.currentSize t.entries.reverse with
  | error e => simp [hloop, bind, Except.bind] at hr
  | ok r =>
    simp only [hloop, bind, Except.bind, pure, Except.pure, Except.ok.injEq] at hr
    subst hr
    obtain ⟨hle, hnew, -⟩ := resizeLoop_spec newSize (by simpa using h.le_current) hloop
    exact ⟨⟨by simpa using hle, by simp; omega⟩, rfl⟩

/-- An entry larger than the table empties it and leaves `current_size` as it was: a table of
size 100 holding one 34-byte entry then counts 34 bytes with no entry left, and shrinking it to
nothing runs out of entries to evict. -/
theorem oversized_insert_keeps_current_size :
    (((new 100).insert ⟨[1], [2]⟩).insert ⟨List.replicate 100 0, []⟩).entries = [] ∧
      (((new 100).insert ⟨[1], [2]⟩).insert ⟨List.replicate 100 0, []⟩).currentSize = 34 ∧
      (((new 100).insert ⟨[1], [2]⟩).insert ⟨List.replicate 100 0, []⟩).resize 0 =
        .error "Hit end of headers before current_size = 0" := by
  decide

/-- Every entry takes at least 32 bytes, so the table holds at most `max_size / 32` of them. -/
theorem length_le {t : DynamicTable} (h : Inv t) : 32 * t.entries.length ≤ t.maxSize := by
  have hsize : ∀ es : List HeaderField, 32 * es.length ≤ size es := by
    intro es
    induction es with
    | nil => simp
    | cons e es ih => simp [entrySize] at ih ⊢; omega
  exact (hsize t.entries).trans h.le_max

end DynamicTable

/-! ## The index space -/

/-- `lookup_header_by_index`: 1-based, the static table first. -/
def lookupHeaderByIndex (idx : Nat) (t : DynamicTable) : Option HeaderField :=
  if idx = 0 then none
  else match STATIC_TABLE[idx - 1]? with
    | some header => some header
    | none => t.index (idx - 1 - STATIC_TABLE.length)

structure TableSearchResult where
  index : Nat
  valueMatches : Bool
  deriving DecidableEq, Repr

/-- The static-table loop of `search_for_header` from entry `i`: `.inl r` when the loop returns
`r`, `.inr firstNameMatch` when it ends. Entries with one name are adjacent, so the loop stops
after the first run of them. -/
def searchStatic (query : HeaderField) : List HeaderField → Nat → Option Nat →
    TableSearchResult ⊕ Option Nat
  | [], _, firstNameMatch => .inr firstNameMatch
  | header :: rest, i, firstNameMatch =>
    if header.name ≠ query.name then
      if firstNameMatch.isSome then .inr firstNameMatch
      else searchStatic query rest (i + 1) firstNameMatch
    else if header.value = query.value then .inl ⟨i + 1, true⟩
    else searchStatic query rest (i + 1) (if firstNameMatch.isNone then some (i + 1) else firstNameMatch)

/-- The dynamic-table loop of `search_for_header` from entry `i`. -/
def searchDynamic (query : HeaderField) : List HeaderField → Nat → Option Nat →
    TableSearchResult ⊕ Option Nat
  | [], _, firstNameMatch => .inr firstNameMatch
  | header :: rest, i, firstNameMatch =>
    if header.name ≠ query.name then searchDynamic query rest (i + 1) firstNameMatch
    else
      let index := STATIC_TABLE.length + 1 + i
      if header.value = query.value then .inl ⟨index, true⟩
      else searchDynamic query rest (i + 1) (if firstNameMatch.isNone then some index else firstNameMatch)

def searchForHeader (query : HeaderField) (t : DynamicTable) : Option TableSearchResult :=
  match searchStatic query STATIC_TABLE 0 none with
  | .inl result => some result
  | .inr firstNameMatch =>
    match searchDynamic query t.entries 0 firstNameMatch with
    | .inl result => some result
    | .inr (some index) => some ⟨index, false⟩
    | .inr none => none

section Search

variable (query : HeaderField) (t : DynamicTable)

/-- Index `j` is in use and names an entry with the query's name. -/
def NamesAt (j : Nat) : Prop :=
  0 < j ∧ j ≤ STATIC_TABLE.length + t.entries.length ∧
    ∃ e, lookupHeaderByIndex j t = some e ∧ e.name = query.name

theorem lookupHeaderByIndex_static {k : Nat} (hk : k < STATIC_TABLE.length) :
    lookupHeaderByIndex (k + 1) t = STATIC_TABLE[k]? := by
  simp [lookupHeaderByIndex, List.getElem?_eq_getElem hk]

theorem lookupHeaderByIndex_dynamic (k : Nat) :
    lookupHeaderByIndex (STATIC_TABLE.length + 1 + k) t = t.entries[k]? := by
  simp [lookupHeaderByIndex, DynamicTable.index, Nat.add_right_comm]

/-- The loops walk a table from entry `i` on: the entry they look at is the table's `i`-th. -/
theorem getElem?_of_cons_eq_drop {α : Type} {l rest : List α} {i : Nat} {a : α}
    (h : a :: rest = l.drop i) : l[i]? = some a ∧ rest = l.drop (i + 1) := by
  constructor
  · have := congrArg List.head? h
    simpa [List.head?_drop] using this.symm
  · have := congrArg List.tail h
    simpa [List.tail_drop] using this

theorem headerField_eq {a b : HeaderField} (hname : a.name = b.name) (hvalue : a.value = b.value) :
    a = b := by
  cases a; cases b; simp_all

/-- Every name match a loop carries is sound. -/
def FirstSound (first : Option Nat) : Prop := ∀ j, first = some j → NamesAt query t j

/-- What a loop's outcome says: a result it returns matches in full, and the name match it hands
on is sound. -/
def LoopSound : TableSearchResult ⊕ Option Nat → Prop
  | .inl r => NamesAt query t r.index ∧ r.valueMatches = true ∧ lookupHeaderByIndex r.index t = some query
  | .inr first => FirstSound query t first

/-- The name match a loop carries after an entry with the query's name. -/
theorem firstSound_update {first : Option Nat} (hfirst : FirstSound query t first) {index : Nat}
    (hindex : NamesAt query t index) :
    FirstSound query t (if first.isNone then some index else first) := by
  intro j hj
  split at hj
  · cases hj; exact hindex
  · exact hfirst j hj

theorem searchStatic_sound :
    ∀ (l : List HeaderField) (i : Nat) (first : Option Nat), l = STATIC_TABLE.drop i →
      FirstSound query t first → LoopSound query t (searchStatic query l i first)
  | [], _, _, _, hfirst => hfirst
  | header :: rest, i, first, hl, hfirst => by
    obtain ⟨hhead, hrest⟩ := getElem?_of_cons_eq_drop hl
    have hi : i < STATIC_TABLE.length := (List.getElem?_eq_some_iff.mp hhead).1
    have hlook : lookupHeaderByIndex (i + 1) t = some header := by
      rw [lookupHeaderByIndex_static t hi, hhead]
    by_cases hname : header.name = query.name
    · have hnames : NamesAt query t (i + 1) := ⟨by omega, by omega, header, hlook, hname⟩
      by_cases hvalue : header.value = query.value
      · simp only [searchStatic, ne_eq, hname, hvalue, not_true_eq_false, if_false, if_true]
        exact ⟨hnames, rfl, by rw [hlook, headerField_eq hname hvalue]⟩
      · simp only [searchStatic, ne_eq, hname, hvalue, not_true_eq_false, if_false]
        exact searchStatic_sound rest (i + 1) _ hrest (firstSound_update query t hfirst hnames)
    · simp only [searchStatic, ne_eq, hname, not_false_eq_true, if_true]
      split
      · exact hfirst
      · exact searchStatic_sound rest (i + 1) first hrest hfirst

theorem searchDynamic_sound :
    ∀ (l : List HeaderField) (i : Nat) (first : Option Nat), l = t.entries.drop i →
      FirstSound query t first → LoopSound query t (searchDynamic query l i first)
  | [], _, _, _, hfirst => hfirst
  | header :: rest, i, first, hl, hfirst => by
    obtain ⟨hhead, hrest⟩ := getElem?_of_cons_eq_drop hl
    have hi : i < t.entries.length := (List.getElem?_eq_some_iff.mp hhead).1
    have hlook : lookupHeaderByIndex (STATIC_TABLE.length + 1 + i) t = some header := by
      rw [lookupHeaderByIndex_dynamic, hhead]
    by_cases hname : header.name = query.name
    · have hnames : NamesAt query t (STATIC_TABLE.length + 1 + i) :=
        ⟨by omega, by omega, header, hlook, hname⟩
      by_cases hvalue : header.value = query.value
      · simp only [searchDynamic, ne_eq, hname, hvalue, not_true_eq_false, if_false, if_true]
        exact ⟨hnames, rfl, by rw [hlook, headerField_eq hname hvalue]⟩
      · simp only [searchDynamic, ne_eq, hname, hvalue, not_true_eq_false, if_false]
        exact searchDynamic_sound rest (i + 1) _ hrest (firstSound_update query t hfirst hnames)
    · simp only [searchDynamic, ne_eq, hname, not_false_eq_true, if_true]
      exact searchDynamic_sound rest (i + 1) first hrest hfirst

/-- What `search_for_header` finds is there: an index in use whose entry has the query's name, and
is the query itself when the value matches too. -/
theorem searchForHeader_sound {r : TableSearchResult} (h : searchForHeader query t = some r) :
    NamesAt query t r.index ∧ (r.valueMatches = true → lookupHeaderByIndex r.index t = some query) := by
  have hstatic := searchStatic_sound query t STATIC_TABLE 0 none rfl (fun _ h => by cases h)
  unfold searchForHeader at h
  split at h
  · next result hres =>
    rw [hres] at hstatic
    obtain ⟨hnames, -, hlook⟩ := hstatic
    cases h
    exact ⟨hnames, fun _ => hlook⟩
  · next first hres =>
    rw [hres] at hstatic
    have hdyn := searchDynamic_sound query t t.entries 0 first rfl hstatic
    split at h
    · next result hres' =>
      rw [hres'] at hdyn
      obtain ⟨hnames, -, hlook⟩ := hdyn
      cases h
      exact ⟨hnames, fun _ => hlook⟩
    · next index hres' =>
      rw [hres'] at hdyn
      cases h
      exact ⟨hdyn index rfl, fun h => by cases h⟩
    · cases h

end Search

end Dacha.Hpack
