import Dacha.Common.Algorithms

/-!
# The vector memtable and its iterator (`memtable/vec.rs`)

`VecMemTable` keeps its entries in a vector sorted by the table's comparator; `insert` puts a new
entry before the first entry not below its key (`lower_bound_by`). The iterator does not hold the
vector: it remembers the key it returned last, the index it found it at and the vector's length
then. Entries are only ever inserted, so when `k` was returned at index `i` and `n` entries were
inserted since, `k` now lies in `[i, i + n]`; `next` searches the window `data[i .. i + n]` for it
(finding nothing when `k` is at `i + n`) and returns the entry after it. Right after `seek(k)` the
window is the whole vector and `next` returns the first entry not below `k`.

| here | there |
| --- | --- |
| `VecMemTable.insert` | `VecMemTable::insert` (`vec.rs:45-61`) |
| `VecMemTableIterator`, `VecMemTable.iter` | `VecMemTableIterator`, `VecMemTable::iter` (`:63-101`) |
| `VecMemTableIterator.next`, `nextIndex` | `next` (`:103-162`) and its `next_index` block |
| `VecMemTableIterator.seek` | `seek` (`:164-171`) |

The table is its data vector and the comparator a parameter; keys are of any type. One table and
one iterator over it make a run (`VecMemTable.run`): inserts, `next` and `seek` in any
interleaving, as the test `vec_memtable_iterate_while_inserting` does. Rust's panics (an `usize`
subtraction that overflows, a slice past the vector's end) are errors.

What the iterator is for is `SpecRun`: each `next` returns the entry of least key among those
its cursor admits (all entries at the first call, the entries above the key returned last, or
right after `seek(k)` the entries not below `k`), and `None` when it admits none. The simulation
relation `Inv` ties the vector and the iterator to the entries inserted so far and the cursor:
the vector is sorted, holds the entries, and the key returned last lies in the window `next`
searches. Every insert of a new key, every `next` and every `seek` keeps it, so a run whose
inserted keys are distinct never fails and returns what `SpecRun` allows.
-/

namespace Dacha.SSTable

open Dacha.Common

/-- `KeyValueEntry` with keys of any type. -/
structure VecEntry (κ : Type) where
  key : κ
  value : List UInt8
  deriving DecidableEq, Repr

structure VecMemTableIterator (κ : Type) where
  /-- The vector's length when the iterator last moved. -/
  tableLen : Nat
  /-- Where the entry returned last was found. -/
  lastIndex : Nat
  /-- The key returned last, or the key sought while `seeking`; `none` before the first call. -/
  lastKey : Option κ
  seeking : Bool
  deriving DecidableEq, Repr

inductive VecEvent (κ : Type)
  | insert (key : κ) (value : List UInt8)
  | next
  | seek (key : κ)
  deriving DecidableEq, Repr

/-- The keys a run inserts, in order. -/
def VecEvent.insertedKeys {κ : Type} : List (VecEvent κ) → List κ
  | [] => []
  | .insert key _ :: events => key :: insertedKeys events
  | _ :: events => insertedKeys events

section Model

variable {κ : Type} (cmp : κ → κ → Ordering)

/-- `VecMemTable::insert`: the entry goes before the first entry not below its key. -/
def VecMemTable.insert (data : List (VecEntry κ)) (key : κ) (value : List UInt8) :
    List (VecEntry κ) :=
  let index := (lowerBoundBy data key fun entry key => (cmp entry.key key).isGE).getD data.length
  data.insertIdx index ⟨key, value⟩

def VecMemTable.iter : VecMemTableIterator κ := ⟨0, 0, none, false⟩

namespace VecMemTableIterator

/-- The `next_index` block of `next`: right after the entry returned last when nothing was
inserted since, otherwise a search of the window of the inserted entries for the key. -/
def nextIndex (it : VecMemTableIterator κ) (data : List (VecEntry κ)) (lastKey : κ) :
    Except String Nat :=
  if it.tableLen = data.length ∧ !it.seeking then .ok (it.lastIndex + 1)
  else if data.length < it.tableLen then .error "attempt to subtract with overflow"
  else
    let lowerI := it.lastIndex
    let upperI := lowerI + (data.length - it.tableLen)
    -- `&data[lower_i..upper_i]`, where `lower_i <= upper_i` always
    if upperI > data.length then
      .error s!"range end index {upperI} out of range for slice of length {data.length}"
    else
      let i := (lowerBoundBy ((data.take upperI).drop lowerI) lastKey
        fun entry key => (cmp entry.key key).isGE).getD (upperI - lowerI) + lowerI
      .ok (if !it.seeking then i + 1 else i)

/-- `next` on the table's vector as it is at the call. -/
def next (it : VecMemTableIterator κ) (data : List (VecEntry κ)) :
    Except String (Option (VecEntry κ) × VecMemTableIterator κ) :=
  match data, it.lastKey with
  | [], _ => .ok (none, it)
  | first :: _, none => .ok (some first, { it with lastKey := some first.key, lastIndex := 0 })
  | _ :: _, some lastKey => do
    let nextIndex ← it.nextIndex cmp data lastKey
    match data[nextIndex]? with
    | none => pure (none, it)
    | some e => pure (some e, ⟨data.length, nextIndex, some e.key, false⟩)

/-- `seek`: the next call looks for the first entry not below `key`. -/
def seek (key : κ) : VecMemTableIterator κ := ⟨0, 0, some key, true⟩

end VecMemTableIterator

namespace VecMemTable

/-- A run of one table and one iterator over it: what each `next` returned, in order. -/
def run (data : List (VecEntry κ)) (it : VecMemTableIterator κ) :
    List (VecEvent κ) → Except String (List (Option (VecEntry κ)))
  | [] => .ok []
  | .insert key value :: events => run (insert cmp data key value) it events
  | .next :: events => do
    let (r, it) ← it.next cmp data
    let rs ← run data it events
    pure (r :: rs)
  | .seek key :: events => run data (VecMemTableIterator.seek key) events

/-- `vec_memtable_iterate_while_inserting`. -/
def iterateWhileInserting : List (VecEvent (List UInt8)) :=
  [.insert [0, 10] [1], .insert [0, 20] [2], .insert [0, 30] [3], .insert [0, 40] [4], .next,
    .insert [0, 15] [5], .next, .next, .next, .insert [1, 0] [6], .next, .next, .next]

example : run compare [] iter iterateWhileInserting =
    .ok [some ⟨[0, 10], [1]⟩, some ⟨[0, 15], [5]⟩, some ⟨[0, 20], [2]⟩, some ⟨[0, 30], [3]⟩,
      some ⟨[0, 40], [4]⟩, some ⟨[1, 0], [6]⟩, none] := by
  decide

/-! ## What the iterator is for -/

/-- Where the iterator stands, as its user sees it. -/
inductive Cursor (κ : Type)
  | start
  | after (key : κ)
  | atLeast (key : κ)

/-- The keys the next call may return. -/
def Cursor.admits : Cursor κ → κ → Bool
  | .start, _ => true
  | .after k, key => cmp key k == .gt
  | .atLeast k, key => (cmp key k).isGE

/-- Where the cursor stands after a call of `next` that returned `r`. -/
def Cursor.advance (c : Cursor κ) : Option (VecEntry κ) → Cursor κ
  | some e => .after e.key
  | none => c

/-- What `next` should return: the entry of least key among those the cursor admits, or `None`
when it admits none. -/
def NextSpec (entries : List (VecEntry κ)) (c : Cursor κ) : Option (VecEntry κ) → Prop
  | some e => e ∈ entries ∧ c.admits cmp e.key = true ∧
      ∀ e' ∈ entries, c.admits cmp e'.key = true → cmp e.key e'.key ≠ .gt
  | none => ∀ e ∈ entries, c.admits cmp e.key = false

/-- The runs the specification allows: the entries inserted so far, the cursor, the events and
what each `next` returned. -/
inductive SpecRun : List (VecEntry κ) → Cursor κ → List (VecEvent κ) →
    List (Option (VecEntry κ)) → Prop
  | nil {entries c} : SpecRun entries c [] []
  | insert {entries c key value events rs} :
    SpecRun (entries ++ [⟨key, value⟩]) c events rs →
      SpecRun entries c (.insert key value :: events) rs
  | next {entries c r events rs} : NextSpec cmp entries c r →
    SpecRun entries (c.advance r) events rs → SpecRun entries c (.next :: events) (r :: rs)
  | seek {entries c key events rs} :
    SpecRun entries (.atLeast key) events rs → SpecRun entries c (.seek key :: events) rs

end VecMemTable

end Model

namespace VecMemTable

section Simulation

variable {κ : Type} (cmp : κ → κ → Ordering)

/-- The vector's keys strictly increase. -/
def Sorted (data : List (VecEntry κ)) : Prop :=
  data.Pairwise fun a b => cmp a.key b.key = .lt

/-- The number of entries the cursor does not admit: on a sorted vector, the index of the first
entry it admits. `skipped cmp (.atLeast k)` counts the entries below `k`, which is where `insert`
puts `k` and where the search of `next` for `k` lands. -/
def skipped (c : Cursor κ) (data : List (VecEntry κ)) : Nat :=
  data.countP fun e => !c.admits cmp e.key

/-- The iterator returned `k` last, and `k` is in the vector. `k` has moved right by at most the
number of entries inserted since, so it is in the window `next` searches. -/
structure AfterInv (data : List (VecEntry κ)) (it : VecMemTableIterator κ) (k : κ) : Prop where
  lastKey : it.lastKey = some k
  seeking : it.seeking = false
  mem : ∃ e ∈ data, e.key = k
  lastIndex_le : it.lastIndex ≤ it.tableLen
  tableLen_le : it.tableLen ≤ data.length
  lastIndex_le_skipped : it.lastIndex ≤ skipped cmp (.atLeast k) data
  skipped_le : skipped cmp (.atLeast k) data ≤ it.lastIndex + (data.length - it.tableLen)

/-- The iterator as the cursor says. -/
def IterInv (data : List (VecEntry κ)) (it : VecMemTableIterator κ) : Cursor κ → Prop
  | .start => it = iter
  | .atLeast k => it = VecMemTableIterator.seek k
  | .after k => AfterInv cmp data it k

/-- The simulation relation: the vector is sorted and holds the entries inserted so far, and the
iterator stands where the cursor does. -/
structure Inv (data entries : List (VecEntry κ)) (it : VecMemTableIterator κ) (c : Cursor κ) :
    Prop where
  perm : data.Perm entries
  sorted : Sorted cmp data
  iter : IterInv cmp data it c

/-! ### The order -/

theorem lt_of_not_isGE {a b : κ} (h : (!(cmp a b).isGE) = true) : cmp a b = .lt := by
  cases hc : cmp a b <;> simp_all

/-- A sorted vector split at an entry: the entries before it are below it, those after it above. -/
theorem Sorted.split {data : List (VecEntry κ)} (h : Sorted cmp data) {n : Nat} {e : VecEntry κ}
    {rest : List (VecEntry κ)} (hd : data.drop n = e :: rest) :
    (∀ a ∈ data.take n, cmp a.key e.key = .lt) ∧ ∀ b ∈ rest, cmp e.key b.key = .lt := by
  have hs : Sorted cmp (data.take n ++ e :: rest) := by
    rw [← hd, List.take_append_drop]
    exact h
  obtain ⟨-, hcons, hcross⟩ := List.pairwise_append.mp hs
  exact ⟨fun a ha => hcross a ha e List.mem_cons_self, (List.pairwise_cons.mp hcons).1⟩

theorem next_of_nextIndex {data : List (VecEntry κ)} {it : VecMemTableIterator κ} {k : κ}
    {n : Nat} (hdata : data ≠ []) (hk : it.lastKey = some k)
    (hn : it.nextIndex cmp data k = .ok n) :
    it.next cmp data = .ok (match data[n]? with
      | none => (none, it)
      | some e => (some e, ⟨data.length, n, some e.key, false⟩)) := by
  obtain ⟨a, as, rfl⟩ := List.exists_cons_of_ne_nil hdata
  simp only [VecMemTableIterator.next, hk, hn, bind, Except.bind]
  cases (a :: as)[n]? <;> rfl

variable [Std.TransCmp cmp]

theorem cmp_self (a : κ) : cmp a a = .eq := Std.ReflCmp.compare_self

theorem lt_of_isGE_of_ne {a b : κ} (hge : (cmp b a).isGE = true) (hne : cmp a b ≠ .eq) :
    cmp a b = .lt := by
  rw [@Std.OrientedCmp.eq_swap _ cmp _ a b]
  cases hc : cmp b a
  · rw [hc] at hge
    cases hge
  · exact absurd (Std.OrientedCmp.eq_comm.mpr hc) hne
  · rfl

theorem Cursor.admits_of_lt {c : Cursor κ} {a b : κ} (ha : c.admits cmp a = true)
    (hab : cmp a b = .lt) : c.admits cmp b = true := by
  have hba : cmp b a = .gt := Std.OrientedCmp.gt_iff_lt.mpr hab
  cases c with
  | start => rfl
  | after k =>
    simp only [Cursor.admits, beq_iff_eq] at ha ⊢
    exact Std.TransCmp.gt_trans hba ha
  | atLeast k =>
    simp only [Cursor.admits] at ha ⊢
    exact Std.TransCmp.isGE_trans (by rw [hba]; rfl) ha

theorem Sorted.prefixClosed {data : List (VecEntry κ)} (h : Sorted cmp data) (c : Cursor κ) :
    PrefixClosed (fun e => !c.admits cmp e.key) data :=
  List.Pairwise.imp (fun hab hb => by
    simp only [Bool.not_eq_true'] at hb ⊢
    cases ha : c.admits cmp _
    · rfl
    · rw [Cursor.admits_of_lt cmp ha hab] at hb
      cases hb) h

theorem drop_skipped {data : List (VecEntry κ)} (h : Sorted cmp data) (c : Cursor κ) :
    data.drop (skipped cmp c data) = data.dropWhile fun e => !c.admits cmp e.key := by
  rw [skipped, (h.prefixClosed cmp c).countP_eq_length_takeWhile, drop_takeWhile_length]

theorem skipped_atLeast_of_drop {data : List (VecEntry κ)} (h : Sorted cmp data) {n : Nat}
    {e : VecEntry κ} {rest : List (VecEntry κ)} (hd : data.drop n = e :: rest) :
    skipped cmp (.atLeast e.key) data = n := by
  obtain ⟨hbefore, hafter⟩ := h.split cmp hd
  have hn : n < data.length := by
    by_contra hn
    rw [List.drop_eq_nil_of_le (by omega)] at hd
    cases hd
  have hbelow : ∀ a ∈ data.take n, (!(Cursor.atLeast e.key).admits cmp a.key) = true := by
    intro a ha
    simp [Cursor.admits, hbefore a ha]
  have habove : ∀ b ∈ e :: rest, ¬ (!(Cursor.atLeast e.key).admits cmp b.key) = true := by
    intro b hb
    rcases List.mem_cons.mp hb with rfl | hb
    · simp [Cursor.admits, cmp_self cmp]
    · simp [Cursor.admits, Std.OrientedCmp.gt_iff_lt.mpr (hafter b hb)]
  rw [skipped, ← List.take_append_drop n data, hd, List.countP_append,
    List.countP_eq_length.mpr hbelow, List.countP_eq_zero.mpr habove, List.length_take]
  omega

/-! ### `insert` -/

theorem insert_eq {data : List (VecEntry κ)} (h : Sorted cmp data) (key : κ) (value : List UInt8) :
    insert cmp data key value =
      data.take (skipped cmp (.atLeast key) data) ++ ⟨key, value⟩ ::
        data.drop (skipped cmp (.atLeast key) data) := by
  unfold insert
  dsimp only
  rw [lowerBoundBy_getD data key (fun entry key => (cmp entry.key key).isGE)
    (h.prefixClosed cmp (.atLeast key))]
  exact insertIdx_eq_take_drop _ data _ List.countP_le_length

theorem insert_perm {data : List (VecEntry κ)} (h : Sorted cmp data) (key : κ)
    (value : List UInt8) : (insert cmp data key value).Perm (data ++ [⟨key, value⟩]) := by
  rw [insert_eq cmp h]
  calc List.Perm _ (⟨key, value⟩ :: (data.take (skipped cmp (.atLeast key) data) ++
        data.drop (skipped cmp (.atLeast key) data))) := List.perm_middle
    _ = ⟨key, value⟩ :: data := by rw [List.take_append_drop]
    List.Perm _ (data ++ [⟨key, value⟩]) := (List.perm_append_singleton _ data).symm

/-- Inserting a key that no entry has keeps the vector sorted. -/
theorem Sorted.insert {data : List (VecEntry κ)} (h : Sorted cmp data) (key : κ)
    (value : List UInt8) (hfresh : ∀ e ∈ data, cmp key e.key ≠ .eq) :
    Sorted cmp (insert cmp data key value) := by
  rw [insert_eq cmp h]
  have hpc := h.prefixClosed cmp (.atLeast key)
  have hle : skipped cmp (.atLeast key) data ≤ data.length := List.countP_le_length
  have hq : data.countP (fun e => !(Cursor.atLeast key).admits cmp e.key) =
      skipped cmp (.atLeast key) data := rfl
  have hbefore : ∀ a ∈ data.take (skipped cmp (.atLeast key) data), cmp a.key key = .lt := by
    have hall : (data.take (skipped cmp (.atLeast key) data)).countP
        (fun e => !(Cursor.atLeast key).admits cmp e.key) =
        (data.take (skipped cmp (.atLeast key) data)).length := by
      rw [hpc.countP_take, List.length_take, hq]
      omega
    exact fun a ha => lt_of_not_isGE cmp (List.countP_eq_length.mp hall a ha)
  have hafter : ∀ b ∈ data.drop (skipped cmp (.atLeast key) data), cmp key b.key = .lt := by
    have hnone : (data.drop (skipped cmp (.atLeast key) data)).countP
        (fun e => !(Cursor.atLeast key).admits cmp e.key) = 0 := by
      rw [hpc.countP_drop, hq, Nat.sub_self]
    intro b hb
    have hge := List.countP_eq_zero.mp hnone b hb
    simp only [Cursor.admits, Bool.not_eq_true', Bool.not_eq_false] at hge
    exact lt_of_isGE_of_ne cmp hge (hfresh b (List.mem_of_mem_drop hb))
  have hsplit : Sorted cmp (data.take (skipped cmp (.atLeast key) data) ++
      data.drop (skipped cmp (.atLeast key) data)) := by
    rw [List.take_append_drop]
    exact h
  obtain ⟨hT, hD, hTD⟩ := List.pairwise_append.mp hsplit
  refine List.pairwise_append.mpr ⟨hT, List.pairwise_cons.mpr ⟨hafter, hD⟩, ?_⟩
  intro a ha b hb
  rcases List.mem_cons.mp hb with rfl | hb
  · exact hbefore a ha
  · exact hTD a ha b hb

theorem skipped_insert {data : List (VecEntry κ)} (h : Sorted cmp data) (c : Cursor κ) (key : κ)
    (value : List UInt8) :
    skipped cmp c data ≤ skipped cmp c (insert cmp data key value) ∧
      skipped cmp c (insert cmp data key value) ≤ skipped cmp c data + 1 := by
  have hcount := (insert_perm cmp h key value).countP_eq fun e => !c.admits cmp e.key
  rw [List.countP_append] at hcount
  have hone : List.countP (fun e => !c.admits cmp e.key) [(⟨key, value⟩ : VecEntry κ)] ≤ 1 :=
    List.countP_le_length
  unfold skipped
  omega

/-- The step lemma of `insert`: a new key keeps the simulation relation. -/
theorem Inv.insert {data entries : List (VecEntry κ)} {it : VecMemTableIterator κ}
    {c : Cursor κ} (h : Inv cmp data entries it c) (key : κ) (value : List UInt8)
    (hfresh : ∀ e ∈ entries, cmp key e.key ≠ .eq) :
    Inv cmp (VecMemTable.insert cmp data key value) (entries ++ [⟨key, value⟩]) it c := by
  have hperm := insert_perm cmp h.sorted key value
  refine ⟨hperm.trans (h.perm.append_right _),
    h.sorted.insert cmp key value fun e he => hfresh e (h.perm.subset he), ?_⟩
  have hlen : (VecMemTable.insert cmp data key value).length = data.length + 1 := by
    rw [hperm.length_eq, List.length_append, List.length_singleton]
  cases c with
  | start => exact h.iter
  | atLeast k => exact h.iter
  | after k =>
    have ha : AfterInv cmp data it k := h.iter
    obtain ⟨hlo, hhi⟩ := skipped_insert cmp h.sorted (.atLeast k) key value
    obtain ⟨e, he, hek⟩ := ha.mem
    have hle := ha.tableLen_le
    have hlast := ha.lastIndex_le_skipped
    have hwin := ha.skipped_le
    exact ⟨ha.lastKey, ha.seeking, ⟨e, hperm.symm.subset (List.mem_append_left _ he), hek⟩,
      ha.lastIndex_le, by omega, by omega, by omega⟩

/-! ### `next` -/

/-- On a sorted vector the entry at the first admitted index is what `next` should return. -/
theorem nextSpec_head? {data entries : List (VecEntry κ)} (h : Sorted cmp data)
    (hp : data.Perm entries) (c : Cursor κ) :
    NextSpec cmp entries c (data.dropWhile fun e => !c.admits cmp e.key).head? := by
  have hpc := h.prefixClosed cmp c
  have hsplit : data.takeWhile (fun e => !c.admits cmp e.key) ++
      data.dropWhile (fun e => !c.admits cmp e.key) = data := List.takeWhile_append_dropWhile
  cases hd : data.dropWhile fun e => !c.admits cmp e.key with
  | nil =>
    intro e he
    have he' := hp.symm.subset he
    rw [← hsplit, hd, List.append_nil] at he'
    simpa using List.mem_takeWhile_imp he'
  | cons e rest =>
    have hsuffix : Sorted cmp (e :: rest) := by
      rw [← hd]
      exact List.Pairwise.sublist (List.dropWhile_suffix _).sublist h
    have he : e ∈ data := (List.dropWhile_suffix _).subset (by rw [hd]; exact List.mem_cons_self)
    have hadm : c.admits cmp e.key = true := by
      simpa using hpc.dropWhile_false e (by rw [hd]; exact List.mem_cons_self)
    refine ⟨hp.subset he, hadm, fun e' he' hadm' => ?_⟩
    have hin : e' ∈ e :: rest := by
      rw [← hd]
      exact mem_dropWhile_of_mem (hp.symm.subset he') (by simp [hadm'])
    rcases List.mem_cons.mp hin with hr | hr
    · rw [hr, cmp_self cmp]
      decide
    · rw [(List.pairwise_cons.mp hsuffix).1 e' hr]
      decide

/-- With the key returned last in the vector, the entries the cursor skips after it are those
below it and itself. -/
theorem skipped_after {data : List (VecEntry κ)} (h : Sorted cmp data) {k : κ}
    (hmem : ∃ e ∈ data, e.key = k) :
    skipped cmp (.after k) data = skipped cmp (.atLeast k) data + 1 := by
  obtain ⟨ek, hek, rfl⟩ := hmem
  have hin : ek ∈ data.drop (skipped cmp (.atLeast ek.key) data) := by
    rw [drop_skipped cmp h]
    exact mem_dropWhile_of_mem hek (by simp [Cursor.admits, cmp_self cmp])
  obtain ⟨h0, rest, hd⟩ := List.exists_cons_of_ne_nil (List.ne_nil_of_mem hin)
  obtain ⟨hbefore, hafter⟩ := h.split cmp hd
  have h0eq : cmp h0.key ek.key = .eq := by
    have hge : (cmp h0.key ek.key).isGE = true := by
      have hfalse := (h.prefixClosed cmp (.atLeast ek.key)).dropWhile_false h0
        (by rw [← drop_skipped cmp h, hd]; exact List.mem_cons_self)
      simpa only [Cursor.admits, Bool.not_eq_eq_eq_not, Bool.not_false] using hfalse
    rw [hd] at hin
    rcases List.mem_cons.mp hin with he | he
    · rw [he, cmp_self cmp]
    · rw [hafter ek he] at hge
      cases hge
  have hle : skipped cmp (.atLeast ek.key) data ≤ data.length := List.countP_le_length
  have hsplit : data = data.take (skipped cmp (.atLeast ek.key) data) ++ h0 :: rest := by
    rw [← hd, List.take_append_drop]
  have hbelow : ∀ a ∈ data.take (skipped cmp (.atLeast ek.key) data),
      (!(Cursor.after ek.key).admits cmp a.key) = true := by
    intro a ha
    simp [Cursor.admits, Std.TransCmp.lt_of_lt_of_eq (hbefore a ha) h0eq]
  have habove : ∀ b ∈ rest, ¬ (!(Cursor.after ek.key).admits cmp b.key) = true := by
    intro b hb
    have hgt : cmp b.key ek.key = .gt :=
      Std.TransCmp.gt_of_gt_of_isGE (Std.OrientedCmp.gt_iff_lt.mpr (hafter b hb)) (by rw [h0eq]; rfl)
    simp [Cursor.admits, hgt]
  have hcount := congrArg (List.countP fun e => !(Cursor.after ek.key).admits cmp e.key) hsplit
  rw [List.countP_append, List.countP_eq_length.mpr hbelow,
    List.countP_cons_of_pos (by simp [Cursor.admits, h0eq]), List.countP_eq_zero.mpr habove,
    List.length_take] at hcount
  rw [skipped, hcount]
  omega

/-- Outside the fast path `next` searches the window `[last_index, last_index + inserted)`; when
the rank of the key lies in `[last_index, last_index + inserted]` nothing fails and the search
lands on the rank. -/
theorem nextIndex_search {data : List (VecEntry κ)} (h : Sorted cmp data)
    (it : VecMemTableIterator κ) (k : κ)
    (hslow : ¬ (it.tableLen = data.length ∧ (!it.seeking) = true))
    (hlen : it.tableLen ≤ data.length) (hlast : it.lastIndex ≤ it.tableLen)
    (hlo : it.lastIndex ≤ skipped cmp (.atLeast k) data)
    (hhi : skipped cmp (.atLeast k) data ≤ it.lastIndex + (data.length - it.tableLen)) :
    it.nextIndex cmp data k = .ok (if !it.seeking then skipped cmp (.atLeast k) data + 1
      else skipped cmp (.atLeast k) data) := by
  have hw := @lowerBoundBy_window _ _ data k (fun entry key => (cmp entry.key key).isGE)
    (h.prefixClosed cmp (.atLeast k)) it.lastIndex (it.lastIndex + (data.length - it.tableLen))
    hlo hhi (by omega)
  unfold VecMemTableIterator.nextIndex
  rw [if_neg hslow, if_neg (by omega)]
  dsimp only
  rw [if_neg (by omega), hw]
  rfl

/-- Right after `seek(k)` the search covers the whole vector and lands on the rank of `k`. -/
theorem nextIndex_seek {data : List (VecEntry κ)} (h : Sorted cmp data) (k : κ) :
    (VecMemTableIterator.seek k).nextIndex cmp data k = .ok (skipped cmp (.atLeast k) data) :=
  nextIndex_search cmp h (VecMemTableIterator.seek k) k (by simp [VecMemTableIterator.seek])
    (Nat.zero_le _) le_rfl (Nat.zero_le _) (by
      have hle : skipped cmp (.atLeast k) data ≤ data.length := List.countP_le_length
      simp only [VecMemTableIterator.seek]
      omega)

/-- After returning `k`, `next` reads right after `k`, through either path. -/
theorem AfterInv.nextIndex {data : List (VecEntry κ)} {it : VecMemTableIterator κ} {k : κ}
    (h : Sorted cmp data) (ha : AfterInv cmp data it k) :
    it.nextIndex cmp data k = .ok (skipped cmp (.atLeast k) data + 1) := by
  have hlast := ha.lastIndex_le_skipped
  have hwin := ha.skipped_le
  by_cases hfast : it.tableLen = data.length
  · -- nothing was inserted since: the key is where it was returned
    have hat : skipped cmp (.atLeast k) data = it.lastIndex := by
      rw [hfast, Nat.sub_self] at hwin
      omega
    unfold VecMemTableIterator.nextIndex
    rw [if_pos ⟨hfast, by rw [ha.seeking]; rfl⟩, hat]
  · have hs := nextIndex_search cmp h it k (fun hc => hfast hc.1) ha.tableLen_le ha.lastIndex_le
      hlast hwin
    simpa [ha.seeking] using hs

/-- When `next` reads at the first index the cursor admits, it returns what `NextSpec` asks, and
the iterator stands on the entry it returned, or where it was. -/
theorem Inv.next_of_read {data entries : List (VecEntry κ)} {it : VecMemTableIterator κ}
    {c : Cursor κ} (h : Inv cmp data entries it c)
    (hnext : it.next cmp data = .ok (match data[skipped cmp c data]? with
      | none => (none, it)
      | some e => (some e, ⟨data.length, skipped cmp c data, some e.key, false⟩))) :
    ∃ r it', it.next cmp data = .ok (r, it') ∧ NextSpec cmp entries c r ∧
      Inv cmp data entries it' (c.advance r) := by
  have hspec := nextSpec_head? cmp h.sorted h.perm c
  rw [← drop_skipped cmp h.sorted c, List.head?_drop] at hspec
  cases hq : data[skipped cmp c data]? with
  | none =>
    rw [hq] at hnext hspec
    exact ⟨none, it, hnext, hspec, h⟩
  | some e =>
    rw [hq] at hnext hspec
    obtain ⟨hlt, hget⟩ := List.getElem?_eq_some_iff.mp hq
    have hdrop : data.drop (skipped cmp c data) = e :: data.drop (skipped cmp c data + 1) := by
      rw [List.drop_eq_getElem_cons hlt, hget]
    have hrank := skipped_atLeast_of_drop cmp h.sorted hdrop
    refine ⟨some e, _, hnext, hspec, h.perm, h.sorted, ?_⟩
    exact (⟨rfl, rfl, ⟨e, List.mem_of_getElem? hq, rfl⟩, hlt.le, le_rfl, hrank.ge,
      by dsimp only; omega⟩ : AfterInv cmp data ⟨data.length, skipped cmp c data, some e.key, false⟩ e.key)

/-- The step lemma of `next`: it does not fail, returns what `NextSpec` asks, and keeps the
simulation relation with the cursor advanced. -/
theorem Inv.next {data entries : List (VecEntry κ)} {it : VecMemTableIterator κ} {c : Cursor κ}
    (h : Inv cmp data entries it c) :
    ∃ r it', it.next cmp data = .ok (r, it') ∧ NextSpec cmp entries c r ∧
      Inv cmp data entries it' (c.advance r) := by
  by_cases hd : data = []
  · subst hd
    have hent : entries = [] := List.nil_perm.mp h.perm
    subst hent
    exact ⟨none, it, (by cases it; rfl), (fun e he => by cases he), h⟩
  cases c with
  | start =>
    have hit : it = VecMemTable.iter := h.iter
    subst hit
    obtain ⟨first, rest, rfl⟩ := List.exists_cons_of_ne_nil hd
    have hspec := nextSpec_head? cmp h.sorted h.perm .start
    simp only [Cursor.admits, Bool.not_true, Bool.false_eq_true, not_false_eq_true,
      List.dropWhile_cons_of_neg, List.head?_cons] at hspec
    refine ⟨some first, _, rfl, hspec, h.perm, h.sorted, ?_⟩
    have hle : skipped cmp (.atLeast first.key) (first :: rest) ≤ (first :: rest).length :=
      List.countP_le_length
    exact (⟨rfl, rfl, ⟨first, List.mem_cons_self, rfl⟩, le_rfl, Nat.zero_le _, Nat.zero_le _,
      by dsimp only; omega⟩ : AfterInv cmp (first :: rest) ⟨0, 0, some first.key, false⟩ first.key)
  | atLeast k =>
    have hit : it = VecMemTableIterator.seek k := h.iter
    subst hit
    exact h.next_of_read cmp (next_of_nextIndex cmp hd rfl (nextIndex_seek cmp h.sorted k))
  | after k =>
    have ha : AfterInv cmp data it k := h.iter
    have hn := ha.nextIndex cmp h.sorted
    rw [← skipped_after cmp h.sorted ha.mem] at hn
    exact h.next_of_read cmp (next_of_nextIndex cmp hd ha.lastKey hn)

/-- The run lemma: from any state of the simulation relation, a run whose inserted keys are
distinct, from each other and from the entries already in, never fails and returns what the
specification allows. -/
theorem run_spec : ∀ (events : List (VecEvent κ)) {data entries : List (VecEntry κ)}
    {it : VecMemTableIterator κ} {c : Cursor κ}, Inv cmp data entries it c →
    (VecEvent.insertedKeys events).Pairwise (fun a b => cmp a b ≠ .eq) →
    (∀ k ∈ VecEvent.insertedKeys events, ∀ e ∈ entries, cmp k e.key ≠ .eq) →
    ∃ rs, run cmp data it events = .ok rs ∧ SpecRun cmp entries c events rs
  | [], _, _, _, _, _, _, _ => ⟨[], rfl, .nil⟩
  | .insert key value :: events, _, entries, _, _, h, hpair, hfresh => by
    obtain ⟨hkey, hpair⟩ := List.pairwise_cons.mp hpair
    have hinv := h.insert cmp key value (hfresh key List.mem_cons_self)
    have hfresh' : ∀ k ∈ VecEvent.insertedKeys events, ∀ e ∈ entries ++ [⟨key, value⟩],
        cmp k e.key ≠ .eq := by
      intro k hk e he
      rcases List.mem_append.mp he with he | he
      · exact hfresh k (List.mem_cons_of_mem _ hk) e he
      · rw [List.mem_singleton.mp he]
        exact fun hc => hkey k hk (Std.OrientedCmp.eq_comm.mp hc)
    obtain ⟨rs, hrun, hspec⟩ := run_spec events hinv hpair hfresh'
    exact ⟨rs, hrun, .insert hspec⟩
  | .next :: events, _, _, _, _, h, hpair, hfresh => by
    obtain ⟨r, it', hnext, hns, hinv⟩ := h.next cmp
    obtain ⟨rs, hrun, hspec⟩ := run_spec events hinv hpair hfresh
    refine ⟨r :: rs, ?_, .next hns hspec⟩
    simp only [run, hnext, hrun, bind, Except.bind, pure, Except.pure]
  | .seek key :: events, _, _, _, _, h, hpair, hfresh => by
    have hinv : Inv cmp _ _ (VecMemTableIterator.seek key) (.atLeast key) :=
      ⟨h.perm, h.sorted, by unfold IterInv; rfl⟩
    obtain ⟨rs, hrun, hspec⟩ := run_spec events hinv hpair hfresh
    exact ⟨rs, hrun, .seek hspec⟩

/-- Whatever the interleaving of inserts of distinct keys with `next` and `seek` calls, the
iterator never fails, and each `next` returns the entry of least key its cursor admits: the
smallest key at the first call, the smallest key above the one returned last, or right after
`seek(k)` the smallest key not below `k`; and `None` only when there is none. -/
theorem run_refines_spec (events : List (VecEvent κ))
    (hdistinct : (VecEvent.insertedKeys events).Pairwise fun a b => cmp a b ≠ .eq) :
    ∃ outputs, run cmp [] iter events = .ok outputs ∧ SpecRun cmp [] .start events outputs :=
  run_spec cmp events ⟨List.Perm.refl _, List.Pairwise.nil, by unfold IterInv; rfl⟩ hdistinct
    (by simp)

theorem run_refines_spec_iterateWhileInserting :
    (VecEvent.insertedKeys iterateWhileInserting).Pairwise (fun a b => compare a b ≠ .eq) ∧
      ∃ outputs, run compare [] iter iterateWhileInserting = .ok outputs ∧
        SpecRun compare [] .start iterateWhileInserting outputs :=
  ⟨by decide, run_refines_spec compare iterateWhileInserting (by decide)⟩

end Simulation

end VecMemTable

end Dacha.SSTable
