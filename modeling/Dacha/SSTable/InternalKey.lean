import Mathlib

/-!
# Internal keys (`db/internal_key.rs`, `table/comparator.rs`)

The database keeps every version of a user key under an internal key: the user key, the
sequence number of the write and its type. `InternalKeyComparator` orders internal keys by user
key, bytewise (`BytewiseComparator`), and the versions of one user key by decreasing sequence,
the newest first. It does not look at the type (`internal_key.rs:120-130`): two writes of one user
key with one sequence number compare equal.

The source serializes an internal key as the user key followed by `(sequence << 8) | type` in
eight little-endian bytes, and the comparator parses that back; the model keeps keys parsed.
Of `ValueType` the model has the two types a write batch writes and `MaxValueType`, which a seek
key carries; the other values of the enum are never written.
-/

namespace Dacha.SSTable

inductive ValueType
  | Deletion
  | Value
  | MaxValueType
  deriving DecidableEq, Repr

/-- `BytewiseComparator::compare`: `a.cmp(b)` on byte slices, lexicographic. -/
def bytewiseCompare : List UInt8 → List UInt8 → Ordering
  | [], [] => .eq
  | [], _ :: _ => .lt
  | _ :: _, [] => .gt
  | a :: as, b :: bs =>
    match compare a b with
    | .eq => bytewiseCompare as bs
    | o => o

@[simp] theorem bytewiseCompare_self : ∀ a : List UInt8, bytewiseCompare a a = .eq
  | [] => rfl
  | a :: as => by simp [bytewiseCompare, bytewiseCompare_self as]

theorem bytewiseCompare_eq_iff : ∀ {a b : List UInt8}, bytewiseCompare a b = .eq ↔ a = b
  | [], [] => by simp [bytewiseCompare]
  | [], _ :: _ => by simp [bytewiseCompare]
  | _ :: _, [] => by simp [bytewiseCompare]
  | a :: as, b :: bs => by
    simp only [bytewiseCompare, List.cons.injEq]
    rcases h : compare a b
    · simp only [reduceCtorEq, false_iff, not_and]
      exact fun hab => by simp [hab] at h
    · rw [Std.LawfulEqOrd.compare_eq_iff_eq] at h
      simp [h, bytewiseCompare_eq_iff]
    · simp only [reduceCtorEq, false_iff, not_and]
      exact fun hab => by simp [hab] at h

/-- `bytewiseCompare` is the lexicographic order of byte lists. -/
theorem bytewiseCompare_eq_compare : ∀ a b : List UInt8, bytewiseCompare a b = compare a b
  | [], [] => rfl
  | [], _ :: _ => rfl
  | _ :: _, [] => rfl
  | a :: as, b :: bs => by
    show _ = List.compareLex compare (a :: as) (b :: bs)
    rw [List.compareLex_cons_cons, bytewiseCompare, bytewiseCompare_eq_compare as bs]
    cases compare a b <;> rfl

def MAX_SEQUENCE : Nat := 2 ^ 56 - 1

structure InternalKey where
  userKey : List UInt8
  sequence : Nat
  typ : ValueType
  deriving DecidableEq, Repr

namespace InternalKey

/-- `InternalKey::before_with_sequence`: a key placed before every version of `userKey` whose
sequence is at most `sequence`. -/
def beforeWithSequence (userKey : List UInt8) (sequence : Nat) : InternalKey :=
  ⟨userKey, sequence, .MaxValueType⟩

def before (userKey : List UInt8) : InternalKey :=
  beforeWithSequence userKey MAX_SEQUENCE

/-- `InternalKeyComparator::compare`: user keys bytewise, then decreasing sequence. -/
def compare (a b : InternalKey) : Ordering :=
  match bytewiseCompare a.userKey b.userKey with
  | .eq => Ord.compare b.sequence a.sequence
  | o => o

/-- Two internal keys compare equal exactly when their user keys and sequences agree, whatever
their types. -/
theorem compare_eq_iff {a b : InternalKey} :
    a.compare b = .eq ↔ a.userKey = b.userKey ∧ a.sequence = b.sequence := by
  unfold compare
  rcases h : bytewiseCompare a.userKey b.userKey
  · simp only [reduceCtorEq, false_iff, not_and]
    exact fun hab => by simp [hab] at h
  · rw [bytewiseCompare_eq_iff] at h
    simp only [h, true_and]
    constructor
    · intro e
      exact (Std.LawfulEqOrd.compare_eq_iff_eq.mp e).symm
    · intro e
      simp [e]
  · simp only [reduceCtorEq, false_iff, not_and]
    exact fun hab => by simp [hab] at h

/-- The comparator is the lexicographic product of the user keys' order and the reversed order
of sequences. -/
theorem compare_eq_compareLex (a b : InternalKey) :
    a.compare b = compareLex (compareOn userKey) (flip (compareOn sequence)) a b := by
  simp only [InternalKey.compare, compareLex, compareOn, flip, bytewiseCompare_eq_compare]
  cases Ord.compare a.userKey b.userKey <;> rfl

/-- The comparator is a total preorder, so the core lemmas on `Std.TransCmp` apply to it. -/
instance : Std.TransCmp InternalKey.compare := by
  have h : InternalKey.compare = compareLex (compareOn userKey) (flip (compareOn sequence)) :=
    funext fun a => funext fun b => compare_eq_compareLex a b
  rw [h]
  infer_instance

theorem compare_swap (a b : InternalKey) : a.compare b = (b.compare a).swap :=
  Std.OrientedCmp.eq_swap

@[simp] theorem compare_self (a : InternalKey) : a.compare a = .eq :=
  compare_eq_iff.mpr ⟨rfl, rfl⟩

/-- A key not above another has a user key not above the other's. -/
theorem userKey_isLE {a b : InternalKey} (h : (a.compare b).isLE) :
    (bytewiseCompare a.userKey b.userKey).isLE := by
  unfold InternalKey.compare at h
  cases hc : bytewiseCompare a.userKey b.userKey <;> simp_all

theorem compare_of_userKey_eq {a b : InternalKey} (h : a.userKey = b.userKey) :
    a.compare b = Ord.compare b.sequence a.sequence := by
  simp [InternalKey.compare, h]

theorem compare_of_userKey_ne {a b : InternalKey} (h : a.userKey ≠ b.userKey) :
    a.compare b = bytewiseCompare a.userKey b.userKey := by
  have hne : bytewiseCompare a.userKey b.userKey ≠ .eq := fun he => h (bytewiseCompare_eq_iff.mp he)
  unfold InternalKey.compare
  split
  · contradiction
  · rfl

end InternalKey

/-- `KeyValueEntry`: an entry of a memtable or a table. -/
structure KeyValueEntry where
  key : InternalKey
  value : List UInt8
  deriving DecidableEq, Repr

end Dacha.SSTable
