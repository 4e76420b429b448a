import Dacha.Common.Algorithms
import Dacha.Raft.Proto

/-!
# `LogMetadata` (`raft/src/log/log_metadata.rs:1-196`)

The consensus module's compressed copy of `(term, sequence)` for every index of its log.
`offsets` holds the start of every run of entries that share a term and have consecutive
sequences; `offsets[0]` is the position just before the log (`prev`). `last_offset` is the
newest entry. The term and sequence of an index are extrapolated from the run it falls in,
found by `upper_bound_by` on the runs' start indexes.

The `VecDeque` always holds at least one run; the model carries that as the field `offsets_ne`,
so `prev` is total. Indexing with what `upper_bound_by` returns cannot panic
(`Common.upperBoundBy_lt`) and is written with that proof. A failed `assert!`, an
`Option::unwrap` on `None` and an underflowing `u64` subtraction are the `Except` errors, with
the message Rust panics with.

Here / there:

| model                 | source                         |
|-----------------------|--------------------------------|
| `LogMetadata.new`     | `LogMetadata::new` (`:50-63`)  |
| `LogMetadata.lookup`  | `lookup` (`:79-101`)           |
| `LogMetadata.lookupSeq` | `lookup_seq` (`:103-127`)    |
| `LogMetadata.append`  | `append` (`:129-147`)          |
| `LogMetadata.discard` | `discard` (`:151-179`)         |
| `LogMetadata.truncate`| `truncate` (`:182-195`)        |
-/

namespace Dacha.Raft

open Dacha.Common

/-- `LogSequence` (`log_metadata.rs:213-216`): a process-local counter, `0` before any entry. -/

structure LogOffset where
  position : LogPosition
  sequence : Nat
  deriving DecidableEq, Repr

def LogOffset.zero : LogOffset := ⟨LogPosition.zero, 0⟩

structure LogMetadata where
  offsets : List LogOffset
  lastOffset : LogOffset
  offsets_ne : offsets ≠ []

instance : DecidableEq LogMetadata := fun a b =>
  if h : a.offsets = b.offsets ∧ a.lastOffset = b.lastOffset then
    isTrue (by cases a; cases b; cases h.1; cases h.2; rfl)
  else isFalse (by rintro rfl; exact h ⟨rfl, rfl⟩)

/-- The panic message of `Option::unwrap` on `None`. -/
def UNWRAP_NONE : String := "called `Option::unwrap()` on a `None` value"

/-- The panic message of an underflowing `u64` subtraction in a debug build. -/
def SUB_OVERFLOW : String := "attempt to subtract with overflow"

namespace LogMetadata

def new : LogMetadata := ⟨[LogOffset.zero], LogOffset.zero, by simp⟩

/-- `prev`: the offset of the entry just before the first entry of the log. -/
def prev (m : LogMetadata) : LogOffset := m.offsets.head m.offsets_ne

def last (m : LogMetadata) : LogOffset := m.lastOffset

/-- The run that holds index `index`: the last offset starting at or before it. -/
def runOf (m : LogMetadata) (index : Nat) : Option LogOffset :=
  match h : upperBoundBy m.offsets index (fun off idx => decide (off.position.index ≤ idx)) with
  | none => none
  | some i => some (m.offsets.get ⟨i, upperBoundBy_lt h⟩)

/-- The run that holds sequence `seq`. -/
def runOfSeq (m : LogMetadata) (seq : Nat) : Option LogOffset :=
  match h : upperBoundBy m.offsets seq (fun off seq => decide (off.sequence ≤ seq)) with
  | none => none
  | some i => some (m.offsets.get ⟨i, upperBoundBy_lt h⟩)

/-- `lookup`: the term and sequence of the entry at `index`. The subtraction cannot underflow,
since the run starts at or before `index`. -/
def lookup (m : LogMetadata) (index : Nat) : Option LogOffset :=
  if index > m.lastOffset.position.index then none
  else
    match m.runOf index with
    | none => none
    | some prevOffset =>
      some ⟨⟨prevOffset.position.term, index⟩,
        prevOffset.sequence + (index - prevOffset.position.index)⟩

/-- `lookup` finds nothing past the last entry. -/
theorem lookup_le {m : LogMetadata} {index : Nat} {off : LogOffset}
    (h : m.lookup index = some off) : index ≤ m.last.position.index := by
  unfold LogMetadata.lookup at h
  split_ifs at h with hgt
  exact Nat.le_of_not_lt hgt

/-- `lookup_seq`: the position of the entry with sequence `seq`. -/
def lookupSeq (m : LogMetadata) (seq : Nat) : Option LogOffset :=
  if seq > m.lastOffset.sequence then none
  else
    match m.runOfSeq seq with
    | none => none
    | some prevOffset =>
      some ⟨⟨prevOffset.position.term,
        prevOffset.position.index + (seq - prevOffset.sequence)⟩, seq⟩

/-- `truncate`: drops every entry from `startIndex` on. The `lookup` runs on the shortened runs
with the old `last_offset`, as in the source. -/
def truncate (m : LogMetadata) (startIndex : Nat) : Except String LogMetadata :=
  if startIndex = 0 then .error SUB_OVERFLOW
  else
    match h : upperBoundBy m.offsets (startIndex - 1)
        (fun off idx => decide (off.position.index ≤ idx)) with
    | none => .error UNWRAP_NONE
    | some prevOffsetIdx =>
      let kept : LogMetadata :=
        { m with
          offsets := m.offsets.take (prevOffsetIdx + 1)
          offsets_ne := by simpa using m.offsets_ne }
      match kept.lookup (startIndex - 1) with
      | none => .error UNWRAP_NONE
      | some lastOffset => .ok { kept with lastOffset }

/-- The end of `append`: a new run starts unless the entry continues the last one. -/
def pushOffset (m : LogMetadata) (offset : LogOffset) : LogMetadata :=
  ⟨if offset.position.term ≠ m.lastOffset.position.term ∨
      offset.sequence ≠ m.lastOffset.sequence + 1 then m.offsets ++ [offset]
    else m.offsets, offset, by split_ifs <;> simp [m.offsets_ne]⟩

/-- `append`: adds the entry at `offset`, truncating first when it overwrites an index. -/
def append (m : LogMetadata) (offset : LogOffset) : Except String LogMetadata := do
  if ¬ offset.position.term ≥ m.last.position.term then
    throw "assertion failed: offset.position.term() >= self.last().position.term()"
  if ¬ offset.sequence > m.lastOffset.sequence then
    throw "assertion failed: offset.sequence > self.last_offset.sequence"
  let m ← if offset.position.index ≤ m.last.position.index then m.truncate offset.position.index
    else pure m
  if offset.position.index ≠ m.last.position.index + 1 then
    throw "assertion failed: `(left == right)`"
  pure (m.pushOffset offset)

/-- Appending right after the last entry, in its term or a later one and with the next
sequence, needs no truncation and passes every assertion. -/
theorem append_next (m : LogMetadata) (term : Nat) (h : m.last.position.term ≤ term) :
    m.append ⟨⟨term, m.last.position.index + 1⟩, m.last.sequence + 1⟩ =
      .ok (m.pushOffset ⟨⟨term, m.last.position.index + 1⟩, m.last.sequence + 1⟩) := by
  simp only [last] at h ⊢
  simp [append, last, Nat.not_lt.mpr h]
  rfl

/-- `discard`: the log now starts after `newStart`. -/
def discard (m : LogMetadata) (newStart : LogPosition) : Except String LogMetadata :=
  if newStart.index > m.lastOffset.position.index then
    .ok ⟨[⟨newStart, m.lastOffset.sequence⟩], { m.lastOffset with position := newStart },
      by simp⟩
  else if newStart.index ≤ m.prev.position.index then .ok m
  else
    match m.lookup newStart.index with
    | none => .error UNWRAP_NONE
    | some off =>
      match h : upperBoundBy m.offsets newStart.index
          (fun off idx => decide (off.position.index ≤ idx)) with
      | none => .error UNWRAP_NONE
      | some offsetIdx =>
        -- `drain(0..offset_idx)` keeps the run of `newStart` at the front.
        .ok ⟨⟨newStart, off.sequence⟩ :: m.offsets.drop (offsetIdx + 1), m.lastOffset, by simp⟩

end LogMetadata

end Dacha.Raft
