import Dacha.Raft.MemoryLog

/-!
# `LogMetadata` against the log it describes (`log/log_metadata.rs`, `log/memory_log.rs`)

`LogMetadata` keeps the term and sequence of every index of the log compressed into runs: an
offset starts a run, and the entries after it up to the next run share its term and take the
sequences after its own. `lookup` extrapolates from the run an index falls in
(`LogOffset.extend`), and `lookup_seq` does the same from the run a sequence falls in.

`LogMetadata.WellFormed` is the shape every call keeps: runs start at increasing indexes, a later
run starts past the sequences of an earlier one, and the last entry lies in the last run. From it
`lookup` is none exactly outside `[prev, last]`, and `lookup_seq` inverts it.

`Refines` relates a `LogMetadata` to a `MemoryLogSync` that was given the same calls: the same
`prev`, the same last index and the same term at every index. Each call keeps it when the call
passes the assertions of both sides (`LogCall.Valid`): an append in a term at least the last
entry's, with a larger sequence, at an index in `(prev, last + 1]`; a discard at a position of
the log, or past its end in a term at least the last entry's.
-/

namespace Dacha.Raft

open Dacha.Common

/-- The offset of `index` extrapolated from the run that starts at `r`, as `lookup` computes it. -/
def LogOffset.extend (r : LogOffset) (index : Nat) : LogOffset :=
  ⟨⟨r.position.term, index⟩, r.sequence + (index - r.position.index)⟩

namespace LogOffset

@[simp]
theorem extend_position (r : LogOffset) (index : Nat) :
    (r.extend index).position = ⟨r.position.term, index⟩ := rfl

@[simp]
theorem extend_sequence (r : LogOffset) (index : Nat) :
    (r.extend index).sequence = r.sequence + (index - r.position.index) := rfl

@[simp]
theorem extend_self (r : LogOffset) : r.extend r.position.index = r := by
  obtain ⟨⟨term, index⟩, sequence⟩ := r
  simp [extend]

/-- Extrapolating twice within a run is extrapolating once. -/
theorem extend_extend {r : LogOffset} {i j : Nat} (hi : r.position.index ≤ i) (hj : i ≤ j) :
    (r.extend i).extend j = r.extend j := by
  simp only [extend, LogOffset.mk.injEq, true_and]
  omega

end LogOffset

namespace LogMetadata

variable {m : LogMetadata}

/-- `lookup` as the run of the index, extrapolated. -/
theorem lookup_eq (m : LogMetadata) (index : Nat) :
    m.lookup index =
      if m.last.position.index < index then none else (m.runOf index).map (·.extend index) := by
  unfold lookup last
  split_ifs
  · rfl
  · cases m.runOf index <;> rfl

/-- `lookup_seq` as the run of the sequence, extrapolated. -/
theorem lookupSeq_eq (m : LogMetadata) (seq : Nat) :
    m.lookupSeq seq =
      if m.last.sequence < seq then none
      else (m.runOfSeq seq).map fun r =>
        ⟨⟨r.position.term, r.position.index + (seq - r.sequence)⟩, seq⟩ := by
  unfold lookupSeq last
  split_ifs
  · rfl
  · cases m.runOfSeq seq <;> rfl

/-- The run `upper_bound_by` finds, read at the index it returns. -/
theorem runOf_eq_bind (m : LogMetadata) (index : Nat) :
    m.runOf index = (upperBoundBy m.offsets index
      fun off idx => decide (off.position.index ≤ idx)).bind (m.offsets[·]?) := by
  unfold runOf
  exact upperBoundBy_get_eq_bind _ _ _

theorem runOfSeq_eq_bind (m : LogMetadata) (seq : Nat) :
    m.runOfSeq seq = (upperBoundBy m.offsets seq
      fun off seq => decide (off.sequence ≤ seq)).bind (m.offsets[·]?) := by
  unfold runOfSeq
  exact upperBoundBy_get_eq_bind _ _ _

/-- The search of `upper_bound_by` finds every run that `runOf` finds. -/
theorem upperBoundBy_ne_none_of_runOf {index : Nat} {r : LogOffset} (h : m.runOf index = some r) :
    upperBoundBy m.offsets index (fun off idx => decide (off.position.index ≤ idx)) ≠ none := by
  intro hnone
  rw [runOf_eq_bind, hnone] at h
  cases h

/-- Where runs start at increasing indexes, the run of an index is the last run starting at or
before it. -/
theorem runOf_eq_getLast?
    (hs : m.offsets.Pairwise fun a b => a.position.index < b.position.index) (index : Nat) :
    m.runOf index = (m.offsets.filter fun a => decide (a.position.index ≤ index)).getLast? := by
  rw [runOf_eq_bind, upperBoundBy_getElem? _ _ _ (prefixClosed_key_le hs index)]

theorem runOf_eq_some_iff
    (hs : m.offsets.Pairwise fun a b => a.position.index < b.position.index) (index : Nat)
    (r : LogOffset) :
    m.runOf index = some r ↔ r ∈ m.offsets ∧ r.position.index ≤ index ∧
      ∀ a ∈ m.offsets, a.position.index ≤ index → a.position.index ≤ r.position.index := by
  rw [runOf_eq_getLast? hs]
  exact getLast?_filter_key_le_iff hs index r

theorem runOfSeq_eq_some_iff (hs : m.offsets.Pairwise fun a b => a.sequence < b.sequence)
    (seq : Nat) (r : LogOffset) :
    m.runOfSeq seq = some r ↔ r ∈ m.offsets ∧ r.sequence ≤ seq ∧
      ∀ a ∈ m.offsets, a.sequence ≤ seq → a.sequence ≤ r.sequence := by
  rw [runOfSeq_eq_bind, upperBoundBy_getElem? _ _ _ (prefixClosed_key_le hs seq)]
  exact getLast?_filter_key_le_iff hs seq r

theorem runOf_eq_none_iff
    (hs : m.offsets.Pairwise fun a b => a.position.index < b.position.index) (index : Nat) :
    m.runOf index = none ↔ ∀ a ∈ m.offsets, index < a.position.index := by
  rw [runOf_eq_getLast? hs, List.getLast?_eq_none_iff, List.filter_eq_nil_iff]
  simp

theorem prev_mem (m : LogMetadata) : m.prev ∈ m.offsets := List.head_mem m.offsets_ne

theorem lookup_eq_some_iff (index : Nat) (o : LogOffset) :
    m.lookup index = some o ↔ index ≤ m.last.position.index ∧ ∃ r, m.runOf index = some r ∧
      o = r.extend index := by
  rw [lookup_eq]
  split_ifs with h
  · simp only [false_iff, not_and, not_exists]
    intro hle
    omega
  · simp only [Option.map_eq_some_iff, Nat.le_of_not_lt h, true_and]
    exact exists_congr fun r => and_congr_right fun _ => eq_comm

/-- Up to `index`, `lookup` reads only the runs that start at or before it. -/
theorem lookup_eq_of_filter {m₁ m₂ : LogMetadata}
    (hs₁ : m₁.offsets.Pairwise fun a b => a.position.index < b.position.index)
    (hs₂ : m₂.offsets.Pairwise fun a b => a.position.index < b.position.index) {index : Nat}
    (hl₁ : index ≤ m₁.last.position.index) (hl₂ : index ≤ m₂.last.position.index)
    (hf : (m₁.offsets.filter fun a => decide (a.position.index ≤ index)) =
      m₂.offsets.filter fun a => decide (a.position.index ≤ index)) :
    m₁.lookup index = m₂.lookup index := by
  rw [lookup_eq, lookup_eq, if_neg (by omega), if_neg (by omega), runOf_eq_getLast? hs₁,
    runOf_eq_getLast? hs₂, hf]

/-- `pushOffset` keeps `prev`. -/
theorem pushOffset_prev (m : LogMetadata) (o : LogOffset) : (m.pushOffset o).prev = m.prev := by
  unfold pushOffset prev
  split_ifs
  · exact List.head_append_of_ne_nil m.offsets_ne
  · rfl

/-- What `discard` leaves when `first`, the offset of an entry of the log, becomes `prev`: the
runs after it, with `first` in front. -/
def startingAt (m : LogMetadata) (first : LogOffset) : LogMetadata :=
  ⟨first :: m.offsets.filter fun a => !decide (a.position.index ≤ first.position.index),
    m.lastOffset, List.cons_ne_nil _ _⟩

/-! ## The shape of the runs -/

/-- The runs as every call of `LogMetadata` leaves them. -/
structure WellFormed (m : LogMetadata) : Prop where
  /-- Runs start at increasing indexes. -/
  sorted : m.offsets.Pairwise fun a b => a.position.index < b.position.index
  /-- A run starts past the sequences of every run before it. -/
  seq_gap : ∀ a ∈ m.offsets, ∀ b ∈ m.offsets, a.position.index ≤ b.position.index →
    a.sequence + (b.position.index - a.position.index) ≤ b.sequence
  /-- Every run starts at or before the last entry. -/
  le_last : ∀ a ∈ m.offsets, a.position.index ≤ m.last.position.index
  /-- The last entry lies in the last run. -/
  last_extend : m.offsets.getLast?.map (·.extend m.last.position.index) = some m.last

theorem wellFormed_new : new.WellFormed where
  sorted := List.pairwise_singleton _ _
  seq_gap := by simp [new]
  le_last := by simp [new, last]
  last_extend := rfl

/-- A log of no entries after `prev`, as `discard` past the last entry leaves it. -/
def single (first : LogOffset) : LogMetadata := ⟨[first], first, List.cons_ne_nil _ _⟩

theorem wellFormed_single (first : LogOffset) : (single first).WellFormed where
  sorted := List.pairwise_singleton _ _
  seq_gap := by simp [single]
  le_last := by simp [single, last]
  last_extend := by simp [single, last]

theorem lookup_single (first : LogOffset) (index : Nat) :
    (single first).lookup index = if index = first.position.index then some first else none := by
  rw [lookup_eq, runOf_eq_getLast? (List.pairwise_singleton _ _)]
  show (if first.position.index < index then none else
    (([first].filter fun a => decide (a.position.index ≤ index)).getLast?).map (·.extend index)) = _
  rcases Nat.lt_trichotomy first.position.index index with hlt | heq | hgt
  · rw [if_pos hlt, if_neg (by omega)]
  · rw [if_neg (by omega), if_pos heq.symm,
      List.filter_eq_self.mpr fun a ha => by rw [List.mem_singleton.mp ha]; simp [heq],
      List.getLast?_singleton, Option.map_some, ← heq, LogOffset.extend_self]
  · rw [if_neg (by omega), if_neg (by omega),
      List.filter_eq_nil_iff.mpr fun a ha => by rw [List.mem_singleton.mp ha]; simp; omega]
    rfl

/-- `discard` past the last entry leaves one empty run at `newStart`. -/
theorem discard_past_end {pos : LogPosition} (h : m.last.position.index < pos.index) :
    m.discard pos = .ok (single ⟨pos, m.last.sequence⟩) := by
  unfold discard
  rw [if_pos (show pos.index > m.lastOffset.position.index from h)]
  rfl

namespace WellFormed

variable (hw : m.WellFormed)
include hw

theorem seq_sorted : m.offsets.Pairwise fun a b => a.sequence < b.sequence :=
  hw.sorted.imp_of_mem fun ha hb hab => by
    have := hw.seq_gap _ ha _ hb (Nat.le_of_lt hab)
    omega

theorem runOf_eq_some_iff (index : Nat) (r : LogOffset) :
    m.runOf index = some r ↔ r ∈ m.offsets ∧ r.position.index ≤ index ∧
      ∀ a ∈ m.offsets, a.position.index ≤ index → a.position.index ≤ r.position.index :=
  LogMetadata.runOf_eq_some_iff hw.sorted index r

/-- The last run, and the last entry extrapolated from it. -/
theorem last_run : ∃ r, m.offsets.getLast? = some r ∧ m.last = r.extend m.last.position.index := by
  obtain ⟨r, hr, hlast⟩ := Option.map_eq_some_iff.mp hw.last_extend
  exact ⟨r, hr, hlast.symm⟩

/-- The run of an index is the last of the runs that start at or before it. -/
theorem getLast?_filter_of_runOf {index : Nat} {r : LogOffset} (hrun : m.runOf index = some r) :
    (m.offsets.filter fun a => decide (a.position.index ≤ index)).getLast? = some r := by
  rw [← runOf_eq_getLast? hw.sorted, hrun]

/-- The last run starts after every other run. -/
theorem le_last_run {r : LogOffset} (hr : m.offsets.getLast? = some r) :
    ∀ a ∈ m.offsets, a.position.index ≤ r.position.index := by
  have hfilter : (m.offsets.filter fun a => decide (a.position.index ≤ m.last.position.index)) =
      m.offsets := List.filter_eq_self.mpr fun a ha => decide_eq_true (hw.le_last a ha)
  rw [← hfilter] at hr
  obtain ⟨-, -, hmax⟩ := (getLast?_filter_key_le_iff hw.sorted _ r).mp hr
  exact fun a ha => hmax a ha (hw.le_last a ha)

/-- No run's extrapolation reaches past the last entry's sequence. -/
theorem seq_le_last {a : LogOffset} (ha : a ∈ m.offsets) :
    a.sequence + (m.last.position.index - a.position.index) ≤ m.last.sequence := by
  obtain ⟨r, hr, hlast⟩ := hw.last_run
  have har := hw.le_last_run hr a ha
  have hgap := hw.seq_gap a ha r (List.mem_of_getLast? hr) har
  have hrl := hw.le_last r (List.mem_of_getLast? hr)
  have hseq : m.last.sequence = r.sequence + (m.last.position.index - r.position.index) := by
    conv_lhs => rw [hlast]
    rfl
  omega

/-- `prev` starts the first run. -/
theorem prev_le {a : LogOffset} (ha : a ∈ m.offsets) : m.prev.position.index ≤ a.position.index := by
  have hcons : m.offsets = m.prev :: m.offsets.tail := (List.cons_head_tail m.offsets_ne).symm
  rw [hcons] at ha
  rcases List.mem_cons.mp ha with rfl | ha
  · exact le_rfl
  · have hs := hw.sorted
    rw [hcons] at hs
    exact Nat.le_of_lt ((List.pairwise_cons.mp hs).1 a ha)

/-- `lookup` finds nothing exactly before `prev` and after the last entry. -/
theorem lookup_eq_none_iff (index : Nat) :
    m.lookup index = none ↔ index < m.prev.position.index ∨ m.last.position.index < index := by
  rw [lookup_eq]
  split_ifs with h
  · simp [h]
  · rw [Option.map_eq_none_iff, runOf_eq_none_iff hw.sorted]
    constructor
    · intro hall
      exact .inl (hall m.prev m.prev_mem)
    · rintro (hlt | hlt) a ha
      · exact Nat.lt_of_lt_of_le hlt (hw.prev_le ha)
      · exact absurd hlt h

/-- The last entry is where `lookup` puts it. -/
theorem lookup_last : m.lookup m.last.position.index = some m.last := by
  obtain ⟨r, hr, hlast⟩ := hw.last_run
  have hrun : m.runOf m.last.position.index = some r := by
    rw [hw.runOf_eq_some_iff]
    exact ⟨List.mem_of_getLast? hr, hw.le_last _ (List.mem_of_getLast? hr),
      fun a ha _ => hw.le_last_run hr a ha⟩
  rw [lookup_eq_some_iff]
  exact ⟨le_rfl, r, hrun, hlast⟩

/-- `lookup_seq` gives back what `lookup` found. -/
theorem lookupSeq_lookup {index : Nat} {o : LogOffset} (h : m.lookup index = some o) :
    m.lookupSeq o.sequence = some o := by
  obtain ⟨hle, r, hrun, rfl⟩ := (lookup_eq_some_iff index o).mp h
  obtain ⟨hr, hri, hmax⟩ := (hw.runOf_eq_some_iff index r).mp hrun
  have hrl := hw.seq_le_last hr
  have hseq : m.runOfSeq (r.extend index).sequence = some r := by
    rw [runOfSeq_eq_some_iff hw.seq_sorted]
    refine ⟨hr, by simp, fun a ha has => ?_⟩
    by_contra hlt
    have hra : r.position.index < a.position.index := by
      by_contra hge
      have := hw.seq_gap a ha r hr (by omega)
      simp only [LogOffset.extend_sequence] at has
      omega
    have := hw.seq_gap r hr a ha (Nat.le_of_lt hra)
    have := hmax a ha
    simp only [LogOffset.extend_sequence] at has
    omega
  rw [lookupSeq_eq, if_neg (by simp only [LogOffset.extend_sequence]; omega), hseq]
  simp only [Option.map_some, LogOffset.extend]
  congr 3
  omega

/-! ## What each call does to the runs -/

/-- `pushOffset` starts a new run at an entry right after the last one, unless the entry continues
the last run. -/
theorem pushOffset {o : LogOffset} (hidx : o.position.index = m.last.position.index + 1)
    (hseq : m.last.sequence < o.sequence) : (m.pushOffset o).WellFormed := by
  have hlast : (m.pushOffset o).last = o := rfl
  by_cases hc : o.position.term ≠ m.last.position.term ∨ o.sequence ≠ m.last.sequence + 1
  · -- a new run starts at `o`
    have hoffs : (m.pushOffset o).offsets = m.offsets ++ [o] := if_pos hc
    refine ⟨?_, ?_, ?_, ?_⟩ <;> rw [hoffs] <;> try rw [hlast]
    · refine List.pairwise_append.mpr ⟨hw.sorted, List.pairwise_singleton _ _, ?_⟩
      intro a ha b hb
      rw [List.mem_singleton.mp hb]
      have := hw.le_last a ha
      omega
    · intro a ha b hb hab
      rcases List.mem_append.mp ha with ha | ha <;> rcases List.mem_append.mp hb with hb | hb
      · exact hw.seq_gap a ha b hb hab
      · rw [List.mem_singleton.mp hb] at hab ⊢
        have := hw.seq_le_last ha
        have := hw.le_last a ha
        omega
      · rw [List.mem_singleton.mp ha] at hab
        have := hw.le_last b hb
        omega
      · rw [List.mem_singleton.mp ha, List.mem_singleton.mp hb]
        omega
    · intro a ha
      rcases List.mem_append.mp ha with ha | ha
      · have := hw.le_last a ha
        omega
      · rw [List.mem_singleton.mp ha]
    · simp
  · -- `o` continues the last run
    have hoffs : (m.pushOffset o).offsets = m.offsets := if_neg hc
    obtain ⟨hterm, hseq'⟩ : o.position.term = m.last.position.term ∧
        o.sequence = m.last.sequence + 1 := by
      simpa only [ne_eq, not_or, not_not] using hc
    obtain ⟨r, hr, hrlast⟩ := hw.last_run
    have hrl := hw.le_last r (List.mem_of_getLast? hr)
    refine ⟨?_, ?_, ?_, ?_⟩ <;> rw [hoffs] <;> try rw [hlast]
    · exact hw.sorted
    · exact hw.seq_gap
    · intro a ha
      have := hw.le_last a ha
      omega
    · rw [hr, Option.map_some, Option.some.injEq]
      have hterm' : m.last.position.term = r.position.term := by rw [hrlast]; rfl
      have hseq'' : m.last.sequence = r.sequence + (m.last.position.index - r.position.index) := by
        rw [hrlast]; rfl
      obtain ⟨⟨term, index⟩, sequence⟩ := o
      simp only at hterm hseq' hidx
      simp only [LogOffset.extend, LogOffset.mk.injEq, LogPosition.mk.injEq, and_true]
      exact ⟨by omega, by omega⟩

/-- After `pushOffset`, `lookup` finds what it found up to the last entry, and the new entry
after it. -/
theorem lookup_pushOffset {o : LogOffset} (hidx : o.position.index = m.last.position.index + 1)
    (hseq : m.last.sequence < o.sequence) (index : Nat) :
    (m.pushOffset o).lookup index =
      if index ≤ m.last.position.index then m.lookup index
      else if index = o.position.index then some o else none := by
  have hw' := hw.pushOffset hidx hseq
  have hlast : (m.pushOffset o).last = o := rfl
  split_ifs with hle heq
  · -- the runs up to `index` are the same
    have hfilter : ((m.pushOffset o).offsets.filter fun a => decide (a.position.index ≤ index)) =
        m.offsets.filter fun a => decide (a.position.index ≤ index) := by
      unfold LogMetadata.pushOffset
      split_ifs
      · rw [List.filter_append, List.append_right_eq_self, List.filter_eq_nil_iff]
        intro a ha
        rw [List.mem_singleton.mp ha, decide_eq_true_iff]
        omega
      · rfl
    rw [lookup_eq, lookup_eq, runOf_eq_getLast? hw'.sorted, runOf_eq_getLast? hw.sorted, hfilter,
      hlast, if_neg (by omega), if_neg (by omega)]
  · rw [heq, ← hlast]
    exact hw'.lookup_last
  · rw [hw'.lookup_eq_none_iff, hlast]
    omega

/-- `truncate` at an index after `prev` and at most the last entry's keeps the runs that start
before it, and the entry before it becomes the last one. -/
theorem truncate {j : Nat} (hj : m.prev.position.index < j) (hjl : j ≤ m.last.position.index) :
    ∃ m', m.truncate j = .ok m' ∧ m'.WellFormed ∧ m'.prev = m.prev ∧
      m'.last.position.index = j - 1 ∧ m'.last.sequence ≤ m.last.sequence ∧
      ∀ index, m'.lookup index = if index < j then m.lookup index else none := by
  obtain ⟨o, ho⟩ : ∃ o, m.lookup (j - 1) = some o :=
    Option.ne_none_iff_exists'.mp fun h => by
      rw [hw.lookup_eq_none_iff] at h
      omega
  obtain ⟨-, r, hrun, rfl⟩ := (lookup_eq_some_iff (j - 1) o).mp ho
  obtain ⟨hr, hrj, -⟩ := (hw.runOf_eq_some_iff (j - 1) r).mp hrun
  unfold LogMetadata.truncate
  rw [if_neg (by omega)]
  split
  · -- `prev` starts at or before `j - 1`, so the search finds a run
    exact (upperBoundBy_ne_none_of_runOf hrun ‹_›).elim
  · rename_i q h
    have hkeep : m.offsets.take (q + 1) =
        m.offsets.filter fun a => decide (a.position.index ≤ j - 1) :=
      (upperBoundBy_split (prefixClosed_key_le hw.sorted (j - 1)) h).1
    have hs : (m.offsets.take (q + 1)).Pairwise fun a b => a.position.index < b.position.index :=
      hw.sorted.sublist (List.take_sublist _ _)
    have hfilter : ∀ index, index ≤ j - 1 →
        ((m.offsets.take (q + 1)).filter fun a => decide (a.position.index ≤ index)) =
          m.offsets.filter fun a => decide (a.position.index ≤ index) := by
      intro index hi
      rw [hkeep, List.filter_filter]
      refine List.filter_congr fun a _ => ?_
      rw [Bool.eq_iff_iff, Bool.and_eq_true, decide_eq_true_iff, decide_eq_true_iff]
      omega
    have hkept : ∀ hne : m.offsets.take (q + 1) ≠ [],
        (LogMetadata.mk (m.offsets.take (q + 1)) m.lastOffset hne).lookup (j - 1) =
          some (r.extend (j - 1)) := by
      intro hne
      rw [← ho]
      exact lookup_eq_of_filter hs hw.sorted (show j - 1 ≤ m.last.position.index by omega)
        (by omega) (hfilter _ le_rfl)
    dsimp only
    rw [hkept]
    refine ⟨_, rfl, ⟨hs, fun a ha b hb => hw.seq_gap a (List.mem_of_mem_take ha) b
      (List.mem_of_mem_take hb), fun a ha => ?_, ?_⟩, ?_, rfl, ?_, fun index => ?_⟩
    · have ha' : a ∈ m.offsets.take (q + 1) := ha
      rw [hkeep, List.mem_filter, decide_eq_true_iff] at ha'
      exact ha'.2
    · show (m.offsets.take (q + 1)).getLast?.map (·.extend (j - 1)) = some (r.extend (j - 1))
      rw [hkeep, hw.getLast?_filter_of_runOf hrun]
      rfl
    · exact List.head_take _
    · have := hw.seq_le_last hr
      show r.sequence + (j - 1 - r.position.index) ≤ m.last.sequence
      omega
    · split_ifs with hi
      · exact lookup_eq_of_filter hs hw.sorted (show index ≤ j - 1 by omega) (by omega)
          (hfilter _ (by omega))
      · rw [lookup_eq]
        exact if_pos (show j - 1 < index by omega)

/-- `append` of an entry in a term at least the last entry's, with a larger sequence, at an index
in `(prev, last + 1]`: the entry replaces every entry from its index on. -/
theorem append {o : LogOffset} (hterm : m.last.position.term ≤ o.position.term)
    (hseq : m.last.sequence < o.sequence) (hlo : m.prev.position.index < o.position.index)
    (hhi : o.position.index ≤ m.last.position.index + 1) :
    ∃ m', m.append o = .ok m' ∧ m'.WellFormed ∧ m'.prev = m.prev ∧ m'.last = o ∧
      ∀ index, m'.lookup index = if index < o.position.index then m.lookup index
        else if index = o.position.index then some o else none := by
  have hseq' : m.lastOffset.sequence < o.sequence := hseq
  by_cases hle : o.position.index ≤ m.last.position.index
  · -- the entries from the index of `o` on are truncated first
    obtain ⟨m₁, htr, hw₁, hprev₁, hlast₁, hseq₁, hlookup₁⟩ := hw.truncate hlo hle
    have hidx : o.position.index = m₁.last.position.index + 1 := by omega
    refine ⟨m₁.pushOffset o, ?_, hw₁.pushOffset hidx (by omega),
      (pushOffset_prev m₁ o).trans hprev₁, rfl, fun index => ?_⟩
    · simp only [LogMetadata.append, ge_iff_le, hterm, not_true_eq_false, if_false, gt_iff_lt,
        hseq', hle, if_true, htr, bind, Except.bind, ne_eq, if_neg (not_not.mpr hidx)]
      rfl
    · rw [hw₁.lookup_pushOffset hidx (by omega), hlookup₁]
      split_ifs <;> first | rfl | omega
  · -- `o` comes right after the last entry
    have hidx : o.position.index = m.last.position.index + 1 := by omega
    refine ⟨m.pushOffset o, ?_, hw.pushOffset hidx hseq, pushOffset_prev m o, rfl,
      fun index => ?_⟩
    · simp only [LogMetadata.append, ge_iff_le, hterm, not_true_eq_false, if_false, gt_iff_lt,
        hseq', hle, bind, Except.bind, pure, Except.pure, ne_eq, if_neg (not_not.mpr hidx)]
    · rw [hw.lookup_pushOffset hidx hseq]
      split_ifs <;> first | rfl | omega

/-- `discard` at or before `prev` changes nothing. -/
theorem discard_of_le_prev {pos : LogPosition} (h : pos.index ≤ m.prev.position.index) :
    m.discard pos = .ok m := by
  have := hw.le_last m.prev m.prev_mem
  unfold LogMetadata.discard
  rw [if_neg (show ¬ pos.index > m.lastOffset.position.index from fun h' => by
    change m.last.position.index < pos.index at h'
    omega), if_pos h]

/-- The offsets `m` holds split at any index into the runs that start at or before it and
those after it. -/
theorem offsets_split (index : Nat) :
    m.offsets = (m.offsets.filter fun a => decide (a.position.index ≤ index)) ++
      m.offsets.filter fun a => !decide (a.position.index ≤ index) := by
  have hpc := prefixClosed_key_le hw.sorted index
  rw [← hpc.takeWhile_eq_filter, ← hpc.dropWhile_eq_filter, List.takeWhile_append_dropWhile]

/-- `discard` at an entry of the log after `prev` makes that entry `prev`. -/
theorem discard_inside {pos : LogPosition} {o : LogOffset} (hlo : m.prev.position.index < pos.index)
    (ho : m.lookup pos.index = some o) (hopos : o.position = pos) :
    m.discard pos = .ok (m.startingAt o) := by
  obtain ⟨hle, r, hrun, -⟩ := (lookup_eq_some_iff _ o).mp ho
  unfold LogMetadata.discard
  rw [if_neg (show ¬ pos.index > m.lastOffset.position.index from fun h' => by
    change m.last.position.index < pos.index at h'
    omega), if_neg (by omega), ho]
  dsimp only
  split
  · -- the run of `pos` is found
    exact (upperBoundBy_ne_none_of_runOf hrun ‹_›).elim
  · rename_i q h
    have hdrop := (upperBoundBy_split (prefixClosed_key_le hw.sorted pos.index) h).2
    have hhead : (⟨pos, o.sequence⟩ : LogOffset) = o := by rw [← hopos]
    simp only [startingAt, hdrop, hhead, hopos]

/-- After `discard` at an entry, the first run starts at it and the runs after it are kept. -/
theorem startingAt {index : Nat} {o : LogOffset} (ho : m.lookup index = some o) :
    (m.startingAt o).WellFormed := by
  obtain ⟨hle, r, hrun, rfl⟩ := (lookup_eq_some_iff _ o).mp ho
  obtain ⟨hr, hri, -⟩ := (hw.runOf_eq_some_iff _ r).mp hrun
  have hidx : (r.extend index).position.index = index := rfl
  refine ⟨?_, ?_, ?_, ?_⟩
  · refine List.pairwise_cons.mpr ⟨fun b hb => ?_, hw.sorted.filter _⟩
    rw [List.mem_filter, hidx] at hb
    simpa using hb.2
  · intro a ha b hb hab
    simp only [LogMetadata.startingAt, List.mem_cons, List.mem_filter, hidx, Bool.not_eq_true',
      decide_eq_false_iff_not, Nat.not_le] at ha hb hab
    rcases ha with rfl | ⟨ha, hai⟩ <;> rcases hb with rfl | ⟨hb, hbi⟩
    · omega
    · -- the entry lies in the run of `r`, which starts before every run after it
      have := hw.seq_gap r hr b hb (by omega)
      simp only [LogOffset.extend_sequence, LogOffset.extend_position]
      omega
    · simp only [LogOffset.extend_position] at hab
      omega
    · exact hw.seq_gap a ha b hb hab
  · intro a ha
    simp only [LogMetadata.startingAt, List.mem_cons, List.mem_filter] at ha
    rcases ha with rfl | ⟨ha, -⟩
    · exact hle
    · exact hw.le_last a ha
  · have hlast := hw.last_extend
    rw [hw.offsets_split index, List.getLast?_append, hw.getLast?_filter_of_runOf hrun] at hlast
    show ((r.extend index :: m.offsets.filter fun a => !decide (a.position.index ≤ index)).getLast?).map
      (·.extend m.last.position.index) = some m.last
    rw [List.getLast?_cons]
    cases habove : (m.offsets.filter fun a => !decide (a.position.index ≤ index)).getLast? with
    | none =>
      rw [habove, Option.none_or, Option.map_some] at hlast
      rw [Option.getD_none, Option.map_some, LogOffset.extend_extend hri hle]
      exact hlast
    | some x =>
      rw [habove, Option.some_or] at hlast
      exact hlast

/-- After `discard` at an entry, `lookup` finds nothing before it and what it found from it on. -/
theorem lookup_startingAt {index : Nat} {o : LogOffset} (ho : m.lookup index = some o)
    (i : Nat) : (m.startingAt o).lookup i = if i < index then none else m.lookup i := by
  obtain ⟨hle, r, hrun, rfl⟩ := (lookup_eq_some_iff _ o).mp ho
  obtain ⟨hr, hri, -⟩ := (hw.runOf_eq_some_iff _ r).mp hrun
  have hw' := hw.startingAt ho
  have hlast : (m.startingAt (r.extend index)).last = m.last := rfl
  by_cases hi : i < index
  · -- before `index` no run of the result starts
    rw [if_pos hi, hw'.lookup_eq_none_iff]
    exact .inl hi
  rw [if_neg hi]
  by_cases hl : m.last.position.index < i
  · rw [lookup_eq, lookup_eq, hlast, if_pos hl, if_pos hl]
  rw [lookup_eq, lookup_eq, hlast, if_neg hl, if_neg hl, runOf_eq_getLast? hw'.sorted,
    runOf_eq_getLast? hw.sorted]
  have hbelow : ((m.offsets.filter fun a => decide (a.position.index ≤ index)).filter
      fun a => decide (a.position.index ≤ i)) =
        m.offsets.filter fun a => decide (a.position.index ≤ index) :=
    List.filter_eq_self.mpr fun a ha => by
      rw [List.mem_filter, decide_eq_true_iff] at ha
      exact decide_eq_true (by omega)
  conv_rhs => rw [hw.offsets_split index, List.filter_append, hbelow, List.getLast?_append,
    hw.getLast?_filter_of_runOf hrun]
  have hii : index ≤ i := by omega
  have hcons : ((r.extend index :: m.offsets.filter fun a => !decide (a.position.index ≤ index)).filter
      fun a => decide (a.position.index ≤ i)) = r.extend index ::
        (m.offsets.filter fun a => !decide (a.position.index ≤ index)).filter
          fun a => decide (a.position.index ≤ i) :=
    List.filter_cons_of_pos (decide_eq_true hii)
  show (((r.extend index :: m.offsets.filter fun a => !decide (a.position.index ≤ index)).filter
      fun a => decide (a.position.index ≤ i)).getLast?).map (·.extend i) = _
  rw [hcons, List.getLast?_cons]
  cases hafter : ((m.offsets.filter fun a => !decide (a.position.index ≤ index)).filter
      fun a => decide (a.position.index ≤ i)).getLast? with
  | none =>
    rw [Option.getD_none, Option.none_or, Option.map_some, Option.map_some,
      LogOffset.extend_extend hri hii]
  | some x => rw [Option.getD_some, Option.some_or]

end WellFormed

end LogMetadata

/-! ## `MemoryLogSync` -/

theorem LogPosition.ext_of {p q : LogPosition} (hterm : p.term = q.term)
    (hindex : p.index = q.index) : p = q := by
  cases p
  cases q
  simp only at hterm hindex
  rw [hterm, hindex]

namespace MemoryLog

variable (l : MemoryLog)

/-- Every entry of the log sits at the index its offset in the log stands for. -/
def Indexed : Prop :=
  ∀ k e, l.log[k]? = some e → e.1.pos.index = l.prev.index + 1 + k

/-- `term`: the term of `prev`, or of the entry at the index's offset. -/
theorem term_eq (index : Nat) :
    l.term index = if index = l.prev.index then some l.prev.term
      else if l.prev.index < index then
        (l.log[index - (l.prev.index + 1)]?).map (·.1.pos.term)
      else none := by
  unfold term offFor
  dsimp only
  by_cases h₁ : index = l.prev.index
  · rw [if_pos h₁, if_pos h₁]
  rw [if_neg h₁, if_neg h₁]
  by_cases h₂ : l.prev.index < index
  · rw [if_pos h₂, if_neg (by omega)]
    by_cases h₃ : index - (l.prev.index + 1) ≥ l.log.length
    · rw [if_pos h₃, List.getElem?_eq_none h₃]
      rfl
    · rw [if_neg h₃]
  · rw [if_neg h₂, if_pos (by omega)]

theorem term_prev : l.term l.prev.index = some l.prev.term := by
  rw [term_eq, if_pos rfl]

theorem lastIndex_eq : l.lastIndex = l.prev.index + l.log.length := rfl

/-- An index after `prev` and at most the last one is at its offset from `prev`. -/
theorem offFor_eq {index : Nat} (hlo : l.prev.index < index) (hhi : index ≤ l.lastIndex) :
    l.offFor index = some (index - (l.prev.index + 1)) := by
  have hlast := l.lastIndex_eq
  unfold offFor
  dsimp only
  rw [if_neg (by omega), if_neg (by omega)]

/-- A log of no entries knows only the term of `prev`. -/
theorem term_empty (prev : LogPosition) (index : Nat) :
    (⟨prev, []⟩ : MemoryLog).term index = if index = prev.index then some prev.term else none := by
  rw [term_eq]
  split_ifs <;> rfl

variable {l}

/-- `append` in `(prev, last + 1]`: the entry replaces every entry from its index on. -/
theorem append_eq {entry : LogEntry} {sequence : Nat} (hlo : l.prev.index < entry.pos.index)
    (hhi : entry.pos.index ≤ l.lastIndex + 1) :
    l.append entry sequence =
      .ok ⟨l.prev, l.log.take (entry.pos.index - (l.prev.index + 1)) ++ [(entry, sequence)]⟩ := by
  have hlast := l.lastIndex_eq
  unfold append
  by_cases hle : entry.pos.index ≤ l.lastIndex
  · -- the log is truncated at the entry's offset first
    have hoff := l.offFor_eq hlo hle
    have hnext : ({ l with log := l.log.take (entry.pos.index - (l.prev.index + 1)) } :
        MemoryLog).lastIndex + 1 = entry.pos.index := by
      simp only [lastIndex, List.length_take]
      omega
    simp only [hle, if_true, hoff, bind, Except.bind, pure, Except.pure, hnext, ne_eq,
      not_true_eq_false, if_false]
  · have htake : l.log.take (entry.pos.index - (l.prev.index + 1)) = l.log :=
      List.take_of_length_le (by omega)
    have hnext : l.lastIndex + 1 = entry.pos.index := by omega
    simp only [hle, if_false, bind, Except.bind, pure, Except.pure, htake, hnext, ne_eq,
      not_true_eq_false]

/-- `discard` at an entry after `prev`, in the entry's term, makes the entry `prev`. -/
theorem discard_inside {pos : LogPosition} (hi : l.Indexed) (hlo : l.prev.index < pos.index)
    (hhi : pos.index ≤ l.lastIndex) (hterm : l.term pos.index = some pos.term) :
    l.discard pos = .ok ⟨pos, l.log.drop (pos.index - (l.prev.index + 1) + 1)⟩ := by
  have hlast := l.lastIndex_eq
  have hk : pos.index - (l.prev.index + 1) < l.log.length := by omega
  have hoff := l.offFor_eq hlo hhi
  have hget := List.getElem?_eq_getElem hk
  have hpos : l.log[pos.index - (l.prev.index + 1)].1.pos = pos := by
    have hindex := hi _ _ hget
    rw [term_eq, if_neg (by omega), if_pos hlo, hget, Option.map_some, Option.some.injEq] at hterm
    exact LogPosition.ext_of hterm (by omega)
  unfold discard
  rw [if_neg (by omega), if_neg (by omega), hoff]
  simp only [hget, hpos, ne_eq, not_true_eq_false, if_false]

/-- `discard` past the last entry, in a term at least its own, empties the log. -/
theorem discard_past_end {pos : LogPosition} {lastTerm : Nat} (hlt : l.lastIndex < pos.index)
    (hterm : l.term l.lastIndex = some lastTerm) (hle : lastTerm ≤ pos.term) :
    l.discard pos = .ok ⟨pos, []⟩ := by
  have hlast := l.lastIndex_eq
  unfold discard
  rw [if_neg (by omega), if_pos hlt, hterm]
  dsimp only
  rw [if_neg (by omega)]

/-- `discard` at `prev` changes nothing. -/
theorem discard_prev : l.discard l.prev = .ok l := by
  unfold discard
  rw [if_pos le_rfl, if_neg (Nat.lt_irrefl _)]

/-- After `append` in `(prev, last + 1]`, the log holds the entry at its index, and what it held
before it. -/
theorem append_spec {entry : LogEntry} {sequence : Nat} (hi : l.Indexed)
    (hlo : l.prev.index < entry.pos.index) (hhi : entry.pos.index ≤ l.lastIndex + 1) :
    ∃ l', l.append entry sequence = .ok l' ∧ l'.Indexed ∧ l'.prev = l.prev ∧
      l'.lastIndex = entry.pos.index ∧
      ∀ index, l'.term index = if index < entry.pos.index then l.term index
        else if index = entry.pos.index then some entry.pos.term else none := by
  have hlast := l.lastIndex_eq
  have hlen : (l.log.take (entry.pos.index - (l.prev.index + 1))).length =
      entry.pos.index - (l.prev.index + 1) := by
    rw [List.length_take]
    omega
  refine ⟨_, append_eq hlo hhi, fun k e he => ?_, rfl, ?_, fun index => ?_⟩
  · -- the kept entries keep their indexes, and the new one comes right after them
    simp only at he ⊢
    by_cases hk : k < entry.pos.index - (l.prev.index + 1)
    · rw [List.getElem?_append_left (by omega), List.getElem?_take, if_pos hk] at he
      exact hi k e he
    · rw [List.getElem?_append_right (by omega), hlen] at he
      have hk' : k - (entry.pos.index - (l.prev.index + 1)) = 0 := by
        by_contra hne
        rw [List.getElem?_eq_none (by simp; omega)] at he
        cases he
      rw [hk', List.getElem?_singleton, if_pos rfl, Option.some.injEq] at he
      rw [← he]
      show entry.pos.index = _
      omega
  · simp only [lastIndex, List.length_append, hlen, List.length_singleton]
    omega
  · rw [term_eq, term_eq]
    simp only
    split_ifs <;> first | rfl | omega | skip
    · -- before the entry: the entries kept
      rw [List.getElem?_append_left (by rw [hlen]; omega), List.getElem?_take, if_pos (by omega)]
    · -- the entry itself
      rw [List.getElem?_append_right (by rw [hlen]; omega), hlen,
        show index - (l.prev.index + 1) - (entry.pos.index - (l.prev.index + 1)) = 0 by omega,
        List.getElem?_singleton, if_pos rfl]
      rfl
    · rw [List.getElem?_eq_none (by
        simp only [List.length_append, hlen, List.length_singleton]
        omega)]
      rfl

/-- After `discard` at an entry after `prev`, the log holds what it held from that entry on. -/
theorem discard_inside_spec {pos : LogPosition} (hi : l.Indexed) (hlo : l.prev.index < pos.index)
    (hhi : pos.index ≤ l.lastIndex) (hterm : l.term pos.index = some pos.term) :
    ∃ l', l.discard pos = .ok l' ∧ l'.Indexed ∧ l'.prev = pos ∧ l'.lastIndex = l.lastIndex ∧
      ∀ index, l'.term index = if index < pos.index then none else l.term index := by
  have hlast := l.lastIndex_eq
  refine ⟨_, discard_inside hi hlo hhi hterm, fun k e he => ?_, rfl, ?_, fun index => ?_⟩
  · simp only [List.getElem?_drop] at he ⊢
    have := hi _ e he
    omega
  · simp only [lastIndex, List.length_drop]
    omega
  · rw [term_eq, term_eq]
    simp only
    split_ifs <;> first | rfl | omega | skip
    · -- `pos` itself, in the term `discard` checked
      have hidx : index = pos.index := by omega
      rw [term_eq, if_neg (by omega), if_pos hlo] at hterm
      rw [hidx, hterm]
    · rw [List.getElem?_drop]
      congr 2
      omega

end MemoryLog

/-! ## The refinement -/

/-- A call the consensus module makes on its log and on its `LogMetadata` alike. -/
inductive LogCall
  | append (entry : LogEntry) (sequence : Nat)
  | discard (pos : LogPosition)
  deriving DecidableEq, Repr

/-- The call on `LogMetadata`, which keeps the entry's position and sequence. -/
def LogMetadata.call (m : LogMetadata) : LogCall → Except String LogMetadata
  | .append entry sequence => m.append ⟨entry.pos, sequence⟩
  | .discard pos => m.discard pos

def MemoryLog.call (l : MemoryLog) : LogCall → Except String MemoryLog
  | .append entry sequence => l.append entry sequence
  | .discard pos => l.discard pos

/-- The calls both sides accept. An append in a term at least the last entry's, with a sequence
larger than the last one, at an index in `(prev, last + 1]`; a discard at a position of the log,
or past its end in a term at least the last entry's. -/
def LogCall.Valid (m : LogMetadata) : LogCall → Prop
  | .append entry sequence => m.last.position.term ≤ entry.pos.term ∧ m.last.sequence < sequence ∧
      m.prev.position.index < entry.pos.index ∧ entry.pos.index ≤ m.last.position.index + 1
  | .discard pos => (m.lookup pos.index).map (·.position) = some pos ∨
      (m.last.position.index < pos.index ∧ m.last.position.term ≤ pos.term)

instance (m : LogMetadata) : (c : LogCall) → Decidable (c.Valid m)
  | .append _ _ => inferInstanceAs (Decidable (_ ∧ _ ∧ _ ∧ _))
  | .discard _ => inferInstanceAs (Decidable (_ ∨ _))

/-- `LogMetadata` describes the log: the same `prev`, the same last index and the same term at
every index. -/
structure Refines (m : LogMetadata) (l : MemoryLog) : Prop where
  wellFormed : m.WellFormed
  indexed : l.Indexed
  prev : m.prev.position = l.prev
  lastIndex : m.last.position.index = l.lastIndex
  term : ∀ index, (m.lookup index).map (·.position.term) = l.term index

theorem refines_new : Refines LogMetadata.new {} where
  wellFormed := LogMetadata.wellFormed_new
  indexed := fun k e h => by simp at h
  prev := rfl
  lastIndex := rfl
  term := fun index => by
    rw [show LogMetadata.new = LogMetadata.single LogOffset.zero from rfl,
      LogMetadata.lookup_single, MemoryLog.term_empty]
    by_cases h : index = 0 <;> simp [h, LogOffset.zero, LogPosition.zero]

namespace Refines

variable {m : LogMetadata} {l : MemoryLog}

/-- The step lemma: a call valid at `m` succeeds on both sides and keeps the relation. -/
theorem call (h : Refines m l) {c : LogCall} (hv : c.Valid m) :
    ∃ m' l', m.call c = .ok m' ∧ l.call c = .ok l' ∧ Refines m' l' := by
  have hprev : l.prev.index = m.prev.position.index := by rw [← h.prev]
  cases c with
  | append entry sequence =>
    obtain ⟨hterm, hseq, hlo, hhi⟩ := hv
    obtain ⟨m', hm, hw', hprev', hlast', hlookup⟩ :=
      @LogMetadata.WellFormed.append m h.wellFormed ⟨entry.pos, sequence⟩ hterm hseq hlo hhi
    obtain ⟨l', hl, hi', hprevl, hlastl, htermL⟩ :=
      @MemoryLog.append_spec l entry sequence h.indexed (by omega)
        (by rw [← h.lastIndex]; exact hhi)
    refine ⟨m', l', hm, hl, hw', hi', by rw [hprev', hprevl, h.prev], ?_, fun index => ?_⟩
    · rw [hlast', hlastl]
    · rw [hlookup, htermL]
      split_ifs
      · exact h.term index
      · rfl
      · rfl
  | discard pos =>
    rcases hv with hpos | ⟨hlt, hterm⟩
    · obtain ⟨o, ho, hopos⟩ := Option.map_eq_some_iff.mp hpos
      have hin := (h.wellFormed.lookup_eq_none_iff pos.index).not.mp (by rw [ho]; simp)
      have htermPos : l.term pos.index = some pos.term := by
        rw [← h.term, ho, Option.map_some, ← hopos]
      by_cases hle : pos.index ≤ m.prev.position.index
      · -- at `prev`: nothing changes
        have hpos_prev : pos = l.prev := by
          have hidx : pos.index = l.prev.index := by omega
          rw [hidx, MemoryLog.term_prev, Option.some.injEq] at htermPos
          exact LogPosition.ext_of htermPos.symm hidx
        refine ⟨m, l, h.wellFormed.discard_of_le_prev hle, ?_, h⟩
        rw [hpos_prev]
        exact MemoryLog.discard_prev
      · -- inside the log: the entry at `pos` becomes `prev`
        obtain ⟨l', hl, hi', hprevl, hlastl, htermL⟩ :=
          MemoryLog.discard_inside_spec h.indexed (by omega)
            (by rw [← h.lastIndex]; omega) htermPos
        refine ⟨m.startingAt o, l', h.wellFormed.discard_inside (by omega) ho hopos, hl,
          h.wellFormed.startingAt ho, hi', by rw [hprevl]; exact hopos, ?_, fun index => ?_⟩
        · rw [hlastl, ← h.lastIndex]
          rfl
        · rw [h.wellFormed.lookup_startingAt ho, htermL]
          split_ifs
          · rfl
          · exact h.term index
    · -- past the end: the log is emptied
      have hlastTerm : l.term l.lastIndex = some m.last.position.term := by
        rw [← h.lastIndex, ← h.term, h.wellFormed.lookup_last, Option.map_some]
      refine ⟨_, _, LogMetadata.discard_past_end hlt,
        MemoryLog.discard_past_end (by rw [← h.lastIndex]; exact hlt) hlastTerm hterm,
        LogMetadata.wellFormed_single _, fun k e he => by simp at he, rfl, rfl, fun index => ?_⟩
      rw [LogMetadata.lookup_single, MemoryLog.term_empty]
      split_ifs <;> rfl

end Refines

/-- The calls, one after another, on `LogMetadata`. -/
def LogMetadata.callAll (m : LogMetadata) (calls : List LogCall) : Except String LogMetadata :=
  calls.foldlM LogMetadata.call m

def MemoryLog.callAll (l : MemoryLog) (calls : List LogCall) : Except String MemoryLog :=
  calls.foldlM MemoryLog.call l

/-- Every call is valid at the `LogMetadata` the calls before it left. -/
def ValidRun : LogMetadata → List LogCall → Prop
  | _, [] => True
  | m, c :: cs => c.Valid m ∧ ∀ m', m.call c = .ok m' → ValidRun m' cs

instance decValidRun : (m : LogMetadata) → (calls : List LogCall) → Decidable (ValidRun m calls)
  | _, [] => inferInstanceAs (Decidable True)
  | m, c :: cs =>
    match h : m.call c with
    | .ok m' =>
      have := decValidRun m' cs
      decidable_of_iff (c.Valid m ∧ ValidRun m' cs) (by simp [ValidRun, h])
    | .error _ => decidable_of_iff (c.Valid m) (by simp [ValidRun, h])

/-- The run lemma: valid calls succeed on both sides and keep the relation. -/
theorem Refines.callAll : ∀ {m : LogMetadata} {l : MemoryLog} (calls : List LogCall),
    Refines m l → ValidRun m calls →
      ∃ m' l', m.callAll calls = .ok m' ∧ l.callAll calls = .ok l' ∧ Refines m' l'
  | m, l, [], h, _ => ⟨m, l, rfl, rfl, h⟩
  | m, l, c :: cs, h, ⟨hv, hrest⟩ => by
    obtain ⟨m₁, l₁, hm, hl, h₁⟩ := h.call hv
    obtain ⟨m', l', hm', hl', h'⟩ := Refines.callAll cs h₁ (hrest m₁ hm)
    refine ⟨m', l', ?_, ?_, h'⟩
    · simp only [LogMetadata.callAll, List.foldlM_cons, hm, bind, Except.bind]
      exact hm'
    · simp only [MemoryLog.callAll, List.foldlM_cons, hl, bind, Except.bind]
      exact hl'

/-- Appends and discards that both sides accept, made from a new `LogMetadata` and a new
`MemoryLogSync` alike, leave them agreeing on the term of every index and on the last index;
`lookup` finds nothing exactly outside `[prev, last]`, and `lookup_seq` gives back what `lookup`
finds. -/
theorem callAll_refines_memoryLog (calls : List LogCall) (hv : ValidRun LogMetadata.new calls) :
    ∃ m l, LogMetadata.new.callAll calls = .ok m ∧ ({} : MemoryLog).callAll calls = .ok l ∧
      (∀ index, (m.lookup index).map (·.position.term) = l.term index) ∧
      (∀ index, m.lookup index = none ↔
        index < m.prev.position.index ∨ m.last.position.index < index) ∧
      m.last.position.index = l.lastIndex ∧
      ∀ index o, m.lookup index = some o → m.lookupSeq o.sequence = some o := by
  obtain ⟨m, l, hm, hl, h⟩ := Refines.callAll calls refines_new hv
  exact ⟨m, l, hm, hl, h.term, h.wellFormed.lookup_eq_none_iff, h.lastIndex,
    fun _ _ ho => h.wellFormed.lookupSeq_lookup ho⟩

/-- Entries 1 to 4 in two terms, a discard inside the log, an append that replaces entry 4, and
a discard past the end. -/
def sampleCalls : List LogCall :=
  [.append ⟨⟨1, 1⟩, .noop true⟩ 1, .append ⟨⟨1, 2⟩, .noop true⟩ 2,
    .append ⟨⟨2, 3⟩, .noop true⟩ 3, .append ⟨⟨2, 4⟩, .noop true⟩ 4, .discard ⟨1, 2⟩,
    .append ⟨⟨3, 4⟩, .noop true⟩ 6, .discard ⟨3, 6⟩]

theorem callAll_refines_memoryLog_sample : ValidRun LogMetadata.new sampleCalls ∧
    ∃ m l, LogMetadata.new.callAll sampleCalls = .ok m ∧
      ({} : MemoryLog).callAll sampleCalls = .ok l ∧
      (∀ index, (m.lookup index).map (·.position.term) = l.term index) ∧
      (∀ index, m.lookup index = none ↔
        index < m.prev.position.index ∨ m.last.position.index < index) ∧
      m.last.position.index = l.lastIndex ∧
      ∀ index o, m.lookup index = some o → m.lookupSeq o.sequence = some o :=
  ⟨by decide, callAll_refines_memoryLog sampleCalls (by decide)⟩

/-- Past the end of the log, a discard in an older term than the last entry's: `MemoryLogSync`
refuses it and keeps its entry, while `LogMetadata` moves past it. After a discard past the end
in a newer term, an append in a term between the two, which the log takes, fails the assertion
of `LogMetadata::append`. -/
theorem discard_past_end_diverges :
    (LogMetadata.new.callAll [.append ⟨⟨2, 1⟩, .noop true⟩ 1, .discard ⟨1, 5⟩]).map
        (·.last.position.index) = .ok 5 ∧
      ({} : MemoryLog).callAll [.append ⟨⟨2, 1⟩, .noop true⟩ 1, .discard ⟨1, 5⟩] =
        .error "Discarding must strictly use monotonic terms" ∧
      LogMetadata.new.callAll [.append ⟨⟨1, 1⟩, .noop true⟩ 1, .discard ⟨5, 3⟩,
          .append ⟨⟨2, 4⟩, .noop true⟩ 2] =
        .error "assertion failed: offset.position.term() >= self.last().position.term()" ∧
      (({} : MemoryLog).callAll [.append ⟨⟨1, 1⟩, .noop true⟩ 1, .discard ⟨5, 3⟩,
          .append ⟨⟨2, 4⟩, .noop true⟩ 2]).map (·.lastIndex) = .ok 4 := by
  decide

end Dacha.Raft
