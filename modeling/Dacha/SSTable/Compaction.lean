import Dacha.SSTable.Db

/-!
# The compaction filter (`db/db.rs:983-1035`)

`build_tables_from_iterator` reads the merged entries in internal-key order: user keys ascending,
the versions of one key newest first. Its filter keeps every version above the compaction
waterline and, of the versions at or below it, only the newest, unless that is a deletion it
may drop. A read at a sequence at or above the waterline sees the newest version of the key at
or below its sequence. The filter keeps that version, or it is a dropped deletion and the
filter drops every older version of the key with it: the read sees the same either way.

`keptEntries` runs the filter over the entries, and the tables `build_tables_from_iterator`
writes hold exactly what it keeps (`buildTablesFromIterator_entries`). `visible` is what a read
sees.
-/

namespace Dacha.SSTable

open Dacha.Common

/-- The entries are in internal-key order: user keys ascending, sequences descending. -/
def KeyOrdered (entries : List KeyValueEntry) : Prop :=
  entries.Pairwise fun a b => (a.key.compare b.key).isLE

instance (entries : List KeyValueEntry) : Decidable (KeyOrdered entries) :=
  inferInstanceAs (Decidable (entries.Pairwise _))

/-- What a read at `sequence` sees of `userKey`: the first version of the key at or below the
sequence, which in internal-key order is the newest one, with a deletion as nothing. -/
def visible (entries : List KeyValueEntry) (userKey : List UInt8) (sequence : Nat) :
    Option KeyValueEntry :=
  match entries.find? fun e => e.key.userKey = userKey ∧ e.key.sequence ≤ sequence with
  | some e => if e.key.typ = .Deletion then none else some e
  | none => none

/-- The entries the compaction filter keeps, in order, from the filter state `st`. -/
def keptEntries (removeDeleted : Bool) (waterline : Nat) :
    BuildState → List KeyValueEntry → List KeyValueEntry
  | _, [] => []
  | st, e :: es =>
    if (st.filter removeDeleted waterline e).1 then
      e :: keptEntries removeDeleted waterline (st.filter removeDeleted waterline e).2 es
    else keptEntries removeDeleted waterline (st.filter removeDeleted waterline e).2 es

-- The equations of the run, stated once so that proofs rewrite with these rather than asking
-- for the generated equation lemmas of the recursion.
theorem keptEntries_nil (removeDeleted : Bool) (waterline : Nat) (st : BuildState) :
    keptEntries removeDeleted waterline st [] = [] := rfl

theorem keptEntries_cons_ite (removeDeleted : Bool) (waterline : Nat) (st : BuildState)
    (e : KeyValueEntry) (es : List KeyValueEntry) :
    keptEntries removeDeleted waterline st (e :: es) =
      if (st.filter removeDeleted waterline e).1 then
        e :: keptEntries removeDeleted waterline (st.filter removeDeleted waterline e).2 es
      else keptEntries removeDeleted waterline (st.filter removeDeleted waterline e).2 es := rfl

/-- The filter treats the next version of `userKey` at or below the waterline as the first one:
either it is on another key, or no version of this one has been at or below the waterline. -/
def BuildState.FreshFor (st : BuildState) (userKey : List UInt8) : Prop :=
  st.lastUserKey = some userKey → st.lastEntryBelowWaterline = false

/-! ## One entry -/

section Step

variable (removeDeleted : Bool) (waterline : Nat) (st : BuildState) (e : KeyValueEntry)

theorem filter_lastUserKey :
    (st.filter removeDeleted waterline e).2.lastUserKey = some e.key.userKey := by
  rw [BuildState.filter_def]
  by_cases hk : st.lastUserKey = some e.key.userKey <;>
    by_cases hw : e.key.sequence > waterline <;>
    cases hb : st.lastEntryBelowWaterline <;> simp [hk, hw, hb]

theorem filter_freshFor_of_ne {userKey : List UInt8} (hne : e.key.userKey ≠ userKey) :
    (st.filter removeDeleted waterline e).2.FreshFor userKey := by
  intro h
  rw [filter_lastUserKey removeDeleted waterline st e, Option.some.injEq] at h
  exact absurd h hne

/-- A version above the waterline is kept, and leaves the key fresh when it was. -/
theorem filter_above (hw : waterline < e.key.sequence) (hfresh : st.FreshFor e.key.userKey) :
    (st.filter removeDeleted waterline e).1 = true ∧
      (st.filter removeDeleted waterline e).2.FreshFor e.key.userKey := by
  refine ⟨?_, fun _ => ?_⟩
  · rw [BuildState.filter_def]
    simp [hw]
  · rw [BuildState.filter_def]
    by_cases hk : st.lastUserKey = some e.key.userKey
    · simp [hk, hw, hfresh hk]
    · simp [hk, hw]

/-- The first version at or below the waterline is kept unless it is a deletion that may be
dropped; after it the key is no longer fresh. -/
theorem filter_first_below (hw : e.key.sequence ≤ waterline) (hfresh : st.FreshFor e.key.userKey) :
    (st.filter removeDeleted waterline e).1 = !(removeDeleted && e.key.typ == .Deletion) ∧
      (st.filter removeDeleted waterline e).2.lastEntryBelowWaterline = true := by
  have hnot : ¬ e.key.sequence > waterline := by omega
  rw [BuildState.filter_def]
  by_cases hk : st.lastUserKey = some e.key.userKey
  · simp [hk, hnot, hfresh hk]
  · simp [hk, hnot]

/-- A later version at or below the waterline is dropped, and changes nothing. -/
theorem filter_later_below (hw : e.key.sequence ≤ waterline)
    (hk : st.lastUserKey = some e.key.userKey) (hbelow : st.lastEntryBelowWaterline = true) :
    st.filter removeDeleted waterline e = (false, st) := by
  have hnot : ¬ e.key.sequence > waterline := by omega
  rw [BuildState.filter_def]
  simp [hk, hnot, hbelow]

end Step

/-! ## What reads see -/

section Visible

variable {userKey : List UInt8} {sequence : Nat} {e : KeyValueEntry} {es : List KeyValueEntry}

theorem visible_cons_of_not (h : ¬ (e.key.userKey = userKey ∧ e.key.sequence ≤ sequence)) :
    visible (e :: es) userKey sequence = visible es userKey sequence := by
  simp only [visible, List.find?_cons, h, decide_false]

theorem visible_cons_of (h : e.key.userKey = userKey ∧ e.key.sequence ≤ sequence) :
    visible (e :: es) userKey sequence = if e.key.typ = .Deletion then none else some e := by
  simp only [visible, List.find?_cons, h, and_self, decide_true]

theorem visible_of_forall_ne (h : ∀ e ∈ es, e.key.userKey ≠ userKey) :
    visible es userKey sequence = none := by
  have hnone : es.find? (fun e => e.key.userKey = userKey ∧ e.key.sequence ≤ sequence) = none :=
    List.find?_eq_none.mpr fun e he hp => h e he (of_decide_eq_true hp).1
  simp only [visible, hnone]

end Visible

/-! ## Internal-key order -/

/-- User keys between `userKey` and itself are `userKey`. -/
theorem userKey_eq_of_isLE {a b : List UInt8} (hab : (bytewiseCompare a b).isLE)
    (hba : (bytewiseCompare b a).isLE) : a = b := by
  rw [bytewiseCompare_eq_compare] at hab hba
  rw [← bytewiseCompare_eq_iff, bytewiseCompare_eq_compare]
  rw [@Std.OrientedCmp.eq_swap _ compare _ b a] at hba
  cases hc : compare a b <;> simp_all

/-- Two versions of one user key in internal-key order: the later is not newer. -/
theorem sequence_le_of_isLE {a b : InternalKey} (h : (a.compare b).isLE)
    (hk : a.userKey = b.userKey) : b.sequence ≤ a.sequence := by
  unfold InternalKey.compare at h
  rw [hk, bytewiseCompare_self] at h
  cases hc : compare b.sequence a.sequence with
  | lt => exact Nat.le_of_lt (Nat.compare_eq_lt.mp hc)
  | eq => exact Nat.le_of_eq (Nat.compare_eq_eq.mp hc)
  | gt =>
    rw [hc] at h
    cases h

/-- After a version of `userKey`, the versions of `userKey` come first. -/
theorem KeyOrdered.prefixClosed {e : KeyValueEntry} {es : List KeyValueEntry}
    (h : KeyOrdered (e :: es)) :
    PrefixClosed (fun a => a.key.userKey == e.key.userKey) es := by
  obtain ⟨hfirst, hrest⟩ := List.pairwise_cons.mp h
  refine List.Pairwise.imp_of_mem (fun {a b} ha _ hab hb => ?_) hrest
  simp only [beq_iff_eq] at hb ⊢
  have hea := InternalKey.userKey_isLE (hfirst a ha)
  have hab' := InternalKey.userKey_isLE hab
  rw [hb] at hab'
  exact userKey_eq_of_isLE hab' hea

/-! ## The filter over a run of entries -/

section Run

variable {removeDeleted : Bool} {waterline : Nat}

theorem keptEntries_sublist : ∀ (st : BuildState) (es : List KeyValueEntry),
    (keptEntries removeDeleted waterline st es).Sublist es
  | _, [] => List.Sublist.slnil
  | st, e :: es => by
    rw [keptEntries_cons_ite]
    split
    · exact (keptEntries_sublist _ es).cons_cons e
    · exact (keptEntries_sublist _ es).cons e

theorem keptEntries_cons (st : BuildState) (e : KeyValueEntry) (es : List KeyValueEntry) :
    keptEntries removeDeleted waterline st (e :: es) =
      (if (st.filter removeDeleted waterline e).1 then [e] else []) ++
        keptEntries removeDeleted waterline (st.filter removeDeleted waterline e).2 es := by
  rw [keptEntries_cons_ite]
  split <;> simp

/-- Once the newest version of `userKey` at or below the waterline has gone by, the filter keeps
no version of the key from the versions left, which are all at or below the waterline. -/
theorem keptEntries_after_first_below {userKey : List UInt8} : ∀ {st : BuildState}
    {es : List KeyValueEntry}, st.lastUserKey = some userKey →
    st.lastEntryBelowWaterline = true → PrefixClosed (fun a => a.key.userKey == userKey) es →
    (∀ e ∈ es, e.key.userKey = userKey → e.key.sequence ≤ waterline) →
    ∀ e ∈ keptEntries removeDeleted waterline st es, e.key.userKey ≠ userKey
  | _, [], _, _, _, _ => by simp [keptEntries_nil]
  | st, e :: es, hk, hbelow, hpc, hle => by
    obtain ⟨hfirst, hpc'⟩ := List.pairwise_cons.mp hpc
    by_cases he : e.key.userKey = userKey
    · -- another version of the key at or below the waterline: dropped
      have hdrop := filter_later_below removeDeleted waterline st e
        (hle e List.mem_cons_self he) (by rw [hk, he]) hbelow
      rw [keptEntries_cons_ite, hdrop]
      exact keptEntries_after_first_below hk hbelow hpc'
        fun a ha => hle a (List.mem_cons_of_mem _ ha)
    · -- past the key: no version of it is left
      intro a ha
      rcases List.mem_cons.mp ((keptEntries_sublist st (e :: es)).subset ha) with rfl | ha
      · exact he
      · intro hak
        exact he (by simpa using hfirst a ha (by simpa using hak))

/-- The run lemma: from a state fresh for `userKey`, a read at or above the waterline sees the
same in the kept entries as in all of them. -/
theorem visible_keptEntries {userKey : List UInt8} {sequence : Nat}
    (hs : waterline ≤ sequence) : ∀ {st : BuildState} {es : List KeyValueEntry},
    KeyOrdered es → st.FreshFor userKey →
    visible (keptEntries removeDeleted waterline st es) userKey sequence =
      visible es userKey sequence
  | _, [], _, _ => rfl
  | st, e :: es, hord, hfresh => by
    have hord' : KeyOrdered es := (List.pairwise_cons.mp hord).2
    rw [keptEntries_cons_ite]
    by_cases he : e.key.userKey = userKey
    · subst he
      by_cases hw : waterline < e.key.sequence
      · -- above the waterline: kept, and the key stays fresh
        obtain ⟨hkeep, hfresh'⟩ := filter_above removeDeleted waterline st e hw hfresh
        rw [if_pos hkeep]
        by_cases hseq : e.key.sequence ≤ sequence
        · rw [visible_cons_of ⟨rfl, hseq⟩, visible_cons_of ⟨rfl, hseq⟩]
        · rw [visible_cons_of_not (by omega), visible_cons_of_not (by omega)]
          exact visible_keptEntries hs hord' hfresh'
      · -- the newest version at or below the waterline, which the read sees
        have hseq : e.key.sequence ≤ sequence := by omega
        obtain ⟨hkeep, hbelow⟩ :=
          filter_first_below removeDeleted waterline st e (by omega) hfresh
        by_cases hk : (st.filter removeDeleted waterline e).1
        · rw [if_pos hk, visible_cons_of ⟨rfl, hseq⟩, visible_cons_of ⟨rfl, hseq⟩]
        · -- a dropped deletion: every older version of the key is dropped with it
          rw [if_neg hk, visible_cons_of ⟨rfl, hseq⟩]
          have hdel : e.key.typ = .Deletion := by
            rw [hkeep] at hk
            exact (by simpa using hk : removeDeleted = true ∧ e.key.typ = .Deletion).2
          rw [if_pos hdel]
          refine visible_of_forall_ne (keptEntries_after_first_below
            (filter_lastUserKey removeDeleted waterline st e)
            hbelow (KeyOrdered.prefixClosed hord) fun a ha hak => ?_)
          have := sequence_le_of_isLE ((List.pairwise_cons.mp hord).1 a ha) hak.symm
          omega
    · -- another key: the read skips it in both
      have hfresh' := filter_freshFor_of_ne removeDeleted waterline st e he
      have hnot : ¬ (e.key.userKey = userKey ∧ e.key.sequence ≤ sequence) := fun h => he h.1
      split
      · rw [visible_cons_of_not hnot, visible_cons_of_not hnot]
        exact visible_keptEntries hs hord' hfresh'
      · rw [visible_cons_of_not hnot]
        exact visible_keptEntries hs hord' hfresh'

end Run

/-! ## The tables written -/

/-- The two fields the filter reads. -/
def BuildState.SameFilter (st₁ st₂ : BuildState) : Prop :=
  st₁.lastUserKey = st₂.lastUserKey ∧ st₁.lastEntryBelowWaterline = st₂.lastEntryBelowWaterline

/-- The entries written so far: the finished tables', then the current table's. -/
def BuildState.written (st : BuildState) : List KeyValueEntry :=
  st.tables.flatMap Table.entries ++ (st.currentTable.map CurrentTable.entries).getD []

section Written

variable {sizes : TableSizes} {removeDeleted : Bool} {targetFileSize level waterline : Nat}

theorem filter_sameFilter {st₁ st₂ : BuildState} (e : KeyValueEntry)
    (h : st₁.SameFilter st₂) :
    (st₁.filter removeDeleted waterline e).1 = (st₂.filter removeDeleted waterline e).1 ∧
      (st₁.filter removeDeleted waterline e).2.SameFilter
        (st₂.filter removeDeleted waterline e).2 := by
  obtain ⟨hk, hb⟩ := h
  simp only [BuildState.filter_def]
  unfold BuildState.SameFilter
  by_cases hk₂ : st₂.lastUserKey = some e.key.userKey <;>
    by_cases hw : e.key.sequence > waterline <;>
    cases hb₂ : st₂.lastEntryBelowWaterline <;> simp [hk, hb, hk₂, hw, hb₂]

theorem keptEntries_congr : ∀ {st₁ st₂ : BuildState} (es : List KeyValueEntry),
    st₁.SameFilter st₂ →
    keptEntries removeDeleted waterline st₁ es = keptEntries removeDeleted waterline st₂ es
  | _, _, [], _ => rfl
  | st₁, st₂, e :: es, h => by
    obtain ⟨hkeep, hsame⟩ := filter_sameFilter e h
    rw [keptEntries_cons_ite, keptEntries_cons_ite, hkeep, keptEntries_congr es hsame]

/-- The filter writes nothing. -/
theorem filter_written (st : BuildState) (e : KeyValueEntry) :
    (st.filter removeDeleted waterline e).2.written = st.written := by
  rw [BuildState.filter_def]
  by_cases hk : st.lastUserKey = some e.key.userKey <;>
    by_cases hw : e.key.sequence > waterline <;>
    cases hb : st.lastEntryBelowWaterline <;> simp [hk, hw, hb, BuildState.written]

theorem currentOrOpen_entries {st : BuildState} {e : KeyValueEntry} {t : CurrentTable}
    {edit : VersionEdit} (h : st.currentOrOpen e = .ok (t, edit)) :
    t.entries = (st.currentTable.map CurrentTable.entries).getD [] := by
  unfold BuildState.currentOrOpen at h
  cases hc : st.currentTable with
  | some t' =>
    rw [hc] at h
    cases h
    rfl
  | none =>
    rw [hc] at h
    cases hn : st.edit.nextFileNumber with
    | none => rw [hn] at h; cases h
    | some number =>
      rw [hn] at h
      cases h
      rfl

/-- The step lemma: one entry of the loop writes the entry when the filter keeps it, and leaves
the filter state as the filter left it. -/
theorem buildStep_written {st st' : BuildState} {e : KeyValueEntry}
    (h : buildStep sizes removeDeleted targetFileSize level waterline st e = .ok st') :
    st'.written = st.written ++ (if (st.filter removeDeleted waterline e).1 then [e] else []) ∧
      st'.SameFilter (st.filter removeDeleted waterline e).2 := by
  have hw := @filter_written removeDeleted waterline st e
  unfold buildStep at h
  generalize st.filter removeDeleted waterline e = f at h hw ⊢
  obtain ⟨keep, st₁⟩ := f
  cases keep with
  | false =>
    cases h
    exact ⟨by simp [hw], rfl, rfl⟩
  | true =>
    simp only [Bool.not_true, Bool.false_eq_true, if_false, bind, Except.bind] at h
    cases ho : st₁.currentOrOpen e with
    | error err => rw [ho] at h; cases h
    | ok te =>
      obtain ⟨t, edit⟩ := te
      have ht := currentOrOpen_entries ho
      rw [ho] at h
      dsimp only at h hw
      rw [← hw]
      split at h <;> cases h <;>
        simp [BuildState.written, CurrentTable.finish, ht, BuildState.SameFilter]

/-- The run lemma: the loop writes what the filter keeps. -/
theorem foldlM_buildStep_written : ∀ {st st' : BuildState} (es : List KeyValueEntry),
    es.foldlM (buildStep sizes removeDeleted targetFileSize level waterline) st = .ok st' →
    st'.written = st.written ++ keptEntries removeDeleted waterline st es
  | st, st', [], h => by
    cases h
    simp [keptEntries_nil]
  | st, st', e :: es, h => by
    rw [List.foldlM_cons] at h
    cases hstep : buildStep sizes removeDeleted targetFileSize level waterline st e with
    | error err => rw [hstep] at h; cases h
    | ok st₁ =>
      rw [hstep] at h
      obtain ⟨hwritten, hsame⟩ := buildStep_written hstep
      rw [foldlM_buildStep_written es h, hwritten, keptEntries_congr es hsame, keptEntries_cons,
        List.append_assoc]

/-- The tables that `build_tables_from_iterator` returns hold, in order, the entries its filter
keeps. -/
theorem buildTablesFromIterator_entries {entries : List KeyValueEntry} {edit edit' : VersionEdit}
    {tables : List Table}
    (h : buildTablesFromIterator sizes removeDeleted targetFileSize level waterline entries edit =
      .ok (tables, edit')) :
    tables.flatMap Table.entries =
      keptEntries removeDeleted waterline ⟨none, none, 0, false, edit, []⟩ entries := by
  unfold buildTablesFromIterator at h
  simp only [bind, Except.bind] at h
  cases hrun : entries.foldlM (buildStep sizes removeDeleted targetFileSize level waterline)
      ⟨none, none, 0, false, edit, []⟩ with
  | error err => rw [hrun] at h; cases h
  | ok st =>
    rw [hrun] at h
    dsimp only at h
    have hwritten := foldlM_buildStep_written entries hrun
    simp only [BuildState.written, List.flatMap_nil, Option.map_none, Option.getD_none,
      List.append_nil, List.nil_append] at hwritten
    cases hc : st.currentTable with
    | none =>
      rw [hc] at h hwritten
      cases h
      simpa using hwritten
    | some t =>
      rw [hc] at h hwritten
      cases h
      simpa [CurrentTable.finish] using hwritten

/-- What a read at or above the waterline sees of the tables `build_tables_from_iterator` writes
is what it sees of the entries. -/
theorem visible_buildTablesFromIterator {entries : List KeyValueEntry} (hord : KeyOrdered entries)
    {edit edit' : VersionEdit} {tables : List Table}
    (h : buildTablesFromIterator sizes removeDeleted targetFileSize level waterline entries edit =
      .ok (tables, edit')) (userKey : List UInt8) {sequence : Nat} (hs : waterline ≤ sequence) :
    visible (tables.flatMap Table.entries) userKey sequence = visible entries userKey sequence := by
  rw [buildTablesFromIterator_entries h]
  exact visible_keptEntries hs hord fun h => by cases h

end Written

/-- For entries in internal-key order, any compaction waterline and either `remove_deleted`, a
read at a sequence at or above the waterline sees the same version of every user key in what
the filter of `build_tables_from_iterator` keeps as in all the entries. -/
theorem visible_kept_eq_visible {entries : List KeyValueEntry} (hord : KeyOrdered entries)
    (removeDeleted : Bool) (waterline : Nat) (edit : VersionEdit) (userKey : List UInt8)
    (sequence : Nat) (hs : waterline ≤ sequence) :
    visible (keptEntries removeDeleted waterline ⟨none, none, 0, false, edit, []⟩ entries)
      userKey sequence = visible entries userKey sequence :=
  visible_keptEntries hs hord fun h => by cases h

/-- Three versions of key `1` and two of key `2`, with deletions, and the waterline at `3`. -/
def filterSample : List KeyValueEntry :=
  [⟨⟨[1], 5, .Value⟩, [5]⟩, ⟨⟨[1], 3, .Deletion⟩, []⟩, ⟨⟨[1], 2, .Value⟩, [2]⟩,
    ⟨⟨[2], 4, .Deletion⟩, []⟩, ⟨⟨[2], 1, .Value⟩, [1]⟩]

theorem visible_kept_eq_visible_sample :
    KeyOrdered filterSample ∧ 3 ≤ 4 ∧
      visible (keptEntries true 3 ⟨none, none, 0, false, {}, []⟩ filterSample) [1] 4 =
        visible filterSample [1] 4 :=
  ⟨by decide, by decide, visible_kept_eq_visible (by decide) true 3 {} [1] 4 (by decide)⟩

/-- The sample written in tables of two entries, with sizes counted in entries, from file
number 10 on. -/
theorem visible_buildTablesFromIterator_sample :
    ∃ tables edit', buildTablesFromIterator ⟨List.length, List.length⟩ true 2 1 3 filterSample
        { nextFileNumber := some 10 } = .ok (tables, edit') ∧
      visible (tables.flatMap Table.entries) [1] 4 = visible filterSample [1] 4 := by
  have hrun : (buildTablesFromIterator ⟨List.length, List.length⟩ true 2 1 3 filterSample
      { nextFileNumber := some 10 }).toOption.any (fun _ => true) = true := by
    decide +kernel
  obtain ⟨⟨tables, edit'⟩, h, -⟩ := Dacha.Run.exists_ok_of_any hrun
  exact ⟨tables, edit', h, visible_buildTablesFromIterator (by decide) h [1] (by decide)⟩

end Dacha.SSTable
