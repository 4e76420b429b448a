import Dacha.SSTable.Db

/-!
# The level invariant of a version (`db/version.rs`, `db/level_iterator.rs`)

`LevelIterator` reads the tables of a level one after another, and seeks by the tables' largest
keys (`lower_bound_by`). It yields the level's entries in key order only when the tables of the
level are ordered by key and their key ranges do not overlap; every level from 1 on is meant to be
so (`version.rs:590-591`). Level 0 holds memtables as they were flushed, in any key range.

The compaction thread places its output by the level it passes to `build_tables_from_iterator`.
A flush passes the level `pick_memtable_level` chose, where no table overlaps the memtable. A
level or stale-table compaction passes `1` (`db.rs:846-854`), whatever level the compaction
chose and whatever tables level 1 holds.

A flush drops deletions (`remove_deleted`) when `pick_memtable_level` found no table overlapping
the memtable. It compares key ranges of internal keys, where the versions of one user key are
ordered newest first: a memtable holding only newer versions of a key is entirely below a table
holding an older one, and does not overlap it.
-/

namespace Dacha.SSTable

/-- Every level from 1 on is ordered by key with disjoint key ranges: the largest key of each
table is below the smallest key of every later table of the level. -/
def Version.LevelsDisjoint (v : Version) : Prop :=
  ∀ level ∈ v.levels.drop 1, level.tables.Pairwise fun a b =>
    a.entry.largestKey.compare b.entry.smallestKey = .lt

instance (v : Version) : Decidable v.LevelsDisjoint :=
  inferInstanceAs (Decidable (∀ level ∈ v.levels.drop 1, _))

/-- The states of a database created with `options`, whatever order the scheduler runs the
writers and the compaction thread in. -/
inductive Reachable (sizes : TableSizes) (options : EmbeddedDBOptions) : EmbeddedDBState → Prop
  | create {db} : EmbeddedDBState.create options = .ok db → Reachable sizes options db
  | step {db db'} (e : Event) :
    Reachable sizes options db → db.step sizes e = .ok db' → Reachable sizes options db'

/-- Every state a run reaches from a created database is reachable. -/
theorem Reachable.run {sizes : TableSizes} {options : EmbeddedDBOptions}
    {db db' : EmbeddedDBState} (events : List Event) (h : Reachable sizes options db)
    (hrun : db.run sizes events = .ok db') : Reachable sizes options db' := by
  rw [EmbeddedDBState.run_eq_foldlM] at hrun
  exact Dacha.Run.foldlM_inv (I := Reachable sizes options) events
    (fun _ e _ _ hs hstep => .step e hs hstep) db db' h hrun

/-- A property that evaluation finds true of the state a run reaches from a created database
holds of a reachable state: how a run on concrete events is turned into a reachable witness. -/
theorem Reachable.exists_of_run {sizes : TableSizes} {options : EmbeddedDBOptions}
    {P : EmbeddedDBState → Prop} [DecidablePred P] (events : List Event)
    (h : (EmbeddedDBState.create options).toOption.any
      (fun db₀ => (db₀.run sizes events).toOption.any fun db => decide (P db)) = true) :
    ∃ db, Reachable sizes options db ∧ P db := by
  obtain ⟨db₀, hcreate, hrun⟩ := Dacha.Run.exists_ok_of_any h
  obtain ⟨db, hdb, hP⟩ := Dacha.Run.exists_ok_of_any hrun
  exact ⟨db, Reachable.run events (.create hcreate) hdb, of_decide_eq_true hP⟩

/-! ## Invariants of the version set

Every change of the version set is an edit (`apply_new_edit`), so a property that every edit
keeps, and that the empty version set has, holds on every reachable state. -/

namespace EmbeddedDBState

open Dacha.Run

section Frame

variable {P : VersionSet → Prop} (hP : VersionSet.EditInvariant P) {db db' : EmbeddedDBState}
include hP

theorem create_versionSet {options : EmbeddedDBOptions} (hnew : P (VersionSet.new options))
    (h : create options = .ok db) : P db.versionSet := by
  obtain ⟨vs₁, vs₂, h₁, h₂, h₃, -⟩ := create_ok h
  exact hP.ite_pure (hP.ite (hP hnew h₁) h₂) h₃

theorem swapMemtables_versionSet (hvs : P db.versionSet) (h : db.swapMemtables = .ok db') :
    P db'.versionSet := by
  unfold swapMemtables at h
  dsimp only at h
  split at h
  · simp only [pure_bind] at h
    cases h
    exact hvs
  · obtain ⟨vs, hvs', h⟩ := bind_eq_ok.mp h
    cases h
    exact hP hvs hvs'

theorem flushMemtable_versionSet (sizes : TableSizes) (imm : ImmutableTable)
    (waterline : Option Nat) (hvs : P db.versionSet)
    (h : db.flushMemtable sizes imm waterline = .ok db') : P db'.versionSet := by
  unfold flushMemtable at h
  dsimp only at h
  split at h
  · rename_i r _
    obtain ⟨smallest, largest⟩ := r
    simp only [pure_bind] at h
    obtain ⟨⟨tables, edit⟩, -, h⟩ := bind_eq_ok.mp h
    obtain ⟨vs, hvs', h⟩ := bind_eq_ok.mp h
    cases h
    exact hP hvs hvs'
  · simp [throw, throwThe, MonadExceptOf.throw, bind, Except.bind] at h

theorem compactTables_versionSet (sizes : TableSizes) (c : CompactionSpec)
    (waterline : Option Nat) (hvs : P db.versionSet)
    (h : db.compactTables sizes c waterline = .ok db') : P db'.versionSet := by
  unfold compactTables at h
  dsimp only at h
  obtain ⟨⟨tables, edit⟩, -, h⟩ := bind_eq_ok.mp h
  obtain ⟨vs, hvs', h⟩ := bind_eq_ok.mp h
  cases h
  exact hP hvs hvs'

theorem compactionStep_versionSet (sizes : TableSizes) (random : Nat) (hvs : P db.versionSet)
    (h : db.compactionStep sizes random = .ok (some db')) : P db'.versionSet := by
  rcases compactionStep_cases h with ⟨vs, hedit, rfl⟩ | ⟨waterline, h⟩
  · exact hP hvs hedit
  · rcases compactionWork_cases h with h | ⟨imm, h⟩ | ⟨c, h⟩
    · exact swapMemtables_versionSet hP hvs h
    · exact flushMemtable_versionSet hP sizes imm waterline hvs h
    · exact compactTables_versionSet hP sizes c waterline hvs h

/-- The step lemma: a write and a new waterline leave the version set as it is, and an iteration
of the compaction thread changes it by edits only. -/
theorem step_versionSet (sizes : TableSizes) (e : Event) (hvs : P db.versionSet)
    (h : db.step sizes e = .ok db') : P db'.versionSet := by
  cases e with
  | write batch =>
    obtain ⟨_, -, rfl⟩ := write_ok ((step_write sizes db batch).symm.trans h)
    exact hvs
  | updateCompactionWaterline value =>
    rw [step_updateCompactionWaterline] at h
    unfold updateCompactionWaterline at h
    split at h
    · cases h
    · cases h
      exact hvs
  | compaction random =>
    rw [step_compaction] at h
    cases hr : db.compactionStep sizes random with
    | error e => rw [hr] at h; cases h
    | ok r =>
      rw [hr] at h
      cases h
      cases r with
      | none => exact hvs
      | some db₁ => exact compactionStep_versionSet hP sizes random hvs hr

theorem Reachable.versionSet {sizes : TableSizes} {options : EmbeddedDBOptions}
    (hnew : P (VersionSet.new options)) (h : Reachable sizes options db) : P db.versionSet := by
  induction h with
  | create hcreate => exact create_versionSet hP hnew hcreate
  | step e _ hstep ih => exact step_versionSet hP sizes e ih hstep

end Frame

end EmbeddedDBState

/-- A stand-in for `SSTableBuilder`'s size estimate: the bytes of the keys and values. -/
def TableSizes.rawBytes : TableSizes :=
  ⟨fun es => (es.map fun e => e.key.userKey.length + 8 + e.value.length).sum,
    fun es => (es.map fun e => e.key.userKey.length + 8 + e.value.length).sum⟩

/-- Options with the compaction waterline on, and a write buffer that every write fills. -/
def staleRunOptions : EmbeddedDBOptions :=
  { EmbeddedDBOptions.default with writeBufferSize := 1, enableCompactionWaterline := true }

/-- A put of one byte under a one-byte key. -/
def putEvent (key value : UInt8) : Event := .write ⟨0, [.Value [key] [value]]⟩

/-- Four versions of key `1` and one of key `3` go to level 2 in one table, most of it stale; key
`2` then goes to level 1, which is above that table's range. Once the waterline passes the stale
entries, the stale table is compacted into level 1. -/
def staleRun : List Event :=
  [putEvent 1 1, putEvent 1 2, putEvent 1 3, putEvent 1 4, putEvent 3 5,
    .compaction 0, .compaction 0,
    putEvent 2 6, .compaction 0, .compaction 0,
    .updateCompactionWaterline 6, .compaction 0, .compaction 0]

/-- The run ends with level 1 holding `[1@4, 3@5]` before `[2@6]`, and a read of key `2` finds
nothing: the level iterator yields `3@5` first. -/
theorem stale_compaction_overlaps_level_one :
    ∃ db, Reachable TableSizes.rawBytes staleRunOptions db ∧
      ¬ db.versionSet.latestVersion.LevelsDisjoint ∧ db.snapshot.get [2] = .ok none := by
  exact Reachable.exists_of_run staleRun (by decide +kernel)

/-! ## Dropped deletions -/

/-- The user keys of the entries of a version's tables. -/
def Version.userKeys (v : Version) : List (List UInt8) :=
  v.levels.flatMap fun level => level.tables.flatMap fun t => t.table.entries.map (·.key.userKey)

/-- The next iteration of the compaction thread flushes the immutable memtable with
`remove_deleted` set, while a table of the version holds a user key of the memtable. -/
def EmbeddedDBState.FlushDropsDeletions (db : EmbeddedDBState) : Prop :=
  ∃ imm ∈ db.immutableTable, ∃ range ∈ imm.table.table.keyRange,
    (db.versionSet.pickMemtableLevel ⟨range.1, range.2⟩).2 = false ∧
    ∃ e ∈ imm.table.iter, e.key.userKey ∈ db.versionSet.latestVersion.userKeys

instance (db : EmbeddedDBState) : Decidable db.FlushDropsDeletions :=
  inferInstanceAs (Decidable (∃ imm ∈ db.immutableTable, _))

/-- The default options with a write buffer that every write fills. -/
def smallBufferOptions : EmbeddedDBOptions :=
  { EmbeddedDBOptions.default with writeBufferSize := 1 }

/-- A delete of a one-byte key. -/
def deleteEvent (key : UInt8) : Event := .write ⟨0, [.Deletion [key]]⟩

/-- Key `1` is put and flushed to a table; it is then deleted, and the deletion's memtable made
immutable. -/
def deleteAfterFlushRun : List Event :=
  [putEvent 1 1, .compaction 0, .compaction 0, deleteEvent 1, .compaction 0]

/-- After the run, the memtable holding the deletion `1@2` does not overlap the table holding
`1@1`, so its flush drops the deletion, and a read of key `1` then finds the value put before. -/
theorem flush_drops_deletion_of_stored_key :
    ∃ db, Reachable TableSizes.rawBytes smallBufferOptions db ∧ db.FlushDropsDeletions ∧
      (db.step TableSizes.rawBytes (.compaction 0) >>= fun db => db.snapshot.get [1]) =
        .ok (some [1]) := by
  exact Reachable.exists_of_run deleteAfterFlushRun (by decide +kernel)

/-! ## Level sizes -/

end Dacha.SSTable
