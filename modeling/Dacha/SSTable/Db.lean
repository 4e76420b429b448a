import Dacha.Lib.Run
import Dacha.SSTable.Memtable
import Dacha.SSTable.Version

/-!
# The database (`db/db.rs`, `db/write_batch.rs`, `db/snapshot.rs`, `db/merge_iterator.rs`,
`db/level_iterator.rs`)

`EmbeddedDBState` is the state the database's lock guards: the mutable memtable, the immutable
one being flushed, the last sequence handed out and the version set. Three things change it:

* `write` gives a batch the next sequence number and inserts each of its writes into the mutable
  memtable under that one number (`WriteBatchIterator::apply`);
* `update_compaction_waterline` raises the waterline the compaction thread will adopt;
* one iteration of `compaction_thread` (`compactionStep`): adopt a new waterline, make a full
  memtable immutable, flush the immutable memtable into a level, or compact tables.

A run is a list of these events; which one happens when is up to the scheduler, so every order
is a run. A read (`Snapshot::get`) seeks every source to the key and merges them: the memtables,
the level-0 tables and one `LevelIterator` per deeper level.

What the model abstracts:

* `SSTableBuilder` is not modelled: a table is its entries. `TableSizes` gives the estimated size
  `build_tables_from_iterator` compares with the target file size, and the size `finish`
  reports. An `SSTableIterator` seek lands on the table's first entry not below the key.
* `MergeIterator` keeps its sources in a binary heap ordered by their next entries; the model
  takes the least next entry and, among equal keys, the earlier source's. The heap's order among
  equal keys is not modelled.
* `SSTableBuilder::add` fails when a key is not above the last key of the previous block; the model
  does not split tables into blocks and does not check.
* The write-ahead log, the manifest and the files are not modelled: their writes do not fail.
-/

namespace Dacha.SSTable

open Dacha.Common Dacha.Run

/-- `Write`: one write of a batch. -/
inductive Write
  | Value (key value : List UInt8)
  | Deletion (key : List UInt8)
  deriving DecidableEq, Repr

structure WriteBatch where
  /-- `0` until the database gives the batch its sequence. -/
  sequence : Nat
  writes : List Write
  deriving DecidableEq, Repr

/-- `WriteBatchIterator::apply`: each write goes into the memtable under the batch's one sequence
number. -/
def WriteBatch.apply (sequence : Nat) : List Write → MemTable → MemTable
  | [], m => m
  | .Value key value :: ws, m => apply sequence ws (m.insert ⟨key, sequence, .Value⟩ value)
  | .Deletion key :: ws, m => apply sequence ws (m.insert ⟨key, sequence, .Deletion⟩ [])

/-- The immutable memtable and the last sequence it holds. -/
structure ImmutableTable where
  table : MemTable
  lastSequence : Nat
  deriving DecidableEq

structure EmbeddedDBState where
  logLastSequence : Nat
  mutableTable : MemTable
  immutableTable : Option ImmutableTable
  versionSet : VersionSet
  /-- `EmbeddedDBShared::next_compaction_waterline`. -/
  nextCompactionWaterline : Nat
  deriving DecidableEq

/-- What `build_tables_from_iterator` needs of `SSTableBuilder`. -/
structure TableSizes where
  estimatedFileSize : List KeyValueEntry → Nat
  fileSize : List KeyValueEntry → Nat

section Merge

variable {α : Type}

/-- Merge the list `x :: xs` into `ys`, where `merge` merges `xs` into a list. -/
def mergeBy.insertHead (le : α → α → Bool) (x : α) (merge : List α → List α) :
    List α → List α
  | [] => x :: merge []
  | y :: ys => if le x y then x :: merge (y :: ys) else y :: insertHead le x merge ys

/-- `List.merge` by structural recursion: on the first list, and for each of its heads on the
second. `List.merge` is defined by well-founded recursion, which the kernel does not evaluate, so
a run that merges could not be checked by `decide`; `mergeBy_eq_merge` hands every fact about
`List.merge` over to this one. Neither list needs to be sorted: a merge of unsorted lists compares
only their heads, as a heap of iterators does. -/
def mergeBy (le : α → α → Bool) : List α → List α → List α
  | [], ys => ys
  | x :: xs, ys => mergeBy.insertHead le x (mergeBy le xs) ys

theorem mergeBy_eq_merge (le : α → α → Bool) :
    ∀ xs ys : List α, mergeBy le xs ys = xs.merge ys le
  | [], ys => by simp [mergeBy]
  | x :: xs, ys => by
    have ih := mergeBy_eq_merge le xs
    induction ys with
    | nil => simp [mergeBy, mergeBy.insertHead, ih, List.merge_right]
    | cons y ys ihy =>
      simp only [mergeBy, mergeBy.insertHead, List.cons_merge_cons, ih] at ihy ⊢
      rw [ihy]

end Merge

/-- What `MergeIterator` yields: the entry with the least key among the sources' next entries,
the earlier source's on a tie, until every source is done. -/
def mergeEntries (sources : List (List KeyValueEntry)) : List KeyValueEntry :=
  sources.foldr (fun s acc => mergeBy (fun a b => (a.key.compare b.key).isLE) s acc) []

/-! ## Writes -/

namespace EmbeddedDBState

/-- `EmbeddedDB::create`: the version set a new database starts from. -/
def create (options : EmbeddedDBOptions) : Except String EmbeddedDBState := do
  if options.readOnly then throw "Can't create a new DB in read_only mode."
  let vs := VersionSet.new options
  let vs ← vs.applyNewEdit { nextFileNumber := some (vs.nextFileNumber + 1) } []
  let vs ← if options.enableCompactionWaterline then
      vs.applyNewEdit { compactionWaterline := some 0 } []
    else pure vs
  let logEdit : VersionEdit :=
    { nextFileNumber := some (vs.nextFileNumber + 1), logNumber := some vs.nextFileNumber }
  let vs ← if options.disableWal then pure vs else vs.applyNewEdit logEdit []
  pure ⟨vs.lastSequence, MemTable.new, none, vs, 0⟩

def write (db : EmbeddedDBState) (batch : WriteBatch) : Except String EmbeddedDBState := do
  if db.versionSet.options.readOnly then throw "Database opened as read only"
  if batch.writes.length = 0 then throw "Writing an empty batch"
  let sequence ←
    if batch.sequence ≠ 0 then
      if batch.sequence ≤ db.logLastSequence then throw "Batch has custom non-monotonic sequence"
      else pure batch.sequence
    else pure (db.logLastSequence + 1)
  pure { db with
    logLastSequence := sequence
    mutableTable := WriteBatch.apply sequence batch.writes db.mutableTable }

/-- `EmbeddedDB::update_compaction_waterline`: the waterline only goes up. -/
def updateCompactionWaterline (db : EmbeddedDBState) (value : Nat) :
    Except String EmbeddedDBState :=
  if !db.versionSet.options.enableCompactionWaterline then
    .error "enable_compaction_waterline is not enabled"
  else .ok { db with nextCompactionWaterline := max db.nextCompactionWaterline value }

section Spec

variable {db db' : EmbeddedDBState}

/-- What a `create` that succeeds did: the edit of the next file number, then the waterline's and
the log's when they are on, and the database on the version set that results. -/
theorem create_ok {options : EmbeddedDBOptions} (h : create options = .ok db) :
    ∃ vs₁ vs₂, (VersionSet.new options).applyNewEdit
        { nextFileNumber := some ((VersionSet.new options).nextFileNumber + 1) } [] = .ok vs₁ ∧
      (if options.enableCompactionWaterline then vs₁.applyNewEdit { compactionWaterline := some 0 } []
        else pure vs₁) = .ok vs₂ ∧
      (if options.disableWal then pure vs₂ else vs₂.applyNewEdit
        { nextFileNumber := some (vs₂.nextFileNumber + 1), logNumber := some vs₂.nextFileNumber }
        []) = .ok db.versionSet ∧
      db = ⟨db.versionSet.lastSequence, MemTable.new, none, db.versionSet, 0⟩ := by
  unfold create at h
  cases hro : options.readOnly
  · simp only [hro, Bool.false_eq_true, if_false] at h
    obtain ⟨vs₁, h₁, h⟩ := bind_eq_ok.mp h
    refine ⟨vs₁, ?_⟩
    cases hcw : options.enableCompactionWaterline <;> cases hwal : options.disableWal <;>
      simp only [hcw, hwal, if_true, if_false, Bool.false_eq_true, pure_bind] at h ⊢
    · obtain ⟨vs₃, h₃, h⟩ := bind_eq_ok.mp h
      cases h
      exact ⟨vs₁, h₁, rfl, h₃, rfl⟩
    · cases h
      exact ⟨vs₁, h₁, rfl, rfl, rfl⟩
    · obtain ⟨vs₂, h₂, h⟩ := bind_eq_ok.mp h
      obtain ⟨vs₃, h₃, h⟩ := bind_eq_ok.mp h
      cases h
      exact ⟨vs₂, h₁, h₂, h₃, rfl⟩
    · obtain ⟨vs₂, h₂, h⟩ := bind_eq_ok.mp h
      cases h
      exact ⟨vs₂, h₁, h₂, rfl, rfl⟩
  · simp [hro, throw, throwThe, MonadExceptOf.throw, bind, Except.bind] at h

/-- A write that succeeds gives its batch a sequence above every earlier one, and applies the batch
to the mutable memtable under it. -/
theorem write_ok {batch : WriteBatch} (h : db.write batch = .ok db') :
    ∃ sequence, db.logLastSequence < sequence ∧
      db' = { db with
        logLastSequence := sequence
        mutableTable := WriteBatch.apply sequence batch.writes db.mutableTable } := by
  unfold write at h
  dsimp only at h
  split_ifs at h
  all_goals first
    | (cases h; done)
    | (cases h; exact ⟨_, by omega, rfl⟩)

end Spec

end EmbeddedDBState

/-! ## Reads -/

/-- A snapshot of the database (`EmbeddedDB::snapshot`). -/
structure Snapshot where
  lastSequence : Nat
  compactionWaterline : Option Nat
  memtables : List MemTable
  version : Version

def EmbeddedDBState.snapshot (db : EmbeddedDBState) : Snapshot :=
  ⟨db.logLastSequence, db.versionSet.compactionWaterline,
    db.mutableTable :: (db.immutableTable.map (·.table)).toList, db.versionSet.latestVersion⟩

/-- An `SSTableIterator` after `seek`: the entries from the first one not below `key`. -/
def tableSeek (entries : List KeyValueEntry) (key : InternalKey) : List KeyValueEntry :=
  entries.dropWhile fun e => e.key.compare key = .lt

/-- `LevelIterator` after `seek`: the first table whose largest key is not below `key`, from the
key on, then the tables after it. -/
def levelSeek (tables : List LevelTableEntry) (key : InternalKey) : List KeyValueEntry :=
  match lowerBoundBy tables key fun t k => (t.entry.largestKey.compare k).isGE with
  | none => []
  | some idx =>
    match tables[idx]? with
    | none => []
    | some t => tableSeek t.table.entries key ++ (tables.drop (idx + 1)).flatMap (·.table.entries)

structure SnapshotKeyValueEntry where
  key : List UInt8
  value : Option (List UInt8)
  sequence : Nat
  deriving DecidableEq, Repr

namespace Snapshot

/-- The sources of `iter_with_options` after `seek(key)`. -/
def seekSources (s : Snapshot) (key : InternalKey) : List (List KeyValueEntry) :=
  s.memtables.map (·.table.seek key) ++
    (match s.version.levels with
     | [] => []
     | level0 :: levels => level0.tables.map (tableSeek ·.table.entries key) ++
        levels.map fun level => levelSeek level.tables key)

/-- `Snapshot::entry`: seek before every version of the key the snapshot may see, and take the
first entry the iterator returns if it is of this user key. -/
def entry (s : Snapshot) (userKey : List UInt8) : Except String (Option SnapshotKeyValueEntry) :=
  if s.lastSequence < s.compactionWaterline.getD 0 then
    .error "Requested sequence is below the compaction waterline so may have been compacted."
  else
    let merged := mergeEntries (s.seekSources (InternalKey.beforeWithSequence userKey s.lastSequence))
    match merged.find? (·.key.sequence ≤ s.lastSequence) with
    | some e =>
      if e.key.userKey = userKey then
        .ok (some ⟨userKey, if e.key.typ = .Deletion then none else some e.value, e.key.sequence⟩)
      else .ok none
    | none => .ok none

def get (s : Snapshot) (userKey : List UInt8) : Except String (Option (List UInt8)) :=
  (s.entry userKey).map fun e => e.bind (·.value)

end Snapshot

/-! ## Building tables -/

/-- The table `build_tables_from_iterator` is filling. -/
structure CurrentTable where
  entries : List KeyValueEntry
  firstKey : InternalKey
  lastKey : InternalKey
  smallestSeq : Nat
  largestSeq : Nat
  number : Nat
  properties : TableProperties

structure BuildState where
  currentTable : Option CurrentTable
  lastUserKey : Option (List UInt8)
  firstSeq : Nat
  lastEntryBelowWaterline : Bool
  edit : VersionEdit
  /-- The tables finished so far, in order. -/
  tables : List Table

section Build

variable (sizes : TableSizes) (removeDeleted : Bool) (targetFileSize level waterline : Nat)

def CurrentTable.finish (t : CurrentTable) : NewFileEntry × Table :=
  (⟨level, t.number, sizes.fileSize t.entries, t.firstKey, t.lastKey,
    some (t.smallestSeq, t.largestSeq)⟩, ⟨t.entries, t.properties⟩)

/-- The counts `build_tables_from_iterator` adds for one entry (`db.rs:1062-1081`). -/
def TableProperties.add (p : TableProperties) (e : KeyValueEntry) (isStale : Bool)
    (firstSeq : Nat) : TableProperties :=
  let p := { p with
    rawKeySize := p.rawKeySize + (e.key.userKey.length + 8)
    rawValueSize := p.rawValueSize + e.value.length
    numEntries := p.numEntries + 1
    numDeletions := p.numDeletions + if e.key.typ = ValueType.Deletion then 1 else 0
    numStaleEntries := p.numStaleEntries + if isStale then 1 else 0
    staleValueSize := p.staleValueSize + if isStale then e.value.length else 0 }
  -- The next compaction waits until every stale entry is below the waterline.
  if isStale ∧ firstSeq > p.staleClearWaterline.getD 0 then
    { p with staleClearWaterline := some firstSeq }
  else if p.staleClearWaterline.isNone then { p with staleClearWaterline := some 0 }
  else p

/-- The compaction filter of `build_tables_from_iterator` (`db.rs:1000-1043`): whether the entry
is kept, and the state the next entry sees. Above the waterline every entry is kept; below it only
the newest version of a user key, and not when it is a deletion that may be dropped. -/
def BuildState.filter (st : BuildState) (e : KeyValueEntry) : Bool × BuildState :=
  let st : BuildState :=
    if st.lastUserKey = some e.key.userKey then st
    else
      { st with
        lastEntryBelowWaterline := false
        lastUserKey := some e.key.userKey
        firstSeq := e.key.sequence }
  if e.key.sequence > waterline then (true, st)
  else if !st.lastEntryBelowWaterline then
    (!(removeDeleted && e.key.typ == ValueType.Deletion), { st with lastEntryBelowWaterline := true })
  else (false, st)

-- The filter's body, stated once so that proofs rewrite with it rather than asking for the
-- generated unfolding lemma.
theorem BuildState.filter_def (st : BuildState) (e : KeyValueEntry) :
    st.filter removeDeleted waterline e =
      let st : BuildState :=
        if st.lastUserKey = some e.key.userKey then st
        else
          { st with
            lastEntryBelowWaterline := false
            lastUserKey := some e.key.userKey
            firstSeq := e.key.sequence }
      if e.key.sequence > waterline then (true, st)
      else if !st.lastEntryBelowWaterline then
        (!(removeDeleted && e.key.typ == ValueType.Deletion),
          { st with lastEntryBelowWaterline := true })
      else (false, st) := rfl

/-- The current table, or a new one numbered by the edit's next file number. -/
def BuildState.currentOrOpen (st : BuildState) (e : KeyValueEntry) :
    Except String (CurrentTable × VersionEdit) :=
  match st.currentTable with
  | some t => .ok (t, st.edit)
  | none =>
    match st.edit.nextFileNumber with
    | none => .error "called `Option::unwrap()` on a `None` value"
    | some number =>
      .ok (⟨[], e.key, e.key, e.key.sequence, e.key.sequence, number, TableProperties.empty⟩,
        { st.edit with nextFileNumber := some (number + 1) })

/-- One entry of the loop of `build_tables_from_iterator`: the compaction filter, then the entry
goes into the current table, which is finished once its estimated size reaches the target. -/
def buildStep (st : BuildState) (e : KeyValueEntry) : Except String BuildState := do
  let isStale := decide (st.lastUserKey = some e.key.userKey)
  let (keep, st) := st.filter removeDeleted waterline e
  if !keep then return st
  let (table, edit) ← st.currentOrOpen e
  let table : CurrentTable :=
    { table with
      entries := table.entries ++ [e]
      properties := table.properties.add e isStale st.firstSeq
      smallestSeq := min e.key.sequence table.smallestSeq
      largestSeq := max e.key.sequence table.largestSeq
      lastKey := e.key }
  if sizes.estimatedFileSize table.entries ≥ targetFileSize then
    let (newFile, t) := table.finish sizes level
    pure { st with
      currentTable := none
      edit := { edit with newFiles := edit.newFiles ++ [newFile] }
      tables := st.tables ++ [t] }
  else pure { st with currentTable := some table, edit }

/-- `build_tables_from_iterator` over the merged entries, with `compaction_waterline`
(`u64::MAX` when there is none). The new tables, in the order of the edit's new files. -/
def buildTablesFromIterator (entries : List KeyValueEntry) (edit : VersionEdit) :
    Except String (List Table × VersionEdit) := do
  let st ← entries.foldlM (buildStep sizes removeDeleted targetFileSize level waterline)
    ⟨none, none, 0, false, edit, []⟩
  match st.currentTable with
  | none => pure (st.tables, st.edit)
  | some t =>
    let (newFile, t) := t.finish sizes level
    pure (st.tables ++ [t], { st.edit with newFiles := st.edit.newFiles ++ [newFile] })

end Build

/-! ## The compaction thread -/

def U64_MAX : Nat := 2 ^ 64 - 1

namespace EmbeddedDBState

/-- The mutable memtable is full: it becomes the immutable one and a new log is started. -/
def swapMemtables (db : EmbeddedDBState) : Except String EmbeddedDBState := do
  let edit : VersionEdit :=
    { nextFileNumber := some (db.versionSet.nextFileNumber + 1)
      prevLogNumber := db.versionSet.logNumber
      logNumber := some db.versionSet.nextFileNumber }
  let vs ← if db.versionSet.options.disableWal then pure db.versionSet
    else db.versionSet.applyNewEdit edit []
  pure { db with
    immutableTable := some ⟨db.mutableTable, db.logLastSequence⟩
    mutableTable := MemTable.new
    versionSet := vs }

/-- Write the immutable memtable to tables at the level `pick_memtable_level` chooses. -/
def flushMemtable (sizes : TableSizes) (imm : ImmutableTable) (waterline : Option Nat)
    (db : EmbeddedDBState) : Except String EmbeddedDBState := do
  let (smallest, largest) ← match imm.table.table.keyRange with
    | some r => pure r
    | none => throw "Empty memtable beign compacted"
  let (level, foundOverlap) := db.versionSet.pickMemtableLevel ⟨smallest, largest⟩
  let edit : VersionEdit :=
    { lastSequence := some imm.lastSequence
      nextFileNumber := some db.versionSet.nextFileNumber
      prevLogNumber := if db.versionSet.prevLogNumber.isSome then some 0 else none }
  let (tables, edit) ← buildTablesFromIterator sizes (!foundOverlap)
    (db.versionSet.targetFileSize level) level (waterline.getD U64_MAX) imm.table.iter edit
  let vs ← db.versionSet.applyNewEdit edit tables
  pure { db with immutableTable := none, versionSet := vs }

/-- A level or stale-table compaction: delete the chosen tables and write their merged entries
to new tables, at level `1` whatever the compaction's `next_level` is (`db.rs:846-854`). -/
def compactTables (sizes : TableSizes) (c : CompactionSpec) (waterline : Option Nat)
    (db : EmbeddedDBState) : Except String EmbeddedDBState := do
  let inputs := c.tables ++ c.nextLevelTables
  let edit : VersionEdit :=
    { nextFileNumber := some db.versionSet.nextFileNumber
      deletedFiles := inputs.map fun t => ⟨t.entry.level, t.entry.number⟩ }
  let (tables, edit) ← buildTablesFromIterator sizes (!c.foundOverlap)
    (db.versionSet.targetFileSize c.nextLevel) 1 (waterline.getD U64_MAX)
    (mergeEntries (inputs.map (·.table.entries))) edit
  let vs ← db.versionSet.applyNewEdit edit tables
  pure { db with versionSet := vs }

/-- The part of one iteration of `compaction_thread` after the waterline is read: swap a full
memtable, else flush the immutable one, else run the compaction that
`select_tables_to_compaction` or, with a waterline, `select_stale_table_to_compact` picks; `none`
when there is nothing to do. -/
def compactionWork (sizes : TableSizes) (random : Nat) (waterline : Option Nat)
    (db : EmbeddedDBState) : Except String (Option EmbeddedDBState) := do
  if db.mutableTable.size ≥ db.versionSet.options.writeBufferSize ∧ db.immutableTable.isNone then
    return some (← db.swapMemtables)
  if let some imm := db.immutableTable then
    return some (← db.flushMemtable sizes imm waterline)
  let spec ← db.versionSet.selectTablesToCompaction random
  let spec ← match spec, waterline with
    | none, some w => db.versionSet.selectStaleTableToCompact w
    | spec, _ => pure spec
  match spec with
  | some c => return some (← db.compactTables sizes c waterline)
  | none => return none

/-- One iteration of the loop of `compaction_thread`, with the random number
`select_tables_to_compaction` draws: a waterline above the version set's is adopted first, and
is the whole iteration. -/
def compactionStep (sizes : TableSizes) (random : Nat) (db : EmbeddedDBState) :
    Except String (Option EmbeddedDBState) :=
  if db.versionSet.options.enableCompactionWaterline then
    match db.versionSet.compactionWaterline with
    | none => throw "called `Option::unwrap()` on a `None` value"
    | some last =>
      if db.nextCompactionWaterline > last then do
        let edit : VersionEdit := { compactionWaterline := some db.nextCompactionWaterline }
        return some { db with versionSet := ← db.versionSet.applyNewEdit edit [] }
      else db.compactionWork sizes random (some db.nextCompactionWaterline)
  else db.compactionWork sizes random none

section Spec

variable {db db' : EmbeddedDBState} {sizes : TableSizes} {random : Nat}

/-- What the rest of an iteration that did something did: a swap, a flush or a compaction. -/
theorem compactionWork_cases {waterline : Option Nat}
    (h : db.compactionWork sizes random waterline = .ok (some db')) :
    db.swapMemtables = .ok db' ∨ (∃ imm, db.flushMemtable sizes imm waterline = .ok db') ∨
      ∃ c, db.compactTables sizes c waterline = .ok db' := by
  unfold compactionWork at h
  dsimp only at h
  split at h
  · obtain ⟨db₁, h₁, h⟩ := bind_eq_ok.mp h
    cases h
    exact .inl h₁
  · split at h
    · obtain ⟨db₁, h₁, h⟩ := bind_eq_ok.mp h
      cases h
      exact .inr (.inl ⟨_, h₁⟩)
    · obtain ⟨_, -, h⟩ := bind_eq_ok.mp h
      split at h
      on_goal 1 => obtain ⟨_, -, h⟩ := bind_eq_ok.mp h
      on_goal 2 => simp only [pure_bind] at h
      all_goals
        split at h
        · obtain ⟨db₁, h₁, h⟩ := bind_eq_ok.mp h
          cases h
          exact .inr (.inr ⟨_, h₁⟩)
        · cases h

/-- What an iteration that did something did: adopt the next waterline, or the rest of the
iteration. -/
theorem compactionStep_cases (h : db.compactionStep sizes random = .ok (some db')) :
    (∃ vs, db.versionSet.applyNewEdit { compactionWaterline := some db.nextCompactionWaterline } [] =
        .ok vs ∧ db' = { db with versionSet := vs }) ∨
      ∃ waterline, db.compactionWork sizes random waterline = .ok (some db') := by
  unfold compactionStep at h
  split at h
  · split at h
    · cases h
    · split at h
      · obtain ⟨vs, hvs, h⟩ := bind_eq_ok.mp h
        cases h
        exact .inl ⟨vs, hvs, rfl⟩
      · exact .inr ⟨_, h⟩
  · exact .inr ⟨_, h⟩

end Spec

end EmbeddedDBState

/-! ## Runs -/

inductive Event
  | write (batch : WriteBatch)
  | updateCompactionWaterline (value : Nat)
  /-- One iteration of the compaction thread, with its random draw. -/
  | compaction (random : Nat)
  deriving DecidableEq, Repr

namespace EmbeddedDBState

variable (sizes : TableSizes)

def step (db : EmbeddedDBState) : Event → Except String EmbeddedDBState
  | .write batch => db.write batch
  | .updateCompactionWaterline value => db.updateCompactionWaterline value
  | .compaction random => do
    match ← db.compactionStep sizes random with
    | some db' => pure db'
    | none => pure db

def run (db : EmbeddedDBState) : List Event → Except String EmbeddedDBState
  | [] => .ok db
  | e :: es => do run (← db.step sizes e) es

/-- A run is a run of fallible steps in the sense of `Dacha.Run`. -/
theorem run_eq_foldlM (db : EmbeddedDBState) (events : List Event) :
    db.run sizes events = events.foldlM (fun db e => db.step sizes e) db := by
  induction events generalizing db with
  | nil => rfl
  | cons e es ih => simp only [run, List.foldlM_cons, ih]

theorem step_write (db : EmbeddedDBState) (batch : WriteBatch) :
    db.step sizes (.write batch) = db.write batch := rfl

theorem step_updateCompactionWaterline (db : EmbeddedDBState) (value : Nat) :
    db.step sizes (.updateCompactionWaterline value) = db.updateCompactionWaterline value := rfl

theorem step_compaction (db : EmbeddedDBState) (random : Nat) :
    db.step sizes (.compaction random) =
      (db.compactionStep sizes random).bind fun r => .ok (r.getD db) := by
  show Except.bind (db.compactionStep sizes random) _ = _
  cases db.compactionStep sizes random with
  | error e => rfl
  | ok r => cases r <;> rfl

end EmbeddedDBState

end Dacha.SSTable
