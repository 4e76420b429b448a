import Dacha.SSTable.InternalKey
import Dacha.Common.Algorithms

/-!
# Versions (`db/version.rs`, `db/version_edit.rs`, `db/options.rs`)

A `Version` is the set of tables on disk, by level. Level 0 holds flushed memtables in the order
they were written; every other level is meant to hold tables sorted by smallest key with key
ranges that do not overlap (`version.rs:590-591`). `VersionSet::apply_new_edit` moves from one
version to the next: it removes the edit's deleted files and inserts its new ones, each at the
level the edit names, at the place `lower_bound_by` finds for it (`Version::insert`, which "does
not validate the new entry is not already present or doesn't overlap with other tables").

The version set also decides what the compaction thread does next: the level a flushed memtable
goes to (`pick_memtable_level`), the tables of a level compaction
(`select_tables_to_compaction`) and of a stale-table compaction
(`select_stale_table_to_compact`). Where the source panics (an index out of bounds, an
`assert!`, a `u64` underflow), the model returns an error.

A table is modelled by its entries, in key order, and the properties the compaction thread
writes into it; its file format is not modelled. `Level::total_size` is kept as the source
keeps it: it is set to 0 when the level is made and never changed.

`stale_fraction` is an `f32` in the source; the model computes it in `ℚ`. The fractions of the
tables in this development are exact in `f32` as well.
-/

namespace Dacha.SSTable

open Dacha.Common

/-- The options of `EmbeddedDBOptions` that the modelled functions read. -/
structure EmbeddedDBOptions where
  readOnly : Bool
  writeBufferSize : Nat
  maxMemtableLevel : Nat
  level0FileNumCompactionTrigger : Nat
  targetFileSizeBase : Nat
  targetFileSizeMultiplier : Nat
  maxBytesForLevelBase : Nat
  maxBytesForLevelMultiplier : Nat
  disableWal : Bool
  enableCompactionWaterline : Bool
  staleCompactionThreshold : ℚ
  deriving DecidableEq

/-- The defaults of `EmbeddedDBOptions` (`options.rs:35-135`). -/
def EmbeddedDBOptions.default : EmbeddedDBOptions where
  readOnly := false
  writeBufferSize := 64 * 1024 * 1024
  maxMemtableLevel := 2
  level0FileNumCompactionTrigger := 4
  targetFileSizeBase := 64 * 1024 * 1024
  targetFileSizeMultiplier := 1
  maxBytesForLevelBase := 256 * 1024 * 1024
  maxBytesForLevelMultiplier := 10
  disableWal := false
  enableCompactionWaterline := false
  staleCompactionThreshold := 1 / 2

/-- `KeyRangeRef`: the smallest and the largest key of a table or a memtable. -/
structure KeyRange where
  smallest : InternalKey
  largest : InternalKey
  deriving DecidableEq, Repr

namespace KeyRange

def overlapsWith (self other : KeyRange) : Bool :=
  match self.smallest.compare other.smallest with
  | .eq => true
  | .lt => (self.largest.compare other.smallest).isGE
  | .gt => (self.smallest.compare other.largest).isLE

def union (self other : KeyRange) : KeyRange :=
  ⟨if (self.smallest.compare other.smallest).isLE then self.smallest else other.smallest,
    if (self.largest.compare other.largest).isGE then self.largest else other.largest⟩

end KeyRange

/-- The table properties the compaction thread records (`build_tables_from_iterator`) and
`select_stale_table_to_compact` reads. `staleClearWaterline` is unset until a table sets it. -/
structure TableProperties where
  rawKeySize : Nat
  rawValueSize : Nat
  numEntries : Nat
  numDeletions : Nat
  numStaleEntries : Nat
  staleValueSize : Nat
  staleClearWaterline : Option Nat
  deriving DecidableEq, Repr

def TableProperties.empty : TableProperties := ⟨0, 0, 0, 0, 0, 0, none⟩

/-- An opened `SSTable`: its entries in key order and its properties. -/
structure Table where
  entries : List KeyValueEntry
  properties : TableProperties
  deriving DecidableEq, Repr

structure NewFileEntry where
  level : Nat
  number : Nat
  fileSize : Nat
  smallestKey : InternalKey
  largestKey : InternalKey
  sequenceRange : Option (Nat × Nat)
  deriving DecidableEq, Repr

/-- `NewFileEntry::compare`: by level, then smallest key, then file number. -/
def NewFileEntry.compare (a b : NewFileEntry) : Ordering :=
  match Ord.compare a.level b.level with
  | .eq =>
    match a.smallestKey.compare b.smallestKey with
    | .eq => Ord.compare a.number b.number
    | o => o
  | o => o

structure DeletedFileEntry where
  level : Nat
  number : Nat
  deriving DecidableEq, Repr

structure LevelTableEntry where
  entry : NewFileEntry
  table : Table
  deriving DecidableEq, Repr

def LevelTableEntry.keyRange (e : LevelTableEntry) : KeyRange :=
  ⟨e.entry.smallestKey, e.entry.largestKey⟩

structure Level where
  totalSize : Nat
  maxSize : Nat
  targetFileSize : Nat
  tables : List LevelTableEntry
  deriving DecidableEq, Repr

structure Version where
  levels : List Level
  deriving DecidableEq, Repr

namespace Version

/-- The level `insert` appends when the version has fewer levels than an entry needs. -/
def newLevel (options : EmbeddedDBOptions) (number : Nat) : Level :=
  if number = 0 then ⟨0, 0, 0, []⟩
  else
    ⟨0, options.maxBytesForLevelBase * options.maxBytesForLevelMultiplier ^ (number - 1),
      options.targetFileSizeBase * options.targetFileSizeMultiplier ^ (number - 1), []⟩

/-- `Version::insert`: make the missing levels, then append to level 0, or insert at the first
table of the level that does not compare below the entry. -/
def insert (v : Version) (entry : NewFileEntry) (table : Table) (options : EmbeddedDBOptions) :
    Version :=
  let levels := v.levels ++
    (List.range' v.levels.length (entry.level + 1 - v.levels.length)).map (newLevel options)
  match levels[entry.level]? with
  | none => ⟨levels⟩
  | some level =>
    if entry.level = 0 then ⟨levels.set 0 { level with tables := level.tables ++ [⟨entry, table⟩] }⟩
    else
      let idx := (lowerBoundBy level.tables entry
        fun e1 e2 => (e1.entry.compare e2).isGE).getD level.tables.length
      ⟨levels.set entry.level
        { level with tables := level.tables.take idx ++ ⟨entry, table⟩ :: level.tables.drop idx }⟩

/-- `Version::remove`; `none` where the source indexes a missing level (a panic). The `Bool` says
whether the file was found. -/
def remove (v : Version) (entry : DeletedFileEntry) : Option (Version × Bool) :=
  match v.levels[entry.level]? with
  | none => none
  | some level =>
    match level.tables.findIdx? (·.entry.number = entry.number) with
    | some idx => some (⟨v.levels.set entry.level { level with tables := level.tables.eraseIdx idx }⟩, true)
    | none => some (v, false)

/-- Every level's `total_size` is `0`: the only value the source writes to it. -/
def SizesUnset (v : Version) : Prop :=
  ∀ level ∈ v.levels, level.totalSize = 0

theorem newLevel_totalSize (options : EmbeddedDBOptions) (number : Nat) :
    (newLevel options number).totalSize = 0 := by
  unfold newLevel
  split <;> rfl

theorem SizesUnset.set {v : Version} (hv : v.SizesUnset) {i : Nat} {level : Level}
    (hlevel : level ∈ v.levels) (tables : List LevelTableEntry) :
    (Version.mk (v.levels.set i { level with tables })).SizesUnset := by
  intro l hl
  rcases List.mem_or_eq_of_mem_set hl with hl | rfl
  · exact hv l hl
  · exact hv level hlevel

theorem SizesUnset.insert {v : Version} (hv : v.SizesUnset) (entry : NewFileEntry) (table : Table)
    (options : EmbeddedDBOptions) : (v.insert entry table options).SizesUnset := by
  have hlevels : (Version.mk (v.levels ++
      (List.range' v.levels.length (entry.level + 1 - v.levels.length)).map
        (newLevel options))).SizesUnset := by
    intro l hl
    rcases List.mem_append.mp hl with hl | hl
    · exact hv l hl
    · obtain ⟨n, -, rfl⟩ := List.mem_map.mp hl
      exact newLevel_totalSize options n
  unfold Version.insert
  dsimp only
  cases hlevel : (v.levels ++ (List.range' v.levels.length (entry.level + 1 - v.levels.length)).map
      (newLevel options))[entry.level]? with
  | none => exact hlevels
  | some level =>
    dsimp only
    split_ifs
    · exact hlevels.set (List.mem_of_getElem? hlevel) _
    · exact hlevels.set (List.mem_of_getElem? hlevel) _

theorem SizesUnset.remove {v v' : Version} (hv : v.SizesUnset) {entry : DeletedFileEntry}
    {found : Bool} (h : v.remove entry = some (v', found)) : v'.SizesUnset := by
  unfold Version.remove at h
  split at h
  · cases h
  · rename_i level hlevel
    split at h
    · cases h
      exact hv.set (List.mem_of_getElem? hlevel) _
    · cases h
      exact hv

end Version

structure VersionEdit where
  logNumber : Option Nat := none
  prevLogNumber : Option Nat := none
  lastSequence : Option Nat := none
  newFiles : List NewFileEntry := []
  deletedFiles : List DeletedFileEntry := []
  nextFileNumber : Option Nat := none
  compactionWaterline : Option Nat := none
  deriving DecidableEq, Repr

structure VersionSet where
  options : EmbeddedDBOptions
  latestVersion : Version
  nextFileNumber : Nat
  logNumber : Option Nat
  prevLogNumber : Option Nat
  lastSequence : Nat
  compactionWaterline : Option Nat
  deriving DecidableEq

/-- What `select_tables_to_compaction` and `select_stale_table_to_compact` choose. -/
structure CompactionSpec where
  level : Nat
  tables : List LevelTableEntry
  nextLevel : Nat
  nextLevelTables : List LevelTableEntry
  foundOverlap : Bool
  deriving DecidableEq, Repr

namespace VersionSet

def new (options : EmbeddedDBOptions) : VersionSet :=
  ⟨options, ⟨[]⟩, 2, none, none, 0, none⟩

/-- The deleted files, one after another; an error where `assert!(version.remove(..))` fails. -/
def removeAll (v : Version) : List DeletedFileEntry → Except String Version
  | [] => .ok v
  | e :: es =>
    match v.remove e with
    | some (v, true) => removeAll v es
    | _ => .error "assertion failed: version.remove(&entry)"

/-- A sequence number that an edit may only move up (the `assert!`s of `apply_new_edit`). -/
def raise (current : Nat) (new : Option Nat) (assertion : String) : Except String Nat :=
  match new with
  | some n => if n ≥ current then .ok n else .error assertion
  | none => .ok current

/-- `apply_new_edit`: the new files are paired with the opened tables in order (`zip`). -/
def applyNewEdit (vs : VersionSet) (edit : VersionEdit) (newTables : List Table) :
    Except String VersionSet := do
  let lastSequence ← raise vs.lastSequence edit.lastSequence
    "assertion failed: last_sequence >= self.last_sequence"
  let nextFileNumber ← raise vs.nextFileNumber edit.nextFileNumber
    "assertion failed: next_file_number >= self.next_file_number"
  let prevLogNumber := match edit.prevLogNumber with
    | some 0 => none
    | some n => some n
    | none => vs.prevLogNumber
  let latestVersion ←
    if edit.newFiles.isEmpty ∧ edit.deletedFiles.isEmpty then pure vs.latestVersion
    else do
      let v ← removeAll vs.latestVersion edit.deletedFiles
      pure ((edit.newFiles.zip newTables).foldl (fun v (e, t) => v.insert e t vs.options) v)
  pure { vs with
    lastSequence
    nextFileNumber
    logNumber := edit.logNumber.or vs.logNumber
    prevLogNumber
    compactionWaterline := edit.compactionWaterline.or vs.compactionWaterline
    latestVersion }

/-- A property of the version set that every edit keeps. -/
def EditInvariant (P : VersionSet → Prop) : Prop :=
  ∀ {vs vs' : VersionSet} {edit : VersionEdit} {tables : List Table}, P vs →
    vs.applyNewEdit edit tables = .ok vs' → P vs'

theorem removeAll_sizesUnset : ∀ {v v' : Version} (entries : List DeletedFileEntry),
    v.SizesUnset → removeAll v entries = .ok v' → v'.SizesUnset
  | v, v', [], hv, h => by
    cases h
    exact hv
  | v, v', e :: es, hv, h => by
    unfold removeAll at h
    split at h
    · rename_i v₁ hremove
      exact removeAll_sizesUnset es (hv.remove hremove) h
    · cases h

theorem sizesUnset_editInvariant : EditInvariant fun vs => vs.latestVersion.SizesUnset := by
  intro vs vs' edit tables hvs h
  unfold applyNewEdit at h
  cases hlast : raise vs.lastSequence edit.lastSequence
      "assertion failed: last_sequence >= self.last_sequence" with
  | error e => simp [hlast, bind, Except.bind] at h
  | ok lastSequence =>
    cases hnext : raise vs.nextFileNumber edit.nextFileNumber
        "assertion failed: next_file_number >= self.next_file_number" with
    | error e => simp [hlast, hnext, bind, Except.bind] at h
    | ok nextFileNumber =>
      simp only [hlast, hnext, bind, Except.bind, pure, Except.pure] at h
      split at h
      · cases h
        exact hvs
      · cases hremove : removeAll vs.latestVersion edit.deletedFiles with
        | error e => simp [hremove] at h
        | ok v =>
          simp only [hremove, Except.ok.injEq] at h
          subst h
          have hfold : ∀ (files : List (NewFileEntry × Table)) (v : Version), v.SizesUnset →
              (files.foldl (fun v (e, t) => v.insert e t vs.options) v).SizesUnset := by
            intro files
            induction files with
            | nil => exact fun _ hv => hv
            | cons f files ih => exact fun v hv => ih _ (hv.insert f.1 f.2 vs.options)
          exact hfold _ v (removeAll_sizesUnset _ hvs hremove)

section EditInvariant

variable {P : VersionSet → Prop}

/-- An edit made or skipped on a condition keeps an invariant of edits. -/
theorem EditInvariant.ite (hP : EditInvariant P) {c : Bool} {vs vs' : VersionSet}
    {edit : VersionEdit} {tables : List Table} (hvs : P vs)
    (h : (if c then vs.applyNewEdit edit tables else pure vs) = .ok vs') : P vs' := by
  split at h
  · exact hP hvs h
  · cases h
    exact hvs

theorem EditInvariant.ite_pure (hP : EditInvariant P) {c : Bool} {vs vs' : VersionSet}
    {edit : VersionEdit} {tables : List Table} (hvs : P vs)
    (h : (if c then pure vs else vs.applyNewEdit edit tables) = .ok vs') : P vs' := by
  split at h
  · cases h
    exact hvs
  · exact hP hvs h

end EditInvariant

/-- `target_file_size`: level 0 counts as level 1. -/
def targetFileSize (vs : VersionSet) (level : Nat) : Nat :=
  let level := if level = 0 then 1 else level
  vs.options.targetFileSizeBase * vs.options.targetFileSizeMultiplier ^ (level - 1)

/-- The loop of `pick_memtable_level`: the last level before the first one with a table that
overlaps `keyRange`, and whether there is such a level. -/
def pickMemtableLevel.loop (keyRange : KeyRange) : List Level → Nat → Nat → Nat × Bool
  | [], _, highestLevel => (highestLevel, false)
  | level :: levels, i, highestLevel =>
    if level.tables.any fun t => keyRange.overlapsWith t.keyRange then (highestLevel, true)
    else loop keyRange levels (i + 1) i

/-- `pick_memtable_level`: the deepest level, up to `max_memtable_level`, that a memtable with
this key range can go to with no overlapping table in it or above it. -/
def pickMemtableLevel (vs : VersionSet) (keyRange : KeyRange) : Nat × Bool :=
  let (highestLevel, foundOverlap) := pickMemtableLevel.loop keyRange vs.latestVersion.levels 0 0
  let highestLevel :=
    if !foundOverlap ∧ highestLevel < vs.options.maxMemtableLevel then vs.options.maxMemtableLevel
    else highestLevel
  (min vs.options.maxMemtableLevel highestLevel, foundOverlap)

/-- `find_overlapping_tables`: whether a table of a level from `firstLevel` on overlaps. -/
def findOverlappingTables (vs : VersionSet) (firstLevel : Nat) (keyRange : KeyRange) : Bool :=
  (vs.latestVersion.levels.drop firstLevel).any fun level =>
    level.tables.any fun t => t.keyRange.overlapsWith keyRange

/-- The `while` loop of `select_tables_to_compaction` that widens `[i, j)` until the level is
under its limit. It indexes `tables[j]` also when moving `i` down, where `j` is past the end. -/
def widen (tables : List LevelTableEntry) (maxSize : Nat) :
    Nat → Nat → Nat → Nat → Except String (Nat × Nat)
  | 0, i, j, _ => .ok (i, j)
  | fuel + 1, i, j, newTotalSize =>
    if newTotalSize > maxSize then
      match tables[j]? with
      | some t =>
        if t.entry.fileSize ≤ newTotalSize then
          widen tables maxSize fuel i (j + 1) (newTotalSize - t.entry.fileSize)
        else .error "attempt to subtract with overflow"
      -- `j` is past the end: moving `i` down still reads `tables[j]`.
      | none => if i > 0 then .error "index out of bounds" else .ok (i, j)
    else .ok (i, j)

/-- The next level's tables that overlap `keyRange`: trim non-overlapping tables off both ends. -/
def trimNextLevel (keyRange : KeyRange) : Nat → List LevelTableEntry → List LevelTableEntry
  | 0, ts => ts
  | fuel + 1, ts =>
    match ts.head?, ts.getLast? with
    | some first, some last =>
      if !first.keyRange.overlapsWith keyRange then trimNextLevel keyRange fuel ts.tail
      else if !last.keyRange.overlapsWith keyRange then trimNextLevel keyRange fuel ts.dropLast
      else ts
    | _, _ => ts

/-- The key range of a non-empty list of tables. -/
def unionRanges (first : LevelTableEntry) (rest : List LevelTableEntry) : KeyRange :=
  rest.foldl (fun r t => r.union t.keyRange) first.keyRange

/-- `select_tables_to_compaction`, with the random number it draws. -/
def selectTablesToCompaction (vs : VersionSet) (random : Nat) :
    Except String (Option CompactionSpec) := do
  let levels := vs.latestVersion.levels
  let selected ← match levels with
    | level0 :: _ :: _ =>
      if level0.tables.length ≥ vs.options.level0FileNumCompactionTrigger then
        pure (some (0, level0.tables))
      else pure none
    | _ => pure none
  let selected ← match selected with
    | some s => pure (some s)
    | none =>
      match (levels.drop 1).findIdx? (fun l => l.totalSize > l.maxSize) with
      | none => pure none
      | some k =>
        match levels[k + 1]? with
        | none => pure none
        | some level =>
          if level.tables.length = 0 then throw "attempt to calculate the remainder with a divisor of zero"
          else
            let i := random % level.tables.length
            let (i, j) ← widen level.tables level.maxSize (level.tables.length + 1) i i level.totalSize
            pure (some (k + 1, (level.tables.drop i).take (j - i)))
  match selected with
  | none => pure none
  | some (levelNum, tables) =>
    match tables with
    | [] => throw "assertion failed: tables.len() > 0"
    | first :: rest =>
      let keyRange := unionRanges first rest
      let nextLevel := levelNum + 1
      let nextLevelTables := match levels[nextLevel]? with
        | some level => trimNextLevel keyRange level.tables.length level.tables
        | none => []
      pure (some ⟨levelNum, tables, nextLevel, nextLevelTables,
        vs.findOverlappingTables (nextLevel + 1) keyRange⟩)

/-- `stale_fraction` of a table. -/
def staleFraction (p : TableProperties) : ℚ :=
  (p.numStaleEntries : ℚ) / max (p.numEntries : ℚ) ((p.staleValueSize : ℚ) / p.rawValueSize)

/-- Whether `select_stale_table_to_compact` picks a table at this waterline. -/
def isStale (vs : VersionSet) (compactionWaterline : Nat) (p : TableProperties) : Bool :=
  match p.staleClearWaterline with
  | none => false
  | some w => !(compactionWaterline < w) && !(staleFraction p < vs.options.staleCompactionThreshold)

/-- `select_stale_table_to_compact`: the last table found, at the deepest level, that is stale
enough; it is compacted in place (`next_level: level`). A table whose properties lack the stale
waterline fails the `assert!`. -/
def selectStaleTableToCompact (vs : VersionSet) (compactionWaterline : Nat) :
    Except String (Option CompactionSpec) := do
  let levels := (vs.latestVersion.levels.zipIdx).drop 1
  if levels.any fun (l, _) => l.tables.any fun t => t.table.properties.staleClearWaterline.isNone then
    throw "assertion failed: table.properties().has_stale_clear_waterline()"
  let found := levels.flatMap fun (l, levelNum) =>
    (l.tables.filter fun t => vs.isStale compactionWaterline t.table.properties).map (·, levelNum)
  match found.getLast? with
  | none => pure none
  | some (t, level) =>
    pure (some ⟨level, [t], level, [], vs.findOverlappingTables (level + 1) t.keyRange⟩)

end VersionSet

end Dacha.SSTable
