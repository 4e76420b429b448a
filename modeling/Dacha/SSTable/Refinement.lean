import Dacha.SSTable.Db
import Dacha.SSTable.SkipList

/-!
# The database as a sequential map

What `EmbeddedDB` is for: after a sequence of write batches, `get(key)` returns the value of the
last write of `key`, in the order of the batches and of the writes inside each batch, or `None`
when that write is a deletion or there is none. `lastWrite` states this map, and
`get_eq_lastWrite` proves that every run of writes from a new database refines it, when each
batch writes a key at most once.

The proof carries one invariant over the run, `HoldsWrites`: the memtable's entries in strictly
increasing key order, none above the last sequence, and the first entry of each key reading as
`lastWrite`. A batch gets a sequence above every held entry (`write_ok`), so each of its entries
is the newest of its key; the seek of `get` lands on the first entry of the key
(`seek_head_eq_find`), which is that newest one.

All the writes of one batch share one sequence number (`WriteBatchIterator::apply`), and the
internal-key comparator orders only by user key and sequence. Two writes of one user key in one
batch are then equal keys of the memtable, and which of them a read sees depends on the levels the
skip list drew, not on their order in the batch (`write_batch.rs:138` notes that batches must touch
distinct keys): `put_delete_batch_get_returns_put`.
-/

namespace Dacha.SSTable

open Dacha.Common SkipListMemtable

/-- The user key a write touches. -/
def Write.key : Write → List UInt8
  | .Value key _ => key
  | .Deletion key => key

/-- The value a write leaves for its key: `none` for a deletion. -/
def Write.newValue : Write → Option (List UInt8)
  | .Value _ value => some value
  | .Deletion _ => none

/-- The sequential map: the value the last write of `key` leaves, `none` when nothing wrote it. -/
def lastWrite (key : List UInt8) (writes : List Write) : Option (List UInt8) :=
  writes.foldl (fun acc w => if w.key = key then w.newValue else acc) none

/-- The entry a write puts into the memtable under the sequence of its batch. -/
def Write.entry (sequence : Nat) : Write → KeyValueEntry
  | .Value key value => ⟨⟨key, sequence, .Value⟩, value⟩
  | .Deletion key => ⟨⟨key, sequence, .Deletion⟩, []⟩

/-- What a read returns of the entry it finds: the value, or nothing for a deletion. -/
def KeyValueEntry.readValue (e : KeyValueEntry) : Option (List UInt8) :=
  if e.key.typ = .Deletion then none else some e.value

@[simp] theorem Write.entry_userKey (sequence : Nat) (w : Write) :
    (w.entry sequence).key.userKey = w.key := by
  cases w <;> rfl

@[simp] theorem Write.entry_sequence (sequence : Nat) (w : Write) :
    (w.entry sequence).key.sequence = sequence := by
  cases w <;> rfl

@[simp] theorem Write.readValue_entry (sequence : Nat) (w : Write) :
    (w.entry sequence).readValue = w.newValue := by
  cases w <;> rfl

section Sorted

variable {L : List KeyValueEntry}

/-- On entries in strictly increasing key order, all at most `S`, the first entry a seek before
the versions of `k` up to `S` lands on is of `k` exactly when `k` has an entry, and it is the
first entry of `k`. -/
theorem seek_head_eq_find (k : List UInt8) (S : Nat) :
    ∀ {L : List KeyValueEntry}, L.Pairwise (fun a b => a.key.compare b.key = .lt) →
      (∀ e ∈ L, e.key.sequence ≤ S) →
      ((L.filter fun e => (e.key.compare (InternalKey.beforeWithSequence k S)).isGE).head?.filter
        fun e => e.key.userKey = k) = L.find? fun e => e.key.userKey = k
  | [], _, _ => rfl
  | x :: rest, hL, hseq => by
    obtain ⟨hxrest, hrest⟩ := List.pairwise_cons.mp hL
    by_cases hge : (x.key.compare (InternalKey.beforeWithSequence k S)).isGE = true
    · rw [List.filter_cons, if_pos hge, List.head?_cons, List.find?_cons]
      by_cases hk : x.key.userKey = k
      · simp [hk]
      · -- `x` is above every version of `k`, and every later entry is above `x`
        have hxk : bytewiseCompare x.key.userKey k = .gt := by
          rw [InternalKey.compare_of_userKey_ne (by exact hk)] at hge
          exact (Ordering.isGE_iff_eq_gt_or_eq_eq.mp hge).resolve_right
            fun h => hk (bytewiseCompare_eq_iff.mp h)
        have hnone : rest.find? (fun e => e.key.userKey = k) = none := by
          refine List.find?_eq_none.mpr fun y hy hyk => ?_
          have hyk : y.key.userKey = k := by simpa using hyk
          have hxy := hxrest y hy
          have hlast : x.key.compare ⟨k, 0, .Value⟩ = .gt := by
            rw [InternalKey.compare_of_userKey_ne (by exact hk)]
            exact hxk
          have hyx : y.key.compare x.key = .gt := by
            rw [InternalKey.compare_swap, hxy]; rfl
          have hy' : y.key.compare ⟨k, 0, .Value⟩ = .gt := Std.TransCmp.gt_trans hyx hlast
          rw [InternalKey.compare_of_userKey_eq (by exact hyk)] at hy'
          cases hs : y.key.sequence with
          | zero => simp [hs] at hy'
          | succ n => simp [hs, Nat.compare_eq_gt] at hy'
        simp [hk, hnone]
    · rw [List.filter_cons, if_neg hge, List.find?_cons]
      have hk : x.key.userKey ≠ k := by
        intro hk
        rw [InternalKey.compare_of_userKey_eq (by exact hk)] at hge
        exact hge (Nat.isGE_compare.mpr (hseq x List.mem_cons_self))
      simp only [hk, decide_false]
      exact seek_head_eq_find k S hrest fun e he => hseq e (List.mem_cons_of_mem x he)

/-- On entries in strictly increasing key order the first entry of `k` is its newest: every other
entry of `k` has a lower sequence. -/
theorem find_userKey_eq_some_iff (hL : L.Pairwise fun a b => a.key.compare b.key = .lt)
    {k : List UInt8} {e : KeyValueEntry} :
    L.find? (fun e => e.key.userKey = k) = some e ↔
      e ∈ L ∧ e.key.userKey = k ∧
        ∀ e' ∈ L, e'.key.userKey = k → e'.key.sequence ≤ e.key.sequence := by
  have first : ∀ f, L.find? (fun e => e.key.userKey = k) = some f →
      f ∈ L ∧ f.key.userKey = k ∧
        ∀ e' ∈ L, e'.key.userKey = k → e' = f ∨ e'.key.sequence < f.key.sequence := by
    intro f hf
    have hmem := List.mem_of_find?_eq_some hf
    obtain ⟨hfk, pre, post, rfl, hpre⟩ := List.find?_eq_some_iff_append.mp hf
    have hfk : f.key.userKey = k := by simpa using hfk
    refine ⟨hmem, hfk, fun e' he' he'k => ?_⟩
    rcases List.mem_append.mp he' with hpre' | hpost
    · simpa [he'k] using hpre e' hpre'
    · rcases List.mem_cons.mp hpost with rfl | hpost
      · exact .inl rfl
      · have hlt := (List.pairwise_cons.mp (List.pairwise_append.mp hL).2.1).1 e' hpost
        rw [InternalKey.compare_of_userKey_eq (hfk.trans he'k.symm), Nat.compare_eq_lt] at hlt
        exact .inr hlt
  constructor
  · intro he
    obtain ⟨hmem, hek, hafter⟩ := first e he
    refine ⟨hmem, hek, fun e' he' he'k => ?_⟩
    rcases hafter e' he' he'k with rfl | hlt
    · exact le_refl _
    · exact hlt.le
  · rintro ⟨hmem, hek, hmax⟩
    cases hf : L.find? (fun e => e.key.userKey = k) with
    | none => exact absurd (List.find?_eq_none.mp hf e hmem) (by simpa using hek)
    | some f =>
      obtain ⟨hfmem, hfk, hafter⟩ := first f hf
      rcases hafter e hmem hek with rfl | hlt
      · rfl
      · exact absurd (hmax f hfmem hfk) (Nat.not_le.mpr hlt)

end Sorted

section LastWrite

variable {k : List UInt8}

theorem foldl_lastWrite_of_not_mem : ∀ (ws : List Write) (acc : Option (List UInt8)),
    (∀ w ∈ ws, w.key ≠ k) →
      ws.foldl (fun acc w => if w.key = k then w.newValue else acc) acc = acc
  | [], _, _ => rfl
  | w :: ws, acc, h => by
    rw [List.foldl_cons, if_neg (h w List.mem_cons_self)]
    exact foldl_lastWrite_of_not_mem ws acc fun w' hw' => h w' (List.mem_cons_of_mem w hw')

theorem lastWrite_append_of_not_mem {ws ws' : List Write} (h : ∀ w ∈ ws', w.key ≠ k) :
    lastWrite k (ws ++ ws') = lastWrite k ws := by
  rw [lastWrite, List.foldl_append, foldl_lastWrite_of_not_mem ws' _ h, lastWrite]

/-- A batch that writes `k` once decides what the last write of `k` left. -/
theorem lastWrite_append_of_mem {ws ws' : List Write} (hnodup : (ws'.map Write.key).Nodup)
    {w : Write} (hw : w ∈ ws') (hk : w.key = k) : lastWrite k (ws ++ ws') = w.newValue := by
  obtain ⟨pre, post, rfl⟩ := List.append_of_mem hw
  have hpost : ∀ w' ∈ post, w'.key ≠ k := by
    intro w' hw' hw'k
    rw [List.map_append, List.map_cons] at hnodup
    have hnd := (List.nodup_append.mp hnodup).2.1
    exact (List.nodup_cons.mp hnd).1 (hk ▸ hw'k ▸ List.mem_map_of_mem hw')
  rw [lastWrite, List.foldl_append, List.foldl_append, List.foldl_cons, if_pos hk,
    foldl_lastWrite_of_not_mem post _ hpost]

end LastWrite

/-- The step lemma of a batch: its writes go into the memtable as their entries under the batch's
sequence, and keep it sorted when they are fresh: of distinct keys, and equal to no held entry. -/
theorem WriteBatch.apply_holdsSorted (sequence : Nat) :
    ∀ (ws : List Write) (m : MemTable) (entries : List KeyValueEntry), HoldsSorted m.table entries →
      (ws.map Write.key).Nodup →
      (∀ e ∈ entries, ∀ w ∈ ws, (w.entry sequence).key.compare e.key ≠ .eq) →
      HoldsSorted (WriteBatch.apply sequence ws m).table
        (entries ++ ws.map (Write.entry sequence))
  | [], m, entries, h, _, _ => by simpa [WriteBatch.apply] using h
  | w :: ws, m, entries, h, hnodup, hfresh => by
    have happly : WriteBatch.apply sequence (w :: ws) m = WriteBatch.apply sequence ws
        (m.insert (w.entry sequence).key (w.entry sequence).value) := by
      cases w <;> rfl
    have hstep : HoldsSorted (m.insert (w.entry sequence).key (w.entry sequence).value).table
        (entries ++ [w.entry sequence]) :=
      h.insert _ _ fun e he => hfresh e he w List.mem_cons_self
    obtain ⟨hw, hnodup⟩ := List.nodup_cons.mp hnodup
    have hfresh' : ∀ e ∈ entries ++ [w.entry sequence], ∀ w' ∈ ws,
        (w'.entry sequence).key.compare e.key ≠ .eq := by
      intro e he w' hw' heq
      rcases List.mem_append.mp he with he | he
      · exact hfresh e he w' (List.mem_cons_of_mem w hw') heq
      · rw [List.mem_singleton.mp he, InternalKey.compare_eq_iff] at heq
        simp only [Write.entry_userKey] at heq
        exact hw (heq.1 ▸ List.mem_map_of_mem hw')
    rw [happly]
    simpa using apply_holdsSorted sequence ws _ _ hstep hnodup hfresh'

theorem VersionSet.applyNewEdit_of_no_files {vs vs' : VersionSet} {edit : VersionEdit}
    (h : vs.applyNewEdit edit [] = .ok vs') (hnew : edit.newFiles = [])
    (hdeleted : edit.deletedFiles = []) :
    vs'.latestVersion = vs.latestVersion ∧
      vs'.compactionWaterline = edit.compactionWaterline.or vs.compactionWaterline := by
  unfold VersionSet.applyNewEdit at h
  cases hlast : raise vs.lastSequence edit.lastSequence
      "assertion failed: last_sequence >= self.last_sequence" with
  | error e => simp [hlast, bind, Except.bind] at h
  | ok lastSequence =>
    cases hnext : raise vs.nextFileNumber edit.nextFileNumber
        "assertion failed: next_file_number >= self.next_file_number" with
    | error e => simp [hlast, hnext, bind, Except.bind] at h
    | ok nextFileNumber =>
      simp only [hlast, hnext, hnew, hdeleted, bind, Except.bind, List.isEmpty_nil, and_self,
        if_true, pure, Except.pure, Except.ok.injEq] at h
      subst h
      exact ⟨rfl, rfl⟩

namespace EmbeddedDBState

/-- What a database that has taken only writes looks like: no immutable memtable, no level, the
waterline at 0, and a memtable whose entries are in strictly increasing key order and none above
the last sequence, where the first entry of each key reads as what the last of `writes` to the key
left. -/
structure HoldsWrites (db : EmbeddedDBState) (writes : List Write) : Prop where
  immutable : db.immutableTable = none
  levels : db.versionSet.latestVersion.levels = []
  waterline : db.versionSet.compactionWaterline.getD 0 = 0
  sorted : db.mutableTable.table.iter.Pairwise fun a b => a.key.compare b.key = .lt
  sequences : ∀ e ∈ db.mutableTable.table.iter, e.key.sequence ≤ db.logLastSequence
  reads : ∀ k, (db.mutableTable.table.iter.find? fun e => e.key.userKey = k).bind
    KeyValueEntry.readValue = lastWrite k writes

variable {db db' : EmbeddedDBState} {writes : List Write}

/-- The read path on such a database: the seek lands on the first entry of the key, if any. -/
theorem HoldsWrites.get (h : db.HoldsWrites writes) (k : List UInt8) :
    db.snapshot.get k = .ok (lastWrite k writes) := by
  set L := db.mutableTable.table.iter with hL
  set K := InternalKey.beforeWithSequence k db.logLastSequence
  have hseek : db.mutableTable.table.seek K = L.filter fun e => (e.key.compare K).isGE :=
    (HoldsSorted.of_strictlySorted ((iter_sorted_iff _).mp h.sorted) (List.Perm.refl _)).seek K
  have hfind : ∀ l : List KeyValueEntry, (∀ e ∈ l, e.key.sequence ≤ db.logLastSequence) →
      l.find? (·.key.sequence ≤ db.logLastSequence) = l.head? := by
    rintro (_ | ⟨x, l⟩) hl
    · rfl
    · simp [hl x List.mem_cons_self]
  have hvisible : ∀ e ∈ L.filter fun e => (e.key.compare K).isGE,
      e.key.sequence ≤ db.logLastSequence :=
    fun e he => h.sequences e (List.mem_filter.mp he).1
  have hmerge : mergeEntries (db.snapshot.seekSources K) = L.filter fun e => (e.key.compare K).isGE := by
    simp [Snapshot.seekSources, EmbeddedDBState.snapshot, h.immutable, h.levels, mergeEntries,
      mergeBy_eq_merge, hseek]
  have hlast : db.snapshot.lastSequence = db.logLastSequence := rfl
  unfold Snapshot.get Snapshot.entry
  rw [hlast, if_neg (by simp [EmbeddedDBState.snapshot, h.waterline])]
  dsimp only
  rw [hmerge, hfind _ hvisible,
    ← h.reads k, ← seek_head_eq_find k db.logLastSequence h.sorted h.sequences]
  cases (L.filter fun e => (e.key.compare K).isGE).head? with
  | none => rfl
  | some e =>
    by_cases hk : e.key.userKey = k
    · simp [hk, KeyValueEntry.readValue, Except.map, Option.filter]
    · simp [hk, Except.map, Option.filter]

theorem create_holdsWrites {options : EmbeddedDBOptions} (h : create options = .ok db) :
    db.HoldsWrites [] := by
  obtain ⟨vs₁, vs₂, h₁, h₂, h₃, hdb⟩ := create_ok h
  have hkeep : ∀ {vs vs' : VersionSet} {edit : VersionEdit},
      vs.latestVersion.levels = [] ∧ vs.compactionWaterline.getD 0 = 0 →
      edit.newFiles = [] → edit.deletedFiles = [] → edit.compactionWaterline.getD 0 = 0 →
      vs.applyNewEdit edit [] = .ok vs' →
      vs'.latestVersion.levels = [] ∧ vs'.compactionWaterline.getD 0 = 0 := by
    intro vs vs' edit ⟨hlevels, hwater⟩ hnew hdeleted hedit h
    obtain ⟨hv, hw⟩ := VersionSet.applyNewEdit_of_no_files h hnew hdeleted
    refine ⟨hv ▸ hlevels, ?_⟩
    rw [hw]
    cases hc : edit.compactionWaterline with
    | none => simpa using hwater
    | some w => simpa [hc] using hedit
  have hvs₁ := hkeep ⟨rfl, rfl⟩ rfl rfl rfl h₁
  have hvs₂ : vs₂.latestVersion.levels = [] ∧ vs₂.compactionWaterline.getD 0 = 0 := by
    split at h₂
    · exact hkeep hvs₁ rfl rfl rfl h₂
    · cases h₂
      exact hvs₁
  have hvs₃ : db.versionSet.latestVersion.levels = [] ∧
      db.versionSet.compactionWaterline.getD 0 = 0 := by
    split at h₃
    · rw [← Except.ok.inj h₃]
      exact hvs₂
    · exact hkeep hvs₂ rfl rfl rfl h₃
  have hbuild : ∀ vs : VersionSet,
      vs.latestVersion.levels = [] ∧ vs.compactionWaterline.getD 0 = 0 →
      (⟨vs.lastSequence, MemTable.new, none, vs, 0⟩ : EmbeddedDBState).HoldsWrites [] :=
    fun vs ⟨hlevels, hwater⟩ => ⟨rfl, hlevels, hwater, List.Pairwise.nil,
      by simp [SkipListMemtable.iter, MemTable.new, SkipListMemtable.new],
      fun k => by simp [SkipListMemtable.iter, MemTable.new, SkipListMemtable.new, lastWrite]⟩
  rw [hdb]
  exact hbuild _ hvs₃

/-- The step lemma: a batch of distinct keys keeps the view, now of the writes with the batch's
appended. Its entries carry a sequence above every held one, so each is the newest of its key. -/
theorem HoldsWrites.write (h : db.HoldsWrites writes) {batch : WriteBatch}
    (hnodup : (batch.writes.map Write.key).Nodup) (hw : db.write batch = .ok db') :
    db'.HoldsWrites (writes ++ batch.writes) := by
  obtain ⟨sequence, hlt, rfl⟩ := write_ok hw
  set L := db.mutableTable.table.iter
  have hold : HoldsSorted db.mutableTable.table L :=
    .of_strictlySorted ((iter_sorted_iff _).mp h.sorted) (List.Perm.refl _)
  have hnew : HoldsSorted (WriteBatch.apply sequence batch.writes db.mutableTable).table
      (L ++ batch.writes.map (Write.entry sequence)) := by
    refine WriteBatch.apply_holdsSorted sequence batch.writes _ L hold hnodup ?_
    intro e he w _ heq
    rw [InternalKey.compare_eq_iff, Write.entry_sequence] at heq
    have hle := h.sequences e he
    omega
  set L' := (WriteBatch.apply sequence batch.writes db.mutableTable).table.iter
  have hmem : ∀ e, e ∈ L' ↔ e ∈ L ∨ ∃ w ∈ batch.writes, w.entry sequence = e := by
    intro e
    rw [hnew.perm.mem_iff, List.mem_append, List.mem_map]
  have hold_lt : ∀ e ∈ L, e.key.sequence < sequence := fun e he =>
    lt_of_le_of_lt (h.sequences e he) hlt
  -- every entry, held or new, is at most the batch's sequence
  have hseq : ∀ e ∈ L', e.key.sequence ≤ sequence := by
    intro e he
    rcases (hmem e).mp he with he | ⟨w, -, rfl⟩
    · exact (hold_lt e he).le
    · exact le_of_eq (Write.entry_sequence sequence w)
  refine ⟨h.immutable, h.levels, h.waterline, hnew.sorted, hseq, ?_⟩
  · intro k
    by_cases hk : ∃ w ∈ batch.writes, w.key = k
    · -- the batch's write of `k` is the newest entry of `k`
      obtain ⟨w, hwmem, hwk⟩ := hk
      have hfind : L'.find? (fun e => e.key.userKey = k) = some (w.entry sequence) := by
        refine (find_userKey_eq_some_iff hnew.sorted).mpr
          ⟨(hmem _).mpr (.inr ⟨w, hwmem, rfl⟩), by simp [hwk], fun e' he' _ => ?_⟩
        rw [Write.entry_sequence]
        exact hseq e' he'
      rw [hfind, Option.bind_some, Write.readValue_entry, lastWrite_append_of_mem hnodup hwmem hwk]
    · -- no entry of the batch is of `k`: the entries of `k` are those held before
      push Not at hk
      have hnotk : ∀ w ∈ batch.writes, (w.entry sequence).key.userKey ≠ k := by
        intro w hw
        rw [Write.entry_userKey]
        exact hk w hw
      have hsame : L'.find? (fun e => e.key.userKey = k) = L.find? fun e => e.key.userKey = k := by
        cases hf : L.find? (fun e => e.key.userKey = k) with
        | none =>
          refine List.find?_eq_none.mpr fun e he hek => ?_
          have hek : e.key.userKey = k := by simpa using hek
          rcases (hmem e).mp he with he | ⟨w, hw, rfl⟩
          · exact List.find?_eq_none.mp hf e he (by simpa using hek)
          · exact hnotk w hw hek
        | some e =>
          obtain ⟨hemem, hek, hmax⟩ := (find_userKey_eq_some_iff h.sorted).mp hf
          refine (find_userKey_eq_some_iff hnew.sorted).mpr
            ⟨(hmem e).mpr (.inl hemem), hek, fun e' he' he'k => ?_⟩
          rcases (hmem e').mp he' with he' | ⟨w, hw, rfl⟩
          · exact hmax e' he' he'k
          · exact absurd he'k (hnotk w hw)
      rw [hsame, h.reads k, lastWrite_append_of_not_mem hk]

theorem run_write_cons (sizes : TableSizes) (db : EmbeddedDBState) (batch : WriteBatch)
    (events : List Event) :
    db.run sizes (.write batch :: events) = (db.write batch).bind fun db₁ => db₁.run sizes events :=
  rfl

/-- The run lemma: every run of batches of distinct keys keeps the view, of all their writes in
order. -/
theorem HoldsWrites.run (sizes : TableSizes) :
    ∀ (batches : List WriteBatch) {db db' : EmbeddedDBState} {writes : List Write},
      db.HoldsWrites writes → (∀ b ∈ batches, (b.writes.map Write.key).Nodup) →
      db.run sizes (batches.map .write) = .ok db' →
      db'.HoldsWrites (writes ++ batches.flatMap (·.writes))
  | [], db, db', writes, h, _, hrun => by
    cases hrun
    simpa using h
  | b :: bs, db, db', writes, h, hnodup, hrun => by
    rw [List.map_cons, run_write_cons] at hrun
    cases hw : db.write b with
    | error e => rw [hw] at hrun; cases hrun
    | ok db₁ =>
      rw [hw] at hrun
      have h₁ := h.write (hnodup b List.mem_cons_self) hw
      simpa using HoldsWrites.run sizes bs h₁ (fun b' hb' => hnodup b' (List.mem_cons_of_mem b hb'))
        hrun

end EmbeddedDBState

/-- `EmbeddedDB` refines the sequential map on every run of writes: from a new database, after
batches that each write a key at most once, `get(key)` returns what the last write of the key
left, in the order of the batches and of the writes in each, whatever levels the memtable draws. -/
theorem get_eq_lastWrite (sizes : TableSizes) {options : EmbeddedDBOptions}
    {batches : List WriteBatch} {db₀ db : EmbeddedDBState}
    (hcreate : EmbeddedDBState.create options = .ok db₀)
    (hdistinct : ∀ b ∈ batches, (b.writes.map Write.key).Nodup)
    (hrun : db₀.run sizes (batches.map .write) = .ok db) (k : List UInt8) :
    db.snapshot.get k = .ok (lastWrite k (batches.flatMap (·.writes))) := by
  simpa using ((EmbeddedDBState.create_holdsWrites hcreate).run sizes batches hdistinct hrun).get k

/-- Two batches: keys `1` and `2` written, then `1` deleted and `3` written. -/
def twoBatches : List WriteBatch :=
  [⟨0, [.Value [1] [1], .Value [2] [2]]⟩, ⟨0, [.Deletion [1], .Value [3] [3]]⟩]

theorem get_eq_lastWrite_twoBatches :
    ∃ db₀ db, EmbeddedDBState.create .default = .ok db₀ ∧
      (∀ b ∈ twoBatches, (b.writes.map Write.key).Nodup) ∧
      db₀.run ⟨fun _ => 0, fun _ => 0⟩ (twoBatches.map .write) = .ok db ∧
      db.snapshot.get [1] = .ok (lastWrite [1] (twoBatches.flatMap (·.writes))) := by
  have hok : (EmbeddedDBState.create .default).toOption.any (fun db₀ =>
      (db₀.run ⟨fun _ => 0, fun _ => 0⟩ (twoBatches.map .write)).toOption.any fun _ => true) =
        true := by
    decide +kernel
  obtain ⟨db₀, h₀, hrun⟩ := Dacha.Run.exists_ok_of_any hok
  obtain ⟨db, h₁, -⟩ := Dacha.Run.exists_ok_of_any hrun
  exact ⟨db₀, db, h₀, by decide, h₁, get_eq_lastWrite ⟨fun _ => 0, fun _ => 0⟩ h₀ (by decide) h₁ [1]⟩

/-- A fresh database, a batch that writes keys `3` and `4`, one batch that writes and then
deletes key `1`, and a read of key `1`. The memtable's generator draws the levels `0, 1` for the
first batch and `0, 0` for the second. -/
def putDeleteGet : Except String (Option (List UInt8)) := do
  let db ← EmbeddedDBState.create .default
  let db ← db.write ⟨0, [.Value [3] [3], .Value [4] [4]]⟩
  let db ← db.write ⟨0, [.Value [1] [2], .Deletion [1]]⟩
  db.snapshot.get [1]

/-- The read sees the write the batch overwrote: with both nodes of key `1` at level 0 the seek
stops at the first of the two equal keys, the value. -/
theorem put_delete_batch_get_returns_put :
    putDeleteGet = .ok (some [2]) ∧
      lastWrite [1] [.Value [3] [3], .Value [4] [4], .Value [1] [2], .Deletion [1]] = none :=
  ⟨by decide +kernel, by decide⟩

end Dacha.SSTable
