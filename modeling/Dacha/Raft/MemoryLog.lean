import Dacha.Raft.Handlers

/-!
# The in-memory log and `ConsensusModule::new` (`log/memory_log.rs`, `module.rs:371-463`)

`MemoryLogSync` keeps the position just before its first entry (`prev`) and the entries with
their sequences. It flushes nothing: `last_flushed` is the sequence of its last entry. The
`assert_eq!` of `term` (`memory_log.rs:66`) checks that the entry at an offset has the index
the offset stands for; `append` and `discard` keep that so, and the model reads the term
without it.

`ConsensusModule::new` rebuilds the `LogMetadata` and the configuration from the log it is
given, and starts the server as a follower.
-/

namespace Dacha.Raft

structure MemoryLog where
  prev : LogPosition := LogPosition.zero
  log : List (LogEntry × Nat) := []
  deriving DecidableEq, Repr

namespace MemoryLog

variable (l : MemoryLog)

/-- `off_for`: the offset in `log` of an index, if the log holds it. -/
def offFor (index : Nat) : Option Nat :=
  let firstIndex := l.prev.index + 1
  if index < firstIndex then none
  else if index - firstIndex ≥ l.log.length then none
  else some (index - firstIndex)

def lastIndex : Nat := l.prev.index + l.log.length

def term (index : Nat) : Option Nat :=
  if index = l.prev.index then some l.prev.term
  else
    match l.offFor index with
    | none => none
    | some off => l.log[off]?.map (·.1.pos.term)

def entry (index : Nat) : Option (LogEntry × Nat) :=
  match l.offFor index with
  | none => none
  | some off => l.log[off]?

/-- `entries`: the entries from `startIndex` to `endIndex` and the sequence of the last one. -/
def entries (startIndex endIndex : Nat) : Option (List LogEntry × Nat) :=
  match l.offFor startIndex, l.offFor endIndex with
  | some startOff, some endOff =>
    match l.log[endOff]? with
    | some (_, seq) => some (((l.log.drop startOff).take (endOff + 1 - startOff)).map (·.1), seq)
    | none => none
  | _, _ => none

/-- `append`: an entry at an index the log holds truncates the log there first. -/
def append (entry : LogEntry) (sequence : Nat) : Except String MemoryLog := do
  let l ← if entry.pos.index ≤ l.lastIndex then
      match l.offFor entry.pos.index with
      | some off => pure { l with log := l.log.take off }
      | none => throw "Truncating starting at unknown position"
    else pure l
  if l.lastIndex + 1 ≠ entry.pos.index then throw "assertion failed: `(left == right)`"
  pure { l with log := l.log ++ [(entry, sequence)] }

/-- `discard`: the log now starts after `pos`. Past the end of the log the whole log goes, and
`pos` must not be in an older term than the last entry; inside it, `pos` must be the entry's
position. -/
def discard (pos : LogPosition) : Except String MemoryLog :=
  if pos.index ≤ l.prev.index then
    if pos.term > l.prev.term then .error "Re-discard has unrealistic term" else .ok l
  else if pos.index > l.lastIndex then
    match l.term l.lastIndex with
    | none => .error UNWRAP_NONE
    | some lastTerm =>
      if pos.term < lastTerm then .error "Discarding must strictly use monotonic terms"
      else .ok { prev := pos, log := [] }
  else
    match l.offFor pos.index with
    | none => .error UNWRAP_NONE
    | some i =>
      match l.log[i]? with
      | none => .error "Out of bounds access"
      | some (entry, _) =>
        if pos.term ≠ entry.pos.term then .error "Inconsistent term in log and discard call."
        else .ok { prev := entry.pos, log := l.log.drop (i + 1) }

/-- `last_flushed`: everything is flushed as soon as it is appended. -/
def lastFlushed : Nat :=
  (l.log.getLast?.map (·.2)).getD 0

end MemoryLog

namespace ConsensusModule

/-- The entries of a log after its `prev`, as `new` walks them: the offsets of `LogMetadata`
are rebuilt from them. -/
def rebuildLogMeta (log : MemoryLog) : Except Fault LogMetadata := do
  let logMeta ← match LogMetadata.new.discard log.prev with
    | .ok v => pure v
    | .error msg => throw (.panic msg)
  (List.range' (log.prev.index + 1) (log.lastIndex - log.prev.index)).foldlM
    (fun logMeta i =>
      match log.entry i with
      | none => throw (.panic UNWRAP_NONE)
      | some (entry, sequence) =>
        match logMeta.append ⟨entry.pos, sequence⟩ with
        | .ok v => pure v
        | .error msg => throw (.panic msg))
    logMeta

/-- `ConsensusModule::new`, with `r` the random value `new_follower` draws. -/
def new (id : Nat) (meta_ : Metadata) (configSnapshot : ConfigurationSnapshot) (log : MemoryLog)
    (time r : Nat) : Except Fault ConsensusModule := do
  let logMeta ← rebuildLogMeta log
  let lastLogTerm ← match log.term log.lastIndex with
    | some v => pure v
    | none => throw (.panic UNWRAP_NONE)
  -- A log from a newer term than the metadata means no vote was cast in it.
  let meta_ := if lastLogTerm > meta_.currentTerm then
      { meta_ with currentTerm := lastLogTerm, votedFor := 0 }
    else meta_
  if configSnapshot.lastApplied < log.prev.index then
    throw (.panic "Config snapshot is from before the start of the log")
  let config ← (List.range' (configSnapshot.lastApplied + 1)
      (log.lastIndex + 1 - (configSnapshot.lastApplied + 1))).foldlM
    (fun config i =>
      match log.entry i with
      | none => throw (Fault.panic UNWRAP_NONE)
      | some (e, _) => pure (config.apply e meta_.commitIndex))
    (ConfigurationStateMachine.fromSnapshot configSnapshot)
  let config := (config.commit meta_.commitIndex).2
  pure
    { id, meta_, persistedMeta := meta_, logMeta, logLastFlushed := log.lastFlushed, config,
      state := (newFollower time { time, entropy := [r] }).1, draining := none,
      pendingConflict := none, pendingCommitIndex := none, lastRequestId := 0 }

end ConsensusModule

end Dacha.Raft
