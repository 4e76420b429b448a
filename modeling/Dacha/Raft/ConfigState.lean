import Dacha.Raft.Proto

/-!
# `ConfigurationStateMachine` (`raft/src/consensus/config_state.rs`)

The configuration the consensus module works with. Every configuration change takes effect as
soon as it is in the log (`apply`). `pending` is meant to hold the configuration as it was
before the last change that is not committed yet, so that a truncation can roll it back
(`revert`) and a commit can drop it (`commit`).

`apply` stores that record only when `entry.pos().index() < commit_index` (`config_state.rs:67`),
that is for changes that are already committed; the comment above it says "if the change is not
comitted". `apply_pending_of_le` states what follows: a change at or above the commit index
leaves `pending` as it was, so a leader appending a new change never records it.

The subtraction `pending.last_change - 1` of `snapshot` (`:126`) is on `u64`; pending changes
come from log entries, whose indexes start at 1, so it does not underflow.
-/

namespace Dacha.Raft

structure ConfigurationPending where
  lastChange : Nat
  previous : Configuration
  deriving DecidableEq, Repr

structure ConfigurationStateMachine where
  value : Configuration
  lastApplied : Nat
  pending : Option ConfigurationPending
  deriving DecidableEq, Repr

namespace ConfigurationStateMachine

/-- `ConfigurationStateMachine::from` (`:48-54`). -/
def fromSnapshot (snapshot : ConfigurationSnapshot) : ConfigurationStateMachine :=
  ⟨snapshot.data, snapshot.lastApplied, none⟩

/-- A configuration change of `apply`: the revert record is stored when the entry is below the
commit index (`:64-72`), then the change takes effect. -/
def applyChange (c : ConfigurationStateMachine) (entry : LogEntry) (change : ConfigChange)
    (commitIndex : Nat) : ConfigurationStateMachine :=
  let c := if entry.pos.index < commitIndex then
      { c with pending := some ⟨entry.pos.index, c.value⟩ }
    else c
  { c with value := c.value.apply change }

/-- `apply` (`:59-80`). -/
def apply (c : ConfigurationStateMachine) (entry : LogEntry) (commitIndex : Nat) :
    ConfigurationStateMachine :=
  if entry.pos.index < c.lastApplied then c
  else
    let c := match entry.data with
      | .config change => c.applyChange entry change commitIndex
      | _ => c
    { c with lastApplied := entry.pos.index }

/-- `revert` (`:84-96`): the panic is the `Except` error. -/
def revert (c : ConfigurationStateMachine) (index : Nat) :
    Except String ConfigurationStateMachine :=
  match c.pending with
  | some pending =>
    if pending.lastChange ≤ index then
      .ok { c with value := pending.previous, pending := none, lastApplied := index }
    else .ok { c with lastApplied := index }
  | none =>
    if c.lastApplied > index then .error "Attempting to revert from a committed config"
    else .ok { c with lastApplied := index }

/-- `commit` (`:101-120`): whether a pending change was dropped, and the new machine. -/
def commit (c : ConfigurationStateMachine) (commitIndex : Nat) :
    Bool × ConfigurationStateMachine :=
  match c.pending with
  | some pending =>
    if pending.lastChange ≤ commitIndex then (true, { c with pending := none }) else (false, c)
  | none => (false, c)

/-- `snapshot` (`:124-142`): the configuration without its pending change. -/
def snapshot (c : ConfigurationStateMachine) : ConfigurationSnapshot :=
  match c.pending with
  | some pending => ⟨pending.lastChange - 1, pending.previous⟩
  | none => ⟨c.lastApplied, c.value⟩

/-- A change at or above the commit index leaves `pending` untouched: the revert record is
never written for an uncommitted change. -/
theorem apply_pending_of_le (c : ConfigurationStateMachine) (entry : LogEntry)
    {commitIndex : Nat} (h : commitIndex ≤ entry.pos.index) :
    (c.apply entry commitIndex).pending = c.pending := by
  have hlt : ¬ entry.pos.index < commitIndex := by omega
  unfold apply
  split_ifs
  · rfl
  · cases entry.data <;> simp [applyChange, hlt]

/-- With nothing pending, the snapshot is the configuration itself. -/
@[simp] theorem snapshot_of_pending_none {c : ConfigurationStateMachine} (h : c.pending = none) :
    c.snapshot = ⟨c.lastApplied, c.value⟩ := by
  simp [snapshot, h]

@[simp] theorem commit_of_pending_none {c : ConfigurationStateMachine} (h : c.pending = none)
    (commitIndex : Nat) : c.commit commitIndex = (false, c) := by
  simp [commit, h]

end ConfigurationStateMachine

/-- What the configuration is meant to be: `base` with the configuration changes of `entries`
applied in order (`Configuration::apply` folded over the log). -/
def Configuration.applyLog (base : Configuration) (entries : List LogEntry) : Configuration :=
  entries.foldl (fun c e => match e.data with
    | .config change => c.apply change
    | _ => c) base

/-- A change adding server 2 as a member, at index 1 of term 1. -/
def addMemberTwo : LogEntry := ⟨⟨1, 1⟩, .config (.AddMember 2)⟩

/-- From an empty snapshot, `addMemberTwo` is applied while the commit index is 0. The
snapshot then persists the uncommitted change, and after the log is truncated from index 1,
`revert(1)` leaves the change in the configuration. -/
theorem truncated_change_survives_revert :
    ((ConfigurationStateMachine.fromSnapshot {}).apply addMemberTwo 0).snapshot.data ≠
        Configuration.applyLog {} ([addMemberTwo].filter (·.pos.index ≤ 0)) ∧
      (((ConfigurationStateMachine.fromSnapshot {}).apply addMemberTwo 0).revert 1).map (·.value) ≠
        .ok (Configuration.applyLog {} ([addMemberTwo].filter (·.pos.index < 1))) := by
  decide

end Dacha.Raft
