import Mathlib

/-!
# Raft protocol messages (`raft/proto/consensus.proto`, `raft/proto/lib.rs`)

The protobuf messages the consensus module reads and writes, with the fields it uses. Scalar
wrappers (`Term`, `LogIndex`, `ServerId`, `RequestId`) are natural numbers; a `u64` never
overflows in the runs considered. An unset message field reads as its default, which is what
the defaults of these structures say. A `oneof` is an inductive type whose `NOT_SET` case is
the unset one.

`Configuration` keeps its servers as a list in the order they were added; the methods of
`lib.rs:43-116` act on the first server with a given id:

* `server_mut` (`lib.rs:59-76`) returns the first server with the id and appends a new one
  when there is none; `Configuration.apply` changes its role.
* `RemoveServer` (`lib.rs:101-108`) removes the first server with the id.

Left out: `InstallSnapshotRequest.data`, `done` and `approximate_size` and the `Status`,
`LeaderHint` and `Propose*` messages, which the consensus module does not read.
-/

namespace Dacha.Raft

structure LogPosition where
  term : Nat := 0
  index : Nat := 0
  deriving DecidableEq, Repr

/-- `LogPosition::zero`: the position before the first entry of every log. -/
def LogPosition.zero : LogPosition := {}

inductive ServerRole
  | UNKNOWN
  | LEARNER
  | ASPIRING
  | MEMBER
  deriving DecidableEq, Repr

structure Server where
  id : Nat
  role : ServerRole := .UNKNOWN
  deriving DecidableEq, Repr

structure Configuration where
  servers : List Server := []
  deriving DecidableEq, Repr

inductive ConfigChange
  | AddMember (id : Nat)
  | AddLearner (id : Nat)
  | RemoveServer (id : Nat)
  | AddAspiring (id : Nat)
  | NOT_SET
  deriving DecidableEq, Repr

inductive LogEntryData
  | noop (value : Bool)
  | config (change : ConfigChange)
  | command (data : List UInt8)
  | NOT_SET
  deriving DecidableEq, Repr

structure LogEntry where
  pos : LogPosition
  data : LogEntryData
  deriving DecidableEq, Repr

/-- `consensus_state.proto` `Metadata`: the state written to disk before a vote is sent.
`voted_for = 0` is "no vote". -/
structure Metadata where
  currentTerm : Nat := 0
  votedFor : Nat := 0
  commitIndex : Nat := 0
  deriving DecidableEq, Repr

structure ConfigurationSnapshot where
  lastApplied : Nat := 0
  data : Configuration := {}
  deriving DecidableEq, Repr

structure RequestVoteRequest where
  term : Nat
  candidateId : Nat
  lastLogIndex : Nat
  lastLogTerm : Nat
  leaderApproval : Nat := 0
  deriving DecidableEq, Repr

structure RequestVoteResponse where
  term : Nat
  voteGranted : Bool
  lastConfigHint : Option ConfigurationSnapshot := none
  deriving DecidableEq, Repr

structure HeartbeatRequest where
  term : Nat
  leaderId : Nat
  deriving DecidableEq, Repr

structure HeartbeatResponse where
  term : Nat
  deriving DecidableEq, Repr

structure AppendEntriesRequest where
  term : Nat
  leaderId : Nat
  prevLogIndex : Nat
  prevLogTerm : Nat
  entries : List LogEntry := []
  leaderCommit : Nat
  timeoutNow : Bool := false
  deriving DecidableEq, Repr

structure AppendEntriesResponse where
  term : Nat
  success : Bool
  lastLogIndex : Nat
  deriving DecidableEq, Repr

structure InstallSnapshotRequest where
  term : Nat
  leaderId : Nat
  lastApplied : LogPosition := {}
  lastConfig : ConfigurationSnapshot := {}
  deriving DecidableEq, Repr

structure InstallSnapshotResponse where
  term : Nat
  deriving DecidableEq, Repr

namespace Configuration

/-- `Configuration::server` (`lib.rs:44-52`). -/
def server (c : Configuration) (serverId : Nat) : Option Server :=
  c.servers.find? (·.id = serverId)

/-- `Configuration::server_role` (`lib.rs:54-58`): `UNKNOWN` for a server not in the list. -/
def serverRole (c : Configuration) (serverId : Nat) : ServerRole :=
  ((c.server serverId).map (·.role)).getD .UNKNOWN

/-- `server_mut` (`lib.rs:59-76`) followed by an update of the returned server's role. -/
def serverMut (c : Configuration) (serverId : Nat) (f : ServerRole → ServerRole) :
    Configuration :=
  match c.servers.findIdx? (·.id = serverId) with
  | some i => ⟨c.servers.modify i fun s => { s with role := f s.role }⟩
  | none => ⟨c.servers ++ [{ id := serverId, role := f .UNKNOWN }]⟩

/-- `Configuration::apply` (`lib.rs:79-111`). -/
def apply (c : Configuration) : ConfigChange → Configuration
  | .AddLearner s => c.serverMut s fun _ => .LEARNER
  | .AddMember s => c.serverMut s fun _ => .MEMBER
  | .AddAspiring s => c.serverMut s fun
      | .MEMBER => .MEMBER
      -- `UNKNOWN`, `ASPIRING` and `LEARNER` become `ASPIRING`; a member is not downgraded.
      | _ => .ASPIRING
  | .RemoveServer s => ⟨c.servers.eraseP (·.id = s)⟩
  | .NOT_SET => c

end Configuration

end Dacha.Raft
