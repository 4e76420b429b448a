import Dacha.Raft.LogMetadata
import Dacha.Raft.ConfigState

/-!
# Consensus state, ticks and messages (`consensus/state.rs`, `consensus/tick.rs`, `module.rs:302-357`)

The state of one `ConsensusModule` and the `Tick` through which every operation returns its
side effects. `meta` and `to` are keywords of Lean, so the fields `ConsensusModule::meta`,
`Tick::meta` and `ConsensusMessage::to` are `meta_` and `to_` here.

* Time is in milliseconds: `Instant` and `Duration` are natural numbers, and
  `duration_since`, which saturates, is natural subtraction.
* A `HashMap` is Mathlib's `AList`. Its order is the order the model iterates in. The source
  iterates a map only where the order does not matter, except the promotion loop of `cycle`;
  there the model's order is one of the orders a `HashMap` may have.
* A `HashSet<ServerId>` is a list without duplicates, grown with `List.insert`.
* `random::clocked_rng()` is read by `new_election_timeout` and `pick_timeout_now_server_id`.
  Its values are not modelled; a tick carries the values it returns during the call
  (`entropy`), and `ConsensusModule::new` takes the one it needs. When `entropy` runs out the
  generator returns `0`.
* A panic, a failed `assert!` or `todo!()` is `Fault.panic` with Rust's message. `cycle` calls
  itself through `become_candidate`, `become_follower` and `propose_entry`; the model bounds
  that nesting by a fuel argument, and running out of it is `Fault.outOfFuel`, which is not a
  behaviour of the source.
-/

namespace Dacha.Raft

structure NewLogEntry where
  sequence : Nat
  entry : LogEntry
  deriving DecidableEq, Repr

inductive ConsensusMessageBody
  | PreVote (req : RequestVoteRequest)
  | RequestVote (req : RequestVoteRequest)
  | Heartbeat (req : HeartbeatRequest)
  /-- The entries are filled in from the log by the server that sends the request. -/
  | AppendEntries (request : AppendEntriesRequest) (lastLogIndex : Nat)
      (lastLogSequence : Nat)
  | InstallSnapshot (req : InstallSnapshotRequest)
  deriving DecidableEq, Repr

structure ConsensusMessage where
  requestId : Nat
  to_ : List Nat
  body : ConsensusMessageBody
  deriving DecidableEq, Repr

/-- `Tick` (`tick.rs:14-66`), with the random values of the call. -/
structure Tick where
  time : Nat
  meta_ : Bool := false
  config : Bool := false
  newEntries : List NewLogEntry := []
  messages : List ConsensusMessage := []
  nextTick : Option Nat := none
  entropy : List Nat := []
  deriving DecidableEq, Repr

namespace Tick

def writeMeta (t : Tick) : Tick := { t with meta_ := true }

def writeConfig (t : Tick) : Tick := { t with config := true }

def send (t : Tick) (msg : ConsensusMessage) : Tick := { t with messages := t.messages ++ [msg] }

/-- The next value of the random number generator. -/
def draw (t : Tick) : Nat × Tick :=
  match t.entropy with
  | [] => (0, t)
  | r :: rs => (r, { t with entropy := rs })

@[simp] theorem writeMeta_time (t : Tick) : t.writeMeta.time = t.time := rfl
@[simp] theorem writeConfig_time (t : Tick) : t.writeConfig.time = t.time := rfl
@[simp] theorem send_time (t : Tick) (msg : ConsensusMessage) : (t.send msg).time = t.time := rfl
@[simp] theorem draw_time (t : Tick) : t.draw.2.time = t.time := by
  unfold draw; split <;> rfl

end Tick

/-- `between` of `crypto::random` (`random.rs:320-335`) on `u64`: `min + r % (max - min)`. -/
def between (min max r : Nat) : Nat := min + r % (max - min)

/-- `ELECTION_TIMEOUT` (`module.rs:69`), in milliseconds. -/
def ELECTION_TIMEOUT : Nat × Nat := (400, 800)
def HEARTBEAT_INTERVAL : Nat := 150
def APPEND_ENTRIES_INTERVAL : Nat := 500
/-- `(ELECTION_TIMEOUT.0 as f32 / CLOCK_DRIFT_BOUND) as u64` with `CLOCK_DRIFT_BOUND = 2.0`. -/
def ELECTION_TIMEOUT_OVER_DRIFT : Nat := 200
def ROUND_TARGET_DURATION : Nat := 200
def SYNCHRONIZED_ROUNDS_THRESHOLD : Nat := 4
def MAX_IN_FLIGHT_REQUESTS : Nat := 32
def MAX_ENTRIES_PER_LIVE_APPEND : Nat := 32
def MAX_ENTRIES_PER_PESSIMISTIC_APPEND : Nat := 4
def MIN_PESSIMISTIC_APPEND_INTERVAL : Nat := 50
def MAX_COMMAND_SIZE : Nat := 4 * 1024 * 1024
def TIMEOUT_NOW_DEADLINE : Nat := 1000
def TIMEOUT_NOW_SEND_MAX_QUEUE_LENGTH : Nat := 4
def USIZE_MAX : Nat := 2 ^ 64 - 1

structure ConsensusFollowerState where
  electionTimeout : Nat
  lastLeaderId : Option Nat
  lastHeartbeat : Nat
  deriving DecidableEq, Repr

structure ConsensusCandidateState where
  attemptNumber : Nat
  electionStart : Nat
  electionTimeout : Nat
  voteRequestId : Nat
  preVotesReceived : List Nat
  mainVoteStart : Option Nat
  votesReceived : List Nat
  someRejected : Bool
  leaderApproval : Option Nat
  deriving DecidableEq, Repr

inductive ConsensusFollowerMode
  | Live
  | Pesimistic
  | CatchingUp
  | InstallingSnapshot
  deriving DecidableEq, Repr

structure PendingAppendEntries where
  startTime : Nat
  prevLogIndex : Nat
  lastIndexSent : Nat
  deriving DecidableEq, Repr

structure ConsensusFollowerProgress where
  mode : ConsensusFollowerMode
  nextIndex : Nat
  matchIndex : Nat
  leaseStart : Option Nat
  lastHeartbeatSent : Option Nat
  lastAppendEntriesSent : Option Nat
  lastCommitIndexSent : Nat
  pendingHeartbeatRequests : AList fun _ : Nat => Nat
  pendingAppendRequests : AList fun _ : Nat => PendingAppendEntries
  successfulRounds : Nat
  roundStart : Option (Nat × Nat)
  deriving DecidableEq

/-- `ConsensusFollowerProgress::new` (`state.rs:197-213`). -/
def ConsensusFollowerProgress.new (lastLogIndex : Nat) : ConsensusFollowerProgress where
  mode := .Pesimistic
  nextIndex := lastLogIndex + 1
  matchIndex := 0
  leaseStart := none
  lastHeartbeatSent := none
  lastAppendEntriesSent := none
  lastCommitIndexSent := 0
  pendingHeartbeatRequests := ∅
  pendingAppendRequests := ∅
  successfulRounds := 0
  roundStart := none

abbrev FollowerMap := AList fun _ : Nat => ConsensusFollowerProgress

structure ConsensusLeaderState where
  followers : FollowerMap
  minReadIndex : Nat
  leaseStart : Nat
  heartbeatNow : Bool
  deriving DecidableEq

inductive ConsensusState
  | Follower (s : ConsensusFollowerState)
  | Candidate (s : ConsensusCandidateState)
  | Leader (s : ConsensusLeaderState)
  deriving DecidableEq

structure DrainingState where
  term : Nat
  nextLeader : Option (Nat × Nat)
  deriving DecidableEq, Repr

structure ConsensusModule where
  id : Nat
  meta_ : Metadata
  persistedMeta : Metadata
  logMeta : LogMetadata
  logLastFlushed : Nat
  config : ConfigurationStateMachine
  state : ConsensusState
  draining : Option DrainingState
  pendingConflict : Option Nat
  pendingCommitIndex : Option Nat
  lastRequestId : Nat
  deriving DecidableEq

/-- How an operation stops short of returning. -/
inductive Fault
  | panic (message : String)
  | outOfFuel
  deriving DecidableEq, Repr

/-- The result of an operation on `&mut self` and `&mut Tick` that returns an `α`. -/
abbrev Outcome (α : Type) := Except Fault (α × ConsensusModule × Tick)

/-- An operation that returns nothing. -/
abbrev Transition := ConsensusModule → Tick → Outcome Unit

/-- `panic!` with the given message. -/
def panicWith {α : Type} (message : String) : Outcome α := .error (.panic message)

namespace ConsensusState

def isFollower : ConsensusState → Bool
  | .Follower _ => true
  | _ => false

def isLeader : ConsensusState → Bool
  | .Leader _ => true
  | _ => false

end ConsensusState

end Dacha.Raft
