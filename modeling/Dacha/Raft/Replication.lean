import Dacha.Raft.Core

/-!
# The leader's requests to its followers (`module.rs:1459-1871`)

`send_heartbeats` and `replicate_entries` walk the servers of the configuration and decide,
for each follower, whether a request is due. Each walk is a left fold of one function per
server (`heartbeatServer`, `replicateServer`) over the servers, with the values the loop
carries as its accumulator; the loop of `replicate_entries` can panic and is a fold in
`Except`.

* `send_heartbeats` (`:1459-1547`): one `Heartbeat` message to every follower whose lease is
  stale and whose last heartbeat is older than `HEARTBEAT_INTERVAL`.
* `replicate_entries` (`:1554-1821`): per follower, an `AppendEntries` message for the next run
  of entries when one is due, limited by the follower's mode; requests with the same range go
  out as one message (`message_map`, a `BTreeMap` sent in key order); a follower whose
  previous entry is no longer in the log is switched to `InstallingSnapshot`.
* `pick_timeout_now_server_id` (`:1823-1871`): a random synchronized member, when draining.

`AppendEntries` messages leave with no entries: the server fills them in from its log
(`server_shared.rs:1305-1345`).
-/

namespace Dacha.Raft

/-- `shuffle` of `crypto::random` (`random.rs:270-275`): for every `i`, swap `i` with a random
position. -/
def swapAt {α : Type} (xs : List α) (i j : Nat) : List α :=
  match xs[i]?, xs[j]? with
  | some a, some b => (xs.set i b).set j a
  | _, _ => xs

def shuffle {α : Type} (xs : List α) (t : Tick) : List α × Tick :=
  (List.range xs.length).foldl
    (fun acc i =>
      let (r, t) := acc.2.draw
      (swapAt acc.1 i (r % xs.length), t))
    (xs, t)

namespace ConsensusModule

variable (m : ConsensusModule)

/-! ## `send_heartbeats` -/

/-- The body of the loop of `send_heartbeats` for one server. The accumulator is the follower
map, the ids to send to and `next_heartbeat_time`. -/
def heartbeatServer (requestId : Nat) (now : Nat) (heartbeatNow : Bool)
    (acc : FollowerMap × List Nat × Nat) (server : Server) :
    FollowerMap × List Nat × Nat :=
  let (followers, toIds, nextHeartbeatTime) := acc
  if server.id = m.id then acc
  else
    let progress := (followers.lookup server.id).getD
      (.new m.logMeta.last.position.index)
    let followers := followers.insert server.id progress
    if progress.pendingHeartbeatRequests.entries.length ≥ MAX_IN_FLIGHT_REQUESTS then
      (followers, toIds, nextHeartbeatTime)
    else
      let nextFollowerHeartbeatTime :=
        max ((progress.leaseStart.map (· + HEARTBEAT_INTERVAL)).getD now)
          ((progress.lastHeartbeatSent.map (· + HEARTBEAT_INTERVAL)).getD now)
      if now ≥ nextFollowerHeartbeatTime ∨ heartbeatNow then
        let progress := { progress with
          lastHeartbeatSent := some now
          pendingHeartbeatRequests := progress.pendingHeartbeatRequests.insert requestId now }
        (followers.insert server.id progress, toIds ++ [server.id],
          min nextHeartbeatTime (now + HEARTBEAT_INTERVAL))
      else (followers, toIds, min nextHeartbeatTime nextFollowerHeartbeatTime)

/-- `send_heartbeats`: returns when heartbeats are next due. -/
def sendHeartbeats (t : Tick) : Outcome Nat :=
  match m.state with
  | .Leader state =>
    let requestId := m.lastRequestId + 1
    let (followers, toIds, nextHeartbeatTime) :=
      m.config.value.servers.foldl (m.heartbeatServer requestId t.time state.heartbeatNow)
        (state.followers, [], t.time + HEARTBEAT_INTERVAL)
    let m := { m with state := .Leader { state with heartbeatNow := false, followers } }
    if toIds = [] then .ok (nextHeartbeatTime, m, t)
    else
      .ok (nextHeartbeatTime, { m with lastRequestId := requestId },
        t.send ⟨requestId, toIds, .Heartbeat ⟨m.meta_.currentTerm, m.id⟩⟩)
  | _ => .error (.panic "Not the leader")

/-! ## `pick_timeout_now_server_id` -/

/-- `pick_timeout_now_server_id`: when draining, a random synchronized member to hand the
leadership to, at most once per `TIMEOUT_NOW_DEADLINE`. -/
def pickTimeoutNowServerId (now : Nat) (t : Tick) : Option Nat × Tick :=
  match m.state, m.draining with
  | .Leader state, some draining =>
    if draining.nextLeader.any fun (_, lastTime) => lastTime + TIMEOUT_NOW_DEADLINE ≥ now then
      (none, t)
    else
      let candidates := (m.config.value.servers.filter fun server =>
        server.id ≠ m.id ∧ server.role = .MEMBER ∧
          (state.followers.lookup server.id).any isFollowerSynchronized).map (·.id)
      if candidates = [] then (none, t)
      else
        let (candidates, t) := shuffle candidates t
        (candidates.head?, t)
  | _, _ => (none, t)

/-! ## `replicate_entries` -/

/-- The values the loop of `replicate_entries` carries, and what it writes to `self`. -/
structure ReplicateAcc where
  followers : FollowerMap
  /-- `message_map`, keyed by `(prev_log_index, last_log_index, timeout_now)`. -/
  messageMap : List ((Nat × Nat × Bool) × ConsensusMessage)
  installSnapshotIds : List Nat
  nextSendTime : Nat
  timeoutNowId : Option Nat
  lastRequestId : Nat
  draining : Option DrainingState
  numIterations : Nat

/-- The order of the keys of `message_map`: lexicographic, with `false < true`. -/
def keyLe (a b : Nat × Nat × Bool) : Bool :=
  a.1 < b.1 || (a.1 = b.1 && (a.2.1 < b.2.1 || (a.2.1 = b.2.1 && (!a.2.2 || b.2.2))))

/-- How many entries one request may carry, or `none` when flow control holds the follower
back (`module.rs:1648-1674`). -/
def maxEntriesPerRequest (progress : ConsensusFollowerProgress) : Option Nat :=
  match progress.mode with
  | .Live =>
    if progress.pendingAppendRequests.entries.length ≥ MAX_IN_FLIGHT_REQUESTS then none
    else some MAX_ENTRIES_PER_LIVE_APPEND
  | .Pesimistic | .CatchingUp =>
    if progress.pendingAppendRequests.entries.length > 0 then none
    else some MAX_ENTRIES_PER_PESSIMISTIC_APPEND
  | .InstallingSnapshot => none

/-- The first operand of `need_another_request`, which always runs: whether the retry interval
has passed, and `next_send_time` lowered to when it will. -/
def appendEntriesDue (progress : ConsensusFollowerProgress) (now nextSendTime : Nat) :
    Bool × Nat :=
  match progress.lastAppendEntriesSent with
  | some sent =>
    if sent + APPEND_ENTRIES_INTERVAL ≤ now then (true, nextSendTime)
    else (false, min (sent + APPEND_ENTRIES_INTERVAL) nextSendTime)
  | none => (true, nextSendTime)

/-- Non-live followers get at most one request per `MIN_PESSIMISTIC_APPEND_INTERVAL`
(`module.rs:1716-1728`): the time the next one is allowed, if it is not yet. -/
def pessimisticHold (progress : ConsensusFollowerProgress) (now : Nat) : Option Nat :=
  if progress.mode = .Live then none
  else
    match progress.lastAppendEntriesSent with
    | some lastTime =>
      if now < lastTime + MIN_PESSIMISTIC_APPEND_INTERVAL then
        some (lastTime + MIN_PESSIMISTIC_APPEND_INTERVAL)
      else none
    | none => none

/-- The request to one follower once it is decided (`module.rs:1732-1803`): record it in the
follower's progress and add it to `message_map`, or switch the follower to a snapshot when its
previous entry is gone. -/
def sendAppendEntries (now : Nat) (acc : ReplicateAcc) (id : Nat)
    (progress : ConsensusFollowerProgress) (prevLogIndex lastLogIndex : Nat)
    (timeoutNow : Bool) : Except Fault ReplicateAcc := do
  let leaderLastLogIndex := m.logMeta.last.position.index
  let progress := { progress with
    lastAppendEntriesSent := some now
    lastCommitIndexSent := m.meta_.commitIndex
    roundStart := if progress.roundStart.isNone then some (leaderLastLogIndex, now)
      else progress.roundStart
    nextIndex := lastLogIndex + 1 }
  let acc ← if timeoutNow then
      match acc.draining with
      | some d => pure { acc with
          timeoutNowId := none
          draining := some { d with nextLeader := some (id, now) } }
      | none => throw (Fault.panic UNWRAP_NONE)
    else pure acc
  let key := (prevLogIndex, lastLogIndex, timeoutNow)
  match acc.messageMap.find? (·.1 = key) with
  | some (_, msg) =>
    let requestId := msg.requestId
    if progress.pendingAppendRequests.lookup requestId |>.isSome then
      throw (Fault.panic
        "assertion failed: !progress.pending_append_requests.contains_key(&request_id)")
    let progress := { progress with pendingAppendRequests :=
      progress.pendingAppendRequests.insert requestId ⟨now, prevLogIndex, lastLogIndex⟩ }
    pure { acc with
      followers := acc.followers.insert id progress
      messageMap := acc.messageMap.map fun e =>
        if e.1 = key then (e.1, { e.2 with to_ := e.2.to_ ++ [id] }) else e }
  | none =>
    match (m.logMeta.lookup prevLogIndex).map (·.position.term) with
    | none =>
      -- The previous entry was discarded: the follower needs a snapshot.
      let progress := { progress with mode := .InstallingSnapshot, pendingAppendRequests := ∅ }
      pure { acc with
        followers := acc.followers.insert id progress
        installSnapshotIds := acc.installSnapshotIds ++ [id] }
    | some prevLogTerm =>
      let lastLogSequence ← match m.logMeta.lookup lastLogIndex with
        | some off => pure off.sequence
        | none => throw (Fault.panic UNWRAP_NONE)
      let requestId := acc.lastRequestId + 1
      let request : AppendEntriesRequest :=
        { term := m.meta_.currentTerm, leaderId := m.id, prevLogIndex, prevLogTerm,
          leaderCommit := m.meta_.commitIndex, timeoutNow }
      if progress.pendingAppendRequests.lookup requestId |>.isSome then
        throw (Fault.panic
          "assertion failed: !progress.pending_append_requests.contains_key(&request_id)")
      let progress := { progress with pendingAppendRequests :=
        progress.pendingAppendRequests.insert requestId ⟨now, prevLogIndex, lastLogIndex⟩ }
      pure { acc with
        followers := acc.followers.insert id progress
        lastRequestId := requestId
        messageMap := acc.messageMap ++
          [(key, ⟨requestId, [id], .AppendEntries request lastLogIndex lastLogSequence⟩)] }

/-- The body of the loop of `replicate_entries` for one server (`module.rs:1596-1803`). -/
def replicateServer (now : Nat) (acc : ReplicateAcc) (server : Server) :
    Except Fault ReplicateAcc :=
  if ¬ acc.numIterations + 1 < 10000 then
    .error (.panic "assertion failed: num_iterations < 10_000")
  else
    let acc := { acc with numIterations := acc.numIterations + 1 }
    if server.id = m.id then .ok acc
    else
      let leaderLastLogIndex := m.logMeta.last.position.index
      let progress := (acc.followers.lookup server.id).getD (.new leaderLastLogIndex)
      let acc := { acc with followers := acc.followers.insert server.id progress }
      match maxEntriesPerRequest progress with
      | none => .ok acc
      | some maxEntries =>
        if progress.nextIndex = 0 then .error (.panic SUB_OVERFLOW)
        else
          let prevLogIndex := progress.nextIndex - 1
          let lastLogIndex := min (prevLogIndex + (1 + maxEntries)) leaderLastLogIndex
          let canSendTimeoutNow := decide (prevLogIndex = leaderLastLogIndex ∧
            leaderLastLogIndex = lastLogIndex ∧ acc.timeoutNowId = some server.id ∧
            progress.pendingAppendRequests.entries.length ≤ TIMEOUT_NOW_SEND_MAX_QUEUE_LENGTH)
          let (due, nextSendTime) := appendEntriesDue progress now acc.nextSendTime
          let acc := { acc with nextSendTime }
          let needAnotherRequest := due || decide (progress.nextIndex ≤ leaderLastLogIndex) ||
            decide (progress.lastCommitIndexSent < m.meta_.commitIndex) || canSendTimeoutNow
          if !needAnotherRequest then .ok acc
          else
            match pessimisticHold progress now with
            | some nextAllowed => .ok { acc with nextSendTime := min nextAllowed acc.nextSendTime }
            | none =>
              m.sendAppendEntries now acc server.id progress prevLogIndex lastLogIndex
                canSendTimeoutNow

/-- The loop of `replicate_entries` over the servers of the configuration. -/
def replicateLoop (now : Nat) (init : ReplicateAcc) : Except Fault ReplicateAcc :=
  m.config.value.servers.foldlM (m.replicateServer now) init

/-- `replicate_entries`: returns when requests are next due. -/
def replicateEntries (t : Tick) : Outcome Nat :=
  let (timeoutNowId, t) := m.pickTimeoutNowServerId t.time t
  match m.state with
  | .Leader state => (do
    let acc ← m.replicateLoop t.time
      { followers := state.followers, messageMap := [], installSnapshotIds := [],
        nextSendTime := t.time + APPEND_ENTRIES_INTERVAL, timeoutNowId,
        lastRequestId := m.lastRequestId, draining := m.draining, numIterations := 0 }
    let sorted := acc.messageMap.insertionSort fun a b => keyLe a.1 b.1 = true
    let t := sorted.foldl (fun t e => t.send e.2) t
    let m := { m with
      state := .Leader { state with followers := acc.followers }
      lastRequestId := acc.lastRequestId
      draining := acc.draining }
    let t := if acc.installSnapshotIds = [] then t
      else t.send ⟨0, acc.installSnapshotIds, .InstallSnapshot
        { term := m.meta_.currentTerm, leaderId := m.id, lastConfig := m.config.snapshot }⟩
    pure (acc.nextSendTime, m, t) : Except Fault _)
  | _ => .error (.panic "Not the leader")

end ConsensusModule

end Dacha.Raft
