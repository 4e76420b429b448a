import Dacha.Raft.Cycle

/-!
# The public operations of `ConsensusModule` (`consensus/module.rs`)

What the server calls on the consensus module: the responses to its own requests, the
requests of its peers, and the notices that something reached the disk. Each one that calls
`cycle` takes the inner `cycle` as `cyc`, as in `Cycle.lean`.

| model                        | source                                       |
|------------------------------|----------------------------------------------|
| `persistedMetadata`          | `persisted_metadata` (`:1326-1329`)           |
| `logFlushed`                 | `log_flushed` (`:1291-1295`)                  |
| `logDiscarded`               | `log_discarded` (`:1306-1320`)                |
| `drain`                      | `drain` (`:756-767`)                          |
| `scheduleHeartbeat`          | `schedule_heartbeat` (`:715-724`)             |
| `resetFollower`              | `reset_follower` (`:728-732`)                 |
| `requestVoteCallback`        | `request_vote_callback` (`:2117-2161`)        |
| `appendEntriesCallback`      | `append_entries_callback` (`:2168-2269`)      |
| `appendEntriesNoresponse`    | `append_entries_noresponse` (`:2276-2309`)    |
| `heartbeat`                  | `heartbeat` (`:2311-2368`)                    |
| `heartbeatCallback`          | `heartbeat_callback` (`:2370-2408`)           |
| `requestVote`                | `request_vote` (`:2540-2575`)                 |
| `appendEntries`              | `append_entries` (`:2591-2936`)               |
| `installSnapshot`            | `install_snapshot` (`:2938-2972`)             |
| `installSnapshotCallback`    | `install_snapshot_callback(_impl)` (`:2974-3048`) |
| `installSnapshotNoresponse`  | `install_snapshot_noresponse` (`:3050-3068`)  |

A `Result` of the source that is not a panic is the inner `Except`; its `Err` messages are the
source's texts.
-/

namespace Dacha.Raft

/-- `FlushConstraint` (`constraint.rs:13-17`): a response that may be sent once the log is
flushed up to `point`. -/
structure FlushConstraint (α : Type) where
  inner : α
  point : Option (Nat × LogPosition)
  deriving DecidableEq, Repr

namespace ConsensusModule

variable (cyc : Transition)

def persistedMetadata (meta_ : Metadata) (m : ConsensusModule) (t : Tick) : Outcome Unit :=
  cyc { m with persistedMeta := meta_ } t

def logFlushed (lastFlushed : Nat) (m : ConsensusModule) (t : Tick) : Outcome Unit :=
  if ¬ lastFlushed ≥ m.logLastFlushed then
    panicWith "assertion failed: last_flushed >= self.log_last_flushed"
  else cyc { m with logLastFlushed := lastFlushed } t

/-- A follower too far behind starts after the discarded entries (`module.rs:1313-1318`). -/
def skipDiscarded (prevIndex : Nat) (f : ConsensusFollowerProgress) : ConsensusFollowerProgress :=
  if f.nextIndex ≤ prevIndex then { f with nextIndex := prevIndex + 1 } else f

/-- `log_discarded`: no tick, and no `cycle`. -/
def logDiscarded (prev : LogPosition) (m : ConsensusModule) : Except Fault ConsensusModule :=
  match m.logMeta.discard prev with
  | .error msg => .error (.panic msg)
  | .ok logMeta =>
    let m := { m with logMeta }
    match m.state with
    | .Leader leader =>
      let followers := mapFollowers (skipDiscarded prev.index) leader.followers
      .ok { m with state := .Leader { leader with followers } }
    | _ => .ok m

def drain (m : ConsensusModule) (t : Tick) : Outcome Unit :=
  if m.draining.isSome then .ok ((), m, t)
  else cyc { m with draining := some ⟨m.meta_.currentTerm, none⟩ } t

def scheduleHeartbeat (m : ConsensusModule) (t : Tick) : Outcome Unit :=
  match m.state with
  | .Leader s => cyc { m with state := .Leader { s with heartbeatNow := true } } t
  | _ => .ok ((), m, t)

/-- `reset_follower`, with `r` the random value `new_follower` draws. -/
def resetFollower (time r : Nat) (m : ConsensusModule) : ConsensusModule :=
  match m.state with
  | .Follower _ => { m with state := (newFollower time { time, entropy := [r] }).1 }
  | _ => m

/-- `request_vote_callback`: count a (pre-)vote for the current election. -/
def requestVoteCallback (fromId requestId : Nat) (isPreVote : Bool) (resp : RequestVoteResponse)
    (m : ConsensusModule) (t : Tick) : Outcome Unit := (do
  let ((), m, t) ← observeTerm cyc resp.term m t
  let (m, t) := m.observeLastConfigHint resp t
  if m.meta_.currentTerm ≠ resp.term then pure ((), m, t)
  else if fromId = m.id then pure ((), m, t)
  else
    match m.state with
    | .Candidate s =>
      if s.voteRequestId ≠ requestId then pure ((), m, t)
      else
        let s := if resp.voteGranted then
            if isPreVote then { s with preVotesReceived := s.preVotesReceived.insert fromId }
            else { s with votesReceived := s.votesReceived.insert fromId }
          else { s with someRejected := true }
        cyc { m with state := .Candidate s } t
    | _ => pure ((), m, t) : Except Fault _)

/-- A successful `AppendEntries` response whose log is longer than the leader's, while the
leader's last entry is from an earlier term: a no-op will truncate it (`module.rs:2228-2240`). -/
def followerLogAhead (m : ConsensusModule) (resp : AppendEntriesResponse) : Bool :=
  resp.lastLogIndex > 0 && resp.lastLogIndex > m.logMeta.last.position.index &&
    m.logMeta.last.position.term ≠ m.meta_.currentTerm

/-- The follower's progress after the response to one of its `AppendEntries` requests
(`module.rs:2198-2256`). -/
def progressAfterAppend (now : Nat) (requestCtx : PendingAppendEntries)
    (resp : AppendEntriesResponse) (progress : ConsensusFollowerProgress) :
    ConsensusFollowerProgress :=
  let progress := { progress with leaseStart := optionMax progress.leaseStart (some requestCtx.startTime) }
  let progress := if resp.success then
      { progress with
        mode := .Live
        matchIndex := max progress.matchIndex requestCtx.lastIndexSent }
    else { progress with mode := .CatchingUp, nextIndex := resp.lastLogIndex + 1 }
  match progress.roundStart with
  | some (targetIndex, roundStart) =>
    if progress.matchIndex ≥ targetIndex then
      { progress with
        successfulRounds :=
          if now - roundStart ≤ ROUND_TARGET_DURATION then progress.successfulRounds + 1 else 0
        roundStart := none }
    else progress
  | none => progress

def appendEntriesCallback (fromId requestId : Nat) (resp : AppendEntriesResponse)
    (m : ConsensusModule) (t : Tick) : Outcome Unit := (do
  let ((), m, t) ← observeTerm cyc resp.term m t
  match m.state with
  | .Leader leaderState =>
    match leaderState.followers.lookup fromId with
    | none => pure ((), m, t)
    | some progress =>
      if progress.mode = .InstallingSnapshot then pure ((), m, t)
      else
        match progress.pendingAppendRequests.lookup requestId with
        | none => pure ((), m, t)
        | some requestCtx =>
          let progress := { progress with
            pendingAppendRequests := progress.pendingAppendRequests.erase requestId }
          let progress := progressAfterAppend t.time requestCtx resp progress
          let m := { m with state := .Leader { leaderState with
            followers := leaderState.followers.insert fromId progress } }
          if resp.success && m.followerLogAhead resp then
            match proposeNoop cyc m t with
            | .ok (.ok _, m, t) => pure ((), m, t)
            | .ok (.error _, _, _) => throw (.panic "Failed to propose noop as leader")
            | .error e => throw e
          else cyc m t
  | _ => pure ((), m, t) : Except Fault _)

def appendEntriesNoresponse (fromId requestId : Nat) (m : ConsensusModule) (t : Tick) :
    Outcome Unit :=
  match m.state with
  | .Leader leaderState =>
    match leaderState.followers.lookup fromId with
    | none => .ok ((), m, t)
    | some progress =>
      if progress.mode = .InstallingSnapshot then .ok ((), m, t)
      else if (progress.pendingAppendRequests.lookup requestId).isNone then .ok ((), m, t)
      else
        let progress := { progress with
          pendingAppendRequests := progress.pendingAppendRequests.erase requestId
          mode := .Pesimistic }
        cyc { m with state := .Leader { leaderState with
          followers := leaderState.followers.insert fromId progress } } t
  | _ => .ok ((), m, t)

/-- The two errors of a follower that meets a request of the current term while it leads or
campaigns (`module.rs:2357-2365`, `:2660-2673`). -/
def notFollowerError : ConsensusState → Option String
  | .Follower _ => none
  | .Leader _ => some "This should never happen. We are receiving append entries from another leader in the same term"
  | .Candidate _ => some "How can we still be a candidate right now?"

/-- A follower hears from the leader of its term (`module.rs:2348-2355`). -/
def heardFromLeader (leaderId now : Nat) (m : ConsensusModule) : ConsensusModule :=
  match m.state with
  | .Follower s => { m with state := .Follower { s with lastHeartbeat := now, lastLeaderId := some leaderId } }
  | _ => m

/-- `observe_term` and, for a candidate meeting the leader of its term, `become_follower`: the
start of `heartbeat` and `append_entries`. -/
def observeLeader (term : Nat) (m : ConsensusModule) (t : Tick) : Outcome Unit := (do
  let ((), m, t) ← observeTerm cyc term m t
  if term = m.meta_.currentTerm ∧ m.state matches .Candidate _ then becomeFollower cyc m t
  else pure ((), m, t) : Except Fault _)

def heartbeat (req : HeartbeatRequest) (m : ConsensusModule) (t : Tick) :
    Outcome (Except String HeartbeatResponse) := (do
  let ((), m, t) ← observeLeader cyc req.term m t
  let res : HeartbeatResponse := ⟨m.meta_.currentTerm⟩
  if req.term < m.meta_.currentTerm then pure (.ok res, m, t)
  else
    match notFollowerError m.state with
    | some err => pure (.error err, m, t)
    | none => pure (.ok res, heardFromLeader req.leaderId t.time m, t) : Except Fault _)

def heartbeatCallback (fromId requestId : Nat) (response : Option HeartbeatResponse)
    (m : ConsensusModule) (t : Tick) : Outcome Unit := (do
  let ((), m, t) ← match response with
    | some r => observeTerm cyc r.term m t
    | none => pure ((), m, t)
  match m.state with
  | .Leader leaderState =>
    match leaderState.followers.lookup fromId with
    | none => pure ((), m, t)
    | some progress =>
      match progress.pendingHeartbeatRequests.lookup requestId with
      | none => pure ((), m, t)
      | some heartbeatStartTime =>
        let progress := { progress with
          pendingHeartbeatRequests := progress.pendingHeartbeatRequests.erase requestId }
        let progress := if response.isSome then
            { progress with leaseStart := optionMax progress.leaseStart (some heartbeatStartTime) }
          -- Heartbeat failures imply that AppendEntries requests will probably also fail.
          else if progress.mode = .Live then { progress with mode := .Pesimistic }
          else progress
        cyc { m with state := .Leader { leaderState with
          followers := leaderState.followers.insert fromId progress } } t
  | _ => pure ((), m, t) : Except Fault _)

/-- `request_vote`: the vote is recorded in the metadata, which must reach the disk before the
response is sent. -/
def requestVote (req : RequestVoteRequest) (m : ConsensusModule) (t : Tick) :
    Outcome RequestVoteResponse := (do
  let ((), m, t) ← observeTerm cyc req.term m t
  let res := m.preVote req t.time
  if res.voteGranted then
    match m.state with
    | .Follower s =>
      let m := { m with
        state := .Follower { s with lastHeartbeat := t.time, lastLeaderId := some req.candidateId }
        meta_ := { m.meta_ with votedFor := req.candidateId } }
      pure (res, m, t.writeMeta)
    | _ => throw (.panic "Granted vote but did not transition back to being a follower")
  else pure (res, m, t) : Except Fault _)

/-- The checks `append_entries` makes on the entries of a request (`module.rs:2676-2700`). -/
def entriesError (req : AppendEntriesRequest) : Option String :=
  match req.entries with
  | [] => none
  | first :: _ =>
    if first.pos.term < req.prevLogTerm ∨ first.pos.index ≠ req.prevLogIndex + 1 then
      some "Received previous entry does not follow"
    else if (req.entries.zip req.entries.tail).any fun (cur, next) =>
        cur.pos.term > next.pos.term ∨ next.pos.index ≠ cur.pos.index + 1 then
      some "Received entries are unsorted, duplicates, or inconsistent"
    else none

/-- The loop of `append_entries` that skips the entries already in the log and finds the first
conflicting one (`module.rs:2744-2779`): the number skipped, and whether appending the next
one truncates the log. A conflict at a locally committed index is an error; otherwise the
configuration is rolled back past it. -/
def findFirstNew (m : ConsensusModule) :
    List LogEntry → Except Fault (Except String (Nat × Bool × ConsensusModule))
  | [] => .ok (.ok (0, false, m))
  | e :: es =>
    match (m.logMeta.lookup e.pos.index).map (·.position.term) with
    | none => .ok (.ok (0, false, m))
    | some term =>
      if term = e.pos.term then
        match findFirstNew m es with
        | .ok (.ok (n, truncation, m)) => .ok (.ok (n + 1, truncation, m))
        | r => r
      else if m.memCommitIndex ≥ e.pos.index then
        .ok (.error "Refusing to truncate changes already locally committed")
      else
        match m.config.revert e.pos.index with
        | .error msg => .error (.panic msg)
        | .ok config => .ok (.ok (0, true, { m with config }))

/-- The loop of `append_entries` that appends the new entries (`module.rs:2817-2852`): each one
gets the next sequence and takes effect on the configuration; the first after a truncation
marks the conflict. Returns the sequence of the last one appended. -/
def appendNewEntries (pendingTruncation : Bool) (lastNewSeq : Nat) :
    List LogEntry → ConsensusModule → Tick → Except Fault (Nat × Bool × ConsensusModule × Tick)
  | [], m, t => .ok (lastNewSeq, pendingTruncation, m, t)
  | e :: es, m, t =>
    let seq := m.logMeta.last.sequence + 1
    match m.logMeta.append ⟨e.pos, seq⟩ with
    | .error msg => .error (.panic msg)
    | .ok logMeta =>
      let m := { m with
        logMeta
        pendingConflict := if pendingTruncation then some seq else m.pendingConflict }
      let m := { m with config := m.config.apply e m.meta_.commitIndex }
      appendNewEntries false seq es m { t with newEntries := t.newEntries ++ [⟨seq, e⟩] }

def appendEntries (req : AppendEntriesRequest) (m : ConsensusModule) (t : Tick) :
    Outcome (Except String (FlushConstraint AppendEntriesResponse)) := (do
  let ((), m, t) ← observeLeader cyc req.term m t
  let currentTerm := m.meta_.currentTerm
  let makeResponse (success : Bool) (lastLogIndex : Option Nat) : FlushConstraint AppendEntriesResponse :=
    ⟨⟨currentTerm, success, lastLogIndex.getD 0⟩, none⟩
  if req.term < currentTerm then return (.ok (makeResponse false none), m, t)
  if req.term ≠ currentTerm then throw (.panic "assertion failed: `(left == right)`")
  if let some err := notFollowerError m.state then return (.error err, m, t)
  let m := heardFromLeader req.leaderId t.time m
  if let some err := entriesError req then return (.error err, m, t)
  if req.prevLogIndex < m.logMeta.prev.position.index then
    return (.error "Requested previous log entry is before the start of the log", m, t)
  match (m.logMeta.lookup req.prevLogIndex).map (·.position.term) with
  | none => return (.ok (makeResponse false (some m.logMeta.last.position.index)), m, t)
  | some term =>
    if term ≠ req.prevLogTerm then
      return (.ok (makeResponse false (some m.meta_.commitIndex)), m, t)
  let (firstNew, pendingTruncation, m) ← match ← findFirstNew m req.entries with
    | .ok r => pure r
    | .error err => return (.error err, m, t)
  if let some next := req.entries[firstNew]? then
    if next.pos.index ≠ m.logMeta.last.position.index + 1 ∨
        next.pos.term < m.logMeta.last.position.term then
      return (.error "Next new entry is not immediately after our last local one", m, t)
  let prevSeq ← match m.logMeta.lookup req.prevLogIndex with
    | some off => pure off.sequence
    | none => throw (.panic UNWRAP_NONE)
  let newEntries := req.entries.drop firstNew
  let (lastNewSeq, pendingTruncation, m, t) ←
    appendNewEntries pendingTruncation prevSeq newEntries m t
  let (lastNew, lastNewTerm) := match newEntries.getLast? with
    | some e => (e.pos.index, e.pos.term)
    | none => (req.prevLogIndex, req.prevLogTerm)
  -- Commit no further than the last entry this request vouches for.
  let ((), m, t) ← if req.leaderCommit > m.meta_.commitIndex ∧
      min req.leaderCommit lastNew > m.meta_.commitIndex then
      m.updateCommited (min req.leaderCommit lastNew) t
    else pure ((), m, t)
  let lastLogIndex := m.logMeta.last.position.index
  if pendingTruncation then throw (.panic "assertion failed: !pending_truncation")
  let ((), m, t) ← if req.timeoutNow then
      if !m.canBeLeader then return (.error "Timeout now received but can't be the leader", m, t)
      else becomeCandidate cyc (some req.term) m t
    else pure ((), m, t)
  pure (.ok ⟨⟨currentTerm, true, lastLogIndex⟩, some (lastNewSeq, ⟨lastNewTerm, lastNew⟩)⟩, m, t) : Except Fault _)

/-- `install_snapshot`: adopt the snapshot's configuration if it is further along. -/
def installSnapshot (req : InstallSnapshotRequest) (m : ConsensusModule) (t : Tick) :
    Outcome (Except String InstallSnapshotResponse) := (do
  let ((), m, t) ← observeTerm cyc req.term m t
  let res : InstallSnapshotResponse := ⟨m.meta_.currentTerm⟩
  if req.term ≠ m.meta_.currentTerm then
    return (.error "Received an InstallSnapshot request is from an old term.", m, t)
  if req.lastApplied.index > req.lastConfig.lastApplied then
    return (.error "InstallSnapshot user state machine is behind the config state machine.", m, t)
  if m.config.lastApplied < req.lastConfig.lastApplied then
    pure (.ok res, { m with config := .fromSnapshot req.lastConfig }, t.writeConfig)
  else pure (.ok res, m, t) : Except Fault _)

def installSnapshotCallbackImpl (toId : Nat) (request : InstallSnapshotRequest)
    (response : InstallSnapshotResponse) (successful : Bool) (lastAppliedIndex : Nat)
    (m : ConsensusModule) (t : Tick) : Outcome Unit := (do
  let ((), m, t) ← observeTerm cyc response.term m t
  if request.term ≠ m.meta_.currentTerm then return ((), m, t)
  match m.state with
  | .Leader leaderState =>
    match leaderState.followers.lookup toId with
    | some follower =>
      if follower.mode ≠ .InstallingSnapshot then return ((), m, t)
      let follower := if successful then
          { follower with nextIndex := lastAppliedIndex + 1, matchIndex := lastAppliedIndex, mode := .Live }
        else { follower with nextIndex := m.logMeta.last.position.index, mode := .Pesimistic }
      cyc { m with state := .Leader { leaderState with
        followers := leaderState.followers.insert toId follower } } t
    | none => pure ((), m, t)
  | _ => pure ((), m, t) : Except Fault _)

def installSnapshotCallback (toId : Nat) (request : InstallSnapshotRequest)
    (response : InstallSnapshotResponse) (lastAppliedIndex : Nat) (m : ConsensusModule)
    (t : Tick) : Outcome Unit :=
  installSnapshotCallbackImpl cyc toId request response true lastAppliedIndex m t

def installSnapshotNoresponse (toId : Nat) (request : InstallSnapshotRequest) (m : ConsensusModule)
    (t : Tick) : Outcome Unit :=
  installSnapshotCallbackImpl cyc toId request ⟨m.meta_.currentTerm⟩ false
    m.logMeta.last.position.index m t

end ConsensusModule

end Dacha.Raft
