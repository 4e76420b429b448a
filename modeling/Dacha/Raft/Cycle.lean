import Dacha.Raft.Replication

/-!
# `cycle` and the transitions that call it (`module.rs:855-1289`, `:1873-2028`)

`cycle` moves a server along its roles: a follower whose election timer ran out becomes a
candidate, a candidate with a majority of votes becomes the leader, and a leader commits,
renews its lease, sends its requests and promotes aspiring servers. `become_candidate`,
`become_follower` and `propose_entry` call `cycle` again, and `cycle` calls them, so the
model takes the inner `cycle` as a parameter `cyc` and ties the knot with fuel in `cycle`.

| model              | source                                |
|--------------------|---------------------------------------|
| `becomeFollower`   | `become_follower` (`:2011-2014`)       |
| `observeTerm`      | `observe_term` (`:2019-2028`)          |
| `becomeCandidate`  | `become_candidate` (`:1873-1953`)      |
| `proposeEntry`     | `propose_entry` (`:855-979`)           |
| `cycleFollower`    | `cycle`, `Follower` arm (`:1029-1055`) |
| `cycleCandidate`   | `cycle`, `Candidate` arm (`:1056-1171`) |
| `cycleLeader`      | `cycle`, `Leader` arm (`:1172-1286`)   |
| `cycleBody`        | `cycle` (`:1008-1289`)                 |
-/

namespace Dacha.Raft

/-- `ProposeError` (`module.rs:146-179`). -/
inductive ProposeError
  | RetryAfter (proposal : LogPosition)
  | ReadIndexTainted
  | NotLeader
  | PendingElection
  | RejectedConfigChange
  | CommandTooLarge
  | Draining
  deriving DecidableEq, Repr

/-- `ReadIndex` (`module.rs:234-245`). -/
structure ReadIndex where
  term : Nat
  time : Nat
  index : Nat
  deriving DecidableEq, Repr

/-- The server a configuration change is about; `NOT_SET` names none. -/
def ConfigChange.target : ConfigChange → Option Nat
  | .AddMember id | .AddLearner id | .RemoveServer id | .AddAspiring id => some id
  | .NOT_SET => none

namespace ConsensusModule

variable (cyc : Transition)

def becomeFollower (m : ConsensusModule) (t : Tick) : Outcome Unit :=
  let (state, t) := newFollower t.time t
  cyc { m with state } t

/-- `observe_term`: a higher term makes this server a follower in it, with no vote cast. -/
def observeTerm (term : Nat) (m : ConsensusModule) (t : Tick) : Outcome Unit :=
  if term > m.meta_.currentTerm then
    becomeFollower cyc { m with meta_ := { m.meta_ with currentTerm := term, votedFor := 0 } }
      t.writeMeta
  else .ok ((), m, t)

/-- `become_candidate`: start (or restart) an election and ask for pre-votes, unless a leader
approved the election. -/
def becomeCandidate (leaderApproval : Option Nat) (m : ConsensusModule) (t : Tick) :
    Outcome Unit :=
  if ¬ m.canBeLeader then panicWith "We can not be the leader of this cluster"
  else
    let mustIncrement := match m.state with
      | .Candidate s => s.someRejected
      | _ => true
    let attemptNumber := match m.state with
      | .Candidate s => s.attemptNumber + 1
      | _ => 0
    let (m, t) := if mustIncrement then
        ({ m with meta_ := { m.meta_ with
            currentTerm := m.meta_.currentTerm + 1
            votedFor := m.id } }, t.writeMeta)
      else (m, t)
    let requestId := m.lastRequestId + 1
    let (electionTimeout, t) := newElectionTimeout t
    let m := { m with
      lastRequestId := requestId
      state := .Candidate
        { attemptNumber, electionStart := t.time, electionTimeout, preVotesReceived := [],
          mainVoteStart := none, voteRequestId := requestId, votesReceived := [],
          someRejected := false, leaderApproval } }
    (do
      let t ← if leaderApproval.isNone then m.performElection requestId true t else pure t
      cyc m t : Except Fault _)

/-- The followers a leader tracks after it accepts a configuration change
(`module.rs:914-931`). -/
def followersAfterChange (followers : FollowerMap) (lastLogIndex : Nat) :
    ConfigChange → FollowerMap
  | .RemoveServer id => followers.erase id
  | .AddLearner id | .AddAspiring id | .AddMember id =>
    if id ∈ followers then followers else followers.insert id (.new lastLogIndex)
  | .NOT_SET => followers

/-- Why a leader refuses a proposal before appending it, if it does (`module.rs:866-937`). -/
def proposalRejection (m : ConsensusModule) (data : LogEntryData) (readIndex : Option ReadIndex) :
    Except Fault (Option ProposeError) :=
  if readIndex.any (·.term ≠ m.meta_.currentTerm) then .ok (some .ReadIndexTainted)
  else if m.draining.isSome then .ok (some .Draining)
  else if ¬ m.meta_.currentTerm > 0 then .error (.panic "assertion failed: term > 0.into()")
  else
    match data with
    | .config c =>
      match m.config.pending with
      | some pending =>
        match (m.logMeta.lookup pending.lastChange).map (·.position.term) with
        | some term => .ok (some (.RetryAfter ⟨term, pending.lastChange⟩))
        | none => .error (.panic UNWRAP_NONE)
      | none =>
        match c.target with
        | some id => .ok (if id = m.id then some .RejectedConfigChange else none)
        | none => .ok (some .RejectedConfigChange)
    | .command c => .ok (if c.length ≥ MAX_COMMAND_SIZE then some .CommandTooLarge else none)
    | _ => .ok none

/-- `propose_entry`: on the leader, append the entry at the next index and cycle. -/
def proposeEntry (data : LogEntryData) (readIndex : Option ReadIndex) (m : ConsensusModule)
    (t : Tick) : Outcome (Except ProposeError LogPosition) :=
  match m.state with
  | .Leader leaderState => (do
    match ← m.proposalRejection data readIndex with
    | some err => pure (.error err, m, t)
    | none =>
      let lastLogIndex := m.logMeta.last.position.index
      let term := m.meta_.currentTerm
      let sequence := m.logMeta.last.sequence + 1
      let followers := match data with
        | .config c => followersAfterChange leaderState.followers lastLogIndex c
        | _ => leaderState.followers
      let e : LogEntry := ⟨⟨term, lastLogIndex + 1⟩, data⟩
      let config := m.config.apply e m.meta_.commitIndex
      match m.logMeta.append ⟨e.pos, sequence⟩ with
      | .error msg => .error (.panic msg)
      | .ok logMeta =>
        let m := { m with
          state := .Leader { leaderState with followers }, config, logMeta }
        let ((), m, t) ← cyc m { t with newEntries := t.newEntries ++ [⟨sequence, e⟩] }
        pure (.ok e.pos, m, t) : Except Fault _)
  | .Follower _ => .ok (.error .NotLeader, m, t)
  | .Candidate _ => .ok (.error (if m.pendingElection then .PendingElection else .NotLeader), m, t)

def proposeNoop (m : ConsensusModule) (t : Tick) : Outcome (Except ProposeError LogPosition) :=
  proposeEntry cyc (.noop true) none m t

/-- The `Follower` arm of `cycle`. -/
def cycleFollower (state : ConsensusFollowerState) (m : ConsensusModule) (t : Tick) :
    Outcome Unit :=
  let elapsed := t.time - state.lastHeartbeat
  if !m.canBeLeader || m.draining.isSome then
    let (state, t) := newFollower t.time t
    .ok ((), { m with state }, { t with nextTick := some 2000 })
  else if elapsed ≥ state.electionTimeout ∨ m.config.value.servers.length = 1 then
    becomeCandidate cyc none m t
  else .ok ((), m, { t with nextTick := some (state.electionTimeout - elapsed) })

/-- The leader state of a server that has just won the election of its term
(`module.rs:1119-1146`). -/
def wonElection (m : ConsensusModule) (mainVoteStart : Nat) : ConsensusLeaderState :=
  let lastLogIndex := m.logMeta.last.position.index
  { followers := (m.config.value.servers.filter (·.id ≠ m.id)).foldl
      (fun followers s => followers.insert s.id (.new lastLogIndex)) ∅
    leaseStart := mainVoteStart
    minReadIndex :=
      if m.meta_.commitIndex = lastLogIndex then lastLogIndex else lastLogIndex + 1
    heartbeatNow := false }

/-- The end of the `Candidate` arm: with a majority of votes, become the leader, propose a no-op
when entries of earlier terms are uncommitted, and cycle again as the leader. -/
def becomeLeaderIfElected (voteCount majority : Nat) (mainVoteStart : Nat)
    (m : ConsensusModule) (t : Tick) : Outcome Unit :=
  if voteCount ≥ majority then
    let m := { m with state := .Leader (m.wonElection mainVoteStart) }
    (do
      let (m, t) ← if m.meta_.commitIndex < m.logMeta.last.position.index then
          match proposeNoop cyc m t with
          | .ok (.ok _, m, t) => .ok (m, t)
          | .ok (.error _, _, _) => .error (.panic "Failed to propose self noop as the leader")
          | .error e => .error e
        else .ok (m, t)
      cyc m t : Except Fault _)
  else .ok ((), m, t)

/-- The `Candidate` arm of `cycle`: restart a timed-out election, start the main vote once a
majority granted pre-votes (or a leader approved), and count the votes. -/
def cycleCandidate (state : ConsensusCandidateState) (m : ConsensusModule) (t : Tick) :
    Outcome Unit :=
  let elapsed := t.time - state.electionStart
  if elapsed ≥ state.electionTimeout then becomeCandidate cyc none m t
  else
    let t := { t with nextTick := some (state.electionTimeout - elapsed) }
    let isMember := decide (m.config.value.serverRole m.id = .MEMBER)
    let haveSelfVoted := decide (m.persistedMeta.currentTerm = m.meta_.currentTerm) &&
      decide (m.persistedMeta.votedFor ≠ 0) && isMember
    let preVoteCount := state.preVotesReceived.length + (if isMember then 1 else 0)
    let voteCount := state.votesReceived.length + (if haveSelfVoted then 1 else 0)
    let majority := m.majoritySize
    match state.mainVoteStart with
    | some time => becomeLeaderIfElected cyc voteCount majority time m t
    | none =>
      if preVoteCount ≥ majority ∨ state.leaderApproval.isSome then
        let m := { m with state := .Candidate { state with mainVoteStart := some t.time } }
        (do
          let t ← m.performElection state.voteRequestId false t
          becomeLeaderIfElected cyc voteCount majority t.time m t : Except Fault _)
      else .ok ((), m, t)

/-- `values_mut()` of the follower map, with `f` applied to every progress. -/
def mapFollowers (f : ConsensusFollowerProgress → ConsensusFollowerProgress)
    (followers : FollowerMap) : FollowerMap :=
  followers.entries.foldl (fun acc e => acc.replace e.1 (f e.2)) followers

/-- A round that took longer than `ROUND_TARGET_DURATION` is abandoned (`module.rs:1216-1234`). -/
def stopSlowRound (now : Nat) (follower : ConsensusFollowerProgress) :
    ConsensusFollowerProgress :=
  match follower.roundStart with
  | some (_, roundStart) =>
    if roundStart + ROUND_TARGET_DURATION ≤ now then
      { follower with roundStart := none, successfulRounds := 0 }
    else follower
  | none => follower

/-- The aspiring follower the promotion loop picks: the last synchronized one it meets
(`module.rs:1253-1265`). -/
def serverToPromote (m : ConsensusModule) (s : ConsensusLeaderState) : Option Nat :=
  s.followers.entries.foldl
    (fun acc e =>
      if m.config.value.serverRole e.1 = .ASPIRING ∧ isFollowerSynchronized e.2 then some e.1
      else acc)
    none

/-- The end of the `Leader` arm: with no configuration change pending and no drain, propose to
promote one synchronized aspiring server to member. -/
def promoteAspiring (nextHeartbeat : Nat) (m : ConsensusModule) (t : Tick) : Outcome Unit :=
  if m.config.pending.isNone ∧ m.draining.isNone then
    match m.state with
    | .Leader s =>
      match m.serverToPromote s with
      | some id =>
        match proposeEntry cyc (.config (.AddMember id)) none m t with
        | .ok (.ok _, m, t) => .ok ((), m, t)
        | .ok (.error _, _, _) =>
          .error (.panic "called `Result::unwrap()` on an `Err` value")
        | .error e => .error e
      | none => .ok ((), m, { t with nextTick := some nextHeartbeat })
    | _ => panicWith "not yet implemented"
  else .ok ((), m, { t with nextTick := some nextHeartbeat })

/-- The `Leader` arm of `cycle`. -/
def cycleLeader (state : ConsensusLeaderState) (m : ConsensusModule) (t : Tick) : Outcome Unit :=
  -- A leader should never be removed from the config while in power.
  if !m.canBeLeader then panicWith "assertion failed: self.can_be_leader()"
  else (do
    let nextCommitIndex ← m.findNextCommitIndex state
    let nextLeaseStart := m.findNextLeaseStart state t.time
    let ((), m, t) ← match nextCommitIndex with
      | some ci => m.updateCommited ci t
      | none => pure ((), m, t)
    let ((), m, t) ← m.updateLeaseStart nextLeaseStart t
    if t.time ≥ nextLeaseStart + ELECTION_TIMEOUT.2 then
      if m.draining.isSome then becomeFollower cyc m t else becomeCandidate cyc none m t
    else
      let m := match m.state with
        | .Leader s => { m with state := .Leader { s with
            followers := mapFollowers (stopSlowRound t.time) s.followers } }
        | _ => m
      let (heartbeatTime, m, t) ← m.sendHeartbeats t
      let (replicateTime, m, t) ← m.replicateEntries t
      let nextHeartbeat := if m.config.value.servers.length = 1 then 2000
        else min heartbeatTime replicateTime - t.time
      promoteAspiring cyc nextHeartbeat m t : Except Fault _)

/-- `cycle`, with the inner calls to `cycle` made through `cyc`. -/
def cycleBody (m : ConsensusModule) (t : Tick) : Outcome Unit :=
  if m.config.value.serverRole m.id = .UNKNOWN then
    if !m.state.isFollower then panicWith "assertion failed: is_follower"
    else .ok ((), m, { t with nextTick := some 1000 })
  else
    match m.state with
    | .Follower s => cycleFollower cyc s m t
    | .Candidate s => cycleCandidate cyc s m t
    | .Leader s => cycleLeader cyc s m t

end ConsensusModule

/-- `cycle`, with `fuel` bounding how deeply it calls itself. -/
def ConsensusModule.cycle : Nat → Transition
  | 0 => fun _ _ => .error .outOfFuel
  | fuel + 1 => cycleBody (cycle fuel)

end Dacha.Raft
