import Dacha.Raft.State

/-!
# Queries and single-step updates of `ConsensusModule` (`consensus/module.rs`)

The functions of `module.rs` that neither call `cycle` nor loop over the followers: what a
server computes about itself (`can_be_leader`, `majority_size`, `mem_commit_index`), how it
answers a vote (`pre_vote_should_grant`, `pre_vote`), and the updates that `cycle` and the
request handlers share (`update_commited`, `observe_last_config_hint`, `perform_election`,
`new_follower`).

| model                      | source                                         |
|----------------------------|------------------------------------------------|
| `newElectionTimeout`       | `new_election_timeout` (`:2410-2415`)           |
| `newFollower`              | `new_follower` (`:2002-2008`)                   |
| `canBeLeader`              | `can_be_leader` (`:1338-1345`)                  |
| `memCommitIndex`           | `mem_commit_index` (`:2031-2036`)               |
| `majoritySize`             | `majority_size` (`:2080-2096`)                  |
| `isFollowerSynchronized`   | `is_follower_synchronized` (`:573-576`)         |
| `pendingElection`          | `pending_election` (`:524-529`)                 |
| `findNextCommitIndex`      | `find_next_commit_index` (`:1351-1409`)         |
| `findNextLeaseStart`       | `find_next_lease_start` (`:1412-1450`)          |
| `updateCommited`           | `update_commited` (`:2040-2066`)                |
| `updateLeaseStart`         | `update_lease_start` (`:2068-2075`)             |
| `observeLastConfigHint`    | `observe_last_config_hint` (`:2098-2110`)       |
| `performElection`          | `perform_election` (`:1955-2000`)               |
| `preVoteShouldGrant`       | `pre_vote_should_grant` (`:2417-2504`)          |
| `preVote`                  | `pre_vote` (`:2510-2531`)                       |
-/

namespace Dacha.Raft

/-- `Vec::sort_by(|a, b| b.cmp(a))`: descending order. Every sort of natural numbers gives the
same list, so the model uses insertion sort, which the kernel evaluates. -/
def sortDesc (xs : List Nat) : List Nat := xs.insertionSort fun a b => b ≤ a

theorem sortDesc_perm (xs : List Nat) : (sortDesc xs).Perm xs := List.perm_insertionSort _ xs

theorem sortDesc_pairwise (xs : List Nat) : (sortDesc xs).Pairwise (· ≥ ·) :=
  List.pairwise_insertionSort (fun a b : Nat => b ≤ a) xs

/-- In a descending list, `k + 1` elements are at least `i` exactly when the `k`-th one is. -/
theorem succ_le_countP_iff_of_pairwise :
    ∀ (l : List Nat), l.Pairwise (· ≥ ·) → ∀ (k : Nat) (hk : k < l.length) (i : Nat),
      k + 1 ≤ l.countP (fun x => decide (i ≤ x)) ↔ i ≤ l[k]
  | [], _, _, hk, _ => absurd hk (Nat.not_lt_zero _)
  | a :: l, hs, 0, _, i => by
    rw [List.pairwise_cons] at hs
    rw [List.getElem_cons_zero]
    constructor
    · -- some element is at least `i`, and the head is at least every element
      intro h
      obtain ⟨x, hx, hix⟩ :=
        List.countP_pos_iff.mp (by omega : 0 < (a :: l).countP (fun x => decide (i ≤ x)))
      simp only [decide_eq_true_eq] at hix
      rcases List.mem_cons.mp hx with rfl | hx
      · exact hix
      · exact le_trans hix (hs.1 x hx)
    · intro h
      rw [List.countP_cons_of_pos (by simpa using h)]
      omega
  | a :: l, hs, k + 1, hk, i => by
    rw [List.pairwise_cons] at hs
    have hkl : k < l.length := by simpa using hk
    have ih := succ_le_countP_iff_of_pairwise l hs.2 k hkl i
    rw [List.countP_cons, List.getElem_cons_succ]
    constructor
    · -- the head counts at most once
      intro h
      apply ih.mp
      split at h <;> omega
    · -- the `k`-th of the tail is at most the head, so the head counts too
      intro h
      have hle : l[k] ≤ a := hs.1 _ (List.getElem_mem _)
      have hcount := ih.mpr h
      rw [if_pos (by simpa using le_trans h hle)]
      omega

theorem succ_le_countP_iff_of_perm {xs l : List Nat} (hperm : l.Perm xs)
    (hs : l.Pairwise (· ≥ ·)) (k : Nat) (hk : k < l.length) (i : Nat) :
    k + 1 ≤ xs.countP (fun x => decide (i ≤ x)) ↔ i ≤ l[k] := by
  rw [← hperm.countP_eq]
  exact succ_le_countP_iff_of_pairwise l hs k hk i

/-- `std::cmp::max` on `Option<Instant>`, where `None` is the least value. -/
def optionMax : Option Nat → Option Nat → Option Nat
  | none, b => b
  | a, none => a
  | some a, some b => some (max a b)

namespace ConsensusModule

/-- `new_election_timeout`: a random duration in `[400, 800)` milliseconds. -/
def newElectionTimeout (t : Tick) : Nat × Tick :=
  let (r, t) := t.draw
  (between ELECTION_TIMEOUT.1 ELECTION_TIMEOUT.2 r, t)

/-- `new_follower`: a follower that has not heard from a leader yet. -/
def newFollower (now : Nat) (t : Tick) : ConsensusState × Tick :=
  let (electionTimeout, t) := newElectionTimeout t
  (.Follower ⟨electionTimeout, none, now⟩, t)

variable (m : ConsensusModule)

/-- `can_be_leader`: a voting member whose log reaches its commit index. -/
def canBeLeader : Bool :=
  if m.config.value.serverRole m.id ≠ .MEMBER then false
  else m.logMeta.last.position.index ≥ m.meta_.commitIndex

def memCommitIndex : Nat :=
  match m.pendingCommitIndex with
  | some v => v
  | none => m.meta_.commitIndex

/-- `majority_size`: more than half of the members, and `usize::MAX` without members. -/
def majoritySize : Nat :=
  let numVoters := m.config.value.servers.countP (·.role = .MEMBER)
  if numVoters = 0 then USIZE_MAX else numVoters / 2 + 1

def isFollowerSynchronized (progress : ConsensusFollowerProgress) : Bool :=
  progress.mode = .Live && progress.successfulRounds ≥ SYNCHRONIZED_ROUNDS_THRESHOLD

def pendingElection : Bool :=
  match m.state with
  | .Candidate s => s.attemptNumber = 0
  | _ => false

/-- The flushed index of every member, in the order of the configuration. -/
def matchIndexes (s : ConsensusLeaderState) : List Nat :=
  m.config.value.servers.filterMap fun server =>
    if server.role ≠ .MEMBER then none
    else if server.id = m.id then
      some (((m.logMeta.lookupSeq m.logLastFlushed).map (·.position.index)).getD 0)
    else
      match s.followers.lookup server.id with
      | some progress => some progress.matchIndex
      | none => some 0

/-- `find_next_commit_index`: the largest index flushed on a majority, if it is above the
commit index and from the current term. Indexing the sorted list panics when it is too short. -/
def findNextCommitIndex (s : ConsensusLeaderState) : Except Fault (Option Nat) :=
  if m.logMeta.last.position.index = m.meta_.commitIndex then .ok none
  else
    match (sortDesc (m.matchIndexes s))[m.majoritySize - 1]? with
    | none => .error (.panic "index out of bounds")
    | some candidateIndex =>
      if candidateIndex ≤ m.meta_.commitIndex then .ok none
      else
        match (m.logMeta.lookup candidateIndex).map (·.position.term) with
        | none => .ok none
        | some candidateTerm =>
          if candidateTerm ≠ m.meta_.currentTerm then .ok none else .ok (some candidateIndex)

/-- `find_next_lease_start`. The index into the sorted times is in range, since there are at
least `majority` of them. -/
def findNextLeaseStart (s : ConsensusLeaderState) (now : Nat) : Nat :=
  let majority := m.majoritySize
  let majority := if m.config.value.serverRole m.id = .MEMBER then majority - 1 else majority
  if majority = 0 then now
  else
    let leaseStartTimes := s.followers.entries.filterMap fun f =>
      if m.config.value.serverRole f.1 ≠ .MEMBER then none else f.2.leaseStart
    if leaseStartTimes.length < majority then s.leaseStart
    else
      let candidateTime := (sortDesc leaseStartTimes).getD (majority - 1) 0
      if candidateTime < s.leaseStart then s.leaseStart else candidateTime

/-- The end of `update_commited`: persist a higher commit index and let the configuration drop
a change that is now committed. -/
def advanceCommitIndex (index : Nat) (t : Tick) : ConsensusModule × Tick :=
  let (m, t) := if index > m.meta_.commitIndex then
      ({ m with meta_ := { m.meta_ with commitIndex := index } }, t.writeMeta)
    else (m, t)
  let (changed, config) := m.config.commit m.meta_.commitIndex
  ({ m with config }, if changed then t.writeConfig else t)

/-- `update_commited`: the commit index waits while a truncation is not flushed. -/
def updateCommited (index : Nat) (t : Tick) : Outcome Unit :=
  if ¬ index > m.memCommitIndex then panicWith "assertion failed: index > self.mem_commit_index()"
  else
    match m.pendingConflict with
    | some c =>
      if m.logLastFlushed ≥ c then .ok ((), advanceCommitIndex { m with pendingConflict := none } index t)
      else .ok ((), { m with pendingCommitIndex := some index }, t)
    | none => .ok ((), advanceCommitIndex m index t)

def updateLeaseStart (newTime : Nat) (t : Tick) : Outcome Unit :=
  match m.state with
  | .Leader s => .ok ((), { m with state := .Leader { s with leaseStart := newTime } }, t)
  | _ => panicWith "Not leader"

/-- `observe_last_config_hint`: adopt a peer's configuration if it is further along. -/
def observeLastConfigHint (resp : RequestVoteResponse) (t : Tick) : ConsensusModule × Tick :=
  match resp.lastConfigHint with
  | some hint =>
    if hint.lastApplied > m.config.lastApplied then
      ({ m with config := ⟨hint.data, hint.lastApplied, none⟩ }, t.writeConfig)
    else (m, t)
  | none => (m, t)

/-- `perform_election`: ask every other member for a (pre-)vote. -/
def performElection (requestId : Nat) (preVote : Bool) (t : Tick) : Except Fault Tick :=
  match m.state with
  | .Candidate state =>
    let req : RequestVoteRequest :=
      { term := m.meta_.currentTerm, candidateId := m.id,
        lastLogIndex := m.logMeta.last.position.index,
        lastLogTerm := m.logMeta.last.position.term,
        leaderApproval := state.leaderApproval.getD 0 }
    let ids := (m.config.value.servers.filter fun s => s.id ≠ m.id ∧ s.role = .MEMBER).map (·.id)
    if ids = [] then .ok t
    else .ok (t.send ⟨requestId, ids, if preVote then .PreVote req else .RequestVote req⟩)
  | _ => .error (.panic "not yet implemented")

def preVoteShouldGrant (req : RequestVoteRequest) (now : Nat) : Bool :=
  if req.term < m.meta_.currentTerm then false
  else
    let lastLogIndex := m.logMeta.last.position.index
    let lastLogTerm := m.logMeta.last.position.term
    let upToDate := req.lastLogTerm > lastLogTerm ∨
      (req.lastLogTerm = lastLogTerm ∧ req.lastLogIndex ≥ lastLogIndex)
    if ¬ upToDate then false
    else if ¬ req.term > m.meta_.currentTerm ∧ m.meta_.votedFor > 0 ∧
        m.meta_.votedFor ≠ req.candidateId then false
    else if req.leaderApproval = m.meta_.currentTerm then true
    else
      let lastLeaderSeen := match m.state with
        | .Follower s => if s.lastLeaderId.isSome then some s.lastHeartbeat else none
        | .Candidate _ => none
        | .Leader s => some s.leaseStart
      match lastLeaderSeen with
      | some lastLeaderSeen => ¬ lastLeaderSeen + ELECTION_TIMEOUT_OVER_DRIFT > now
      | none => true

/-- `pre_vote`: the answer, with the committed configuration as a hint for a candidate that is
not a member in it. -/
def preVote (req : RequestVoteRequest) (now : Nat) : RequestVoteResponse :=
  { term := if req.term > m.meta_.currentTerm then req.term else m.meta_.currentTerm
    voteGranted := m.preVoteShouldGrant req now
    lastConfigHint :=
      if m.config.snapshot.data.serverRole req.candidateId ≠ .MEMBER then some m.config.snapshot
      else none }

end ConsensusModule

end Dacha.Raft
