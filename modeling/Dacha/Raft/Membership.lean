import Dacha.Raft.Cluster

/-!
# Membership changes (`module.rs:889-936`, `config_state.rs:59-120`, `module.rs:2098-2161`)

Two properties the code means to keep while the configuration changes, and how it loses them.

* **One change at a time.** `propose_entry` refuses a configuration change while
  `config.pending` holds the last uncommitted one. But `ConfigurationStateMachine::apply` keeps
  that revert record only for an entry *below* the commit index (`entry.pos().index() <
  commit_index`, `config_state.rs:67`), and a leader always appends above it: the record is
  never made, so the guard never holds, and a single-server cluster ends with two uncommitted
  changes in its log (`leader_logs_two_uncommitted_changes`).
* **A server outside the group stays a follower.** `cycle` asserts it
  (`module.rs:1016-1022`). A candidate that asks for a (pre-)vote from a server whose committed
  configuration no longer has it is sent that configuration as a hint, adopts it
  (`observe_last_config_hint`) and then cycles as a candidate outside the group
  (`requestVoteCallback_panics_of_removal_hint`).
-/

namespace Dacha.Raft

open ConsensusModule Dacha.Run

/-- Whether an entry changes the configuration. -/
def LogEntryData.isConfig : LogEntryData → Bool
  | .config _ => true
  | _ => false

namespace ConsensusModule

variable {m : ConsensusModule}

theorem observeTerm_of_le (cyc : Transition) {term : Nat} (t : Tick)
    (h : term ≤ m.meta_.currentTerm) : observeTerm cyc term m t = pure ((), m, t) := by
  rw [observeTerm, if_neg (Nat.not_lt.mpr h)]
  rfl

/-- With no change pending, the guard of `propose_entry` lets through every configuration
change that is about another server. -/
theorem proposalRejection_config_of_pending_none {c : ConfigChange} {id : Nat}
    (hd : m.draining = none) (ht : 0 < m.meta_.currentTerm) (hp : m.config.pending = none)
    (hc : c.target = some id) (hid : id ≠ m.id) :
    m.proposalRejection (.config c) none = .ok none := by
  simp [proposalRejection, hd, ht, hp, hc, hid]

/-- A leader with no change pending accepts a configuration change and cycles with no change
pending: the entry lands above the commit index, where `apply` keeps no revert record. So the
guard never holds for the next change either. -/
theorem proposeEntry_config_keeps_pending_none (cyc : Transition) {ls : ConsensusLeaderState}
    {c : ConfigChange} {id : Nat} (t : Tick) (hL : m.state = .Leader ls) (hd : m.draining = none)
    (ht : 0 < m.meta_.currentTerm) (hp : m.config.pending = none) (hc : c.target = some id)
    (hid : id ≠ m.id) (hlast : m.logMeta.last.position.term ≤ m.meta_.currentTerm)
    (hcommit : m.meta_.commitIndex ≤ m.logMeta.last.position.index) :
    ∃ m' t', m'.config.pending = none ∧ m'.state.isLeader ∧
      proposeEntry cyc (.config c) none m t = (do
        let ((), m'', t'') ← cyc m' t'
        pure (.ok ⟨m.meta_.currentTerm, m.logMeta.last.position.index + 1⟩, m'', t'') :
          Except Fault _) := by
  -- The appended entry is one past the last index, so not below the commit index.
  have hpending : (m.config.apply ⟨⟨m.meta_.currentTerm, m.logMeta.last.position.index + 1⟩,
      .config c⟩ m.meta_.commitIndex).pending = none := by
    rw [ConfigurationStateMachine.apply_pending_of_le _ _ (by simp only; omega), hp]
  simp only [proposeEntry, hL, proposalRejection_config_of_pending_none hd ht hp hc hid,
    LogMetadata.append_next _ _ hlast]
  refine ⟨_, _, ?_, ?_, rfl⟩
  exacts [hpending, rfl]

/-- A candidate told of a newer configuration without itself panics. The hint replaces its
configuration; the response still belongs to its election, so it cycles, and `cycle` finds a
candidate that is not in the group. -/
theorem requestVoteCallback_panics_of_removal_hint (fuel fromId requestId : Nat)
    (isPreVote : Bool) {s : ConsensusCandidateState} {resp : RequestVoteResponse}
    {hint : ConfigurationSnapshot} (t : Tick) (hs : m.state = .Candidate s)
    (hrid : s.voteRequestId = requestId) (hfrom : fromId ≠ m.id)
    (hterm : resp.term = m.meta_.currentTerm) (hh : resp.lastConfigHint = some hint)
    (hnewer : m.config.lastApplied < hint.lastApplied)
    (hout : hint.data.serverRole m.id = .UNKNOWN) :
    requestVoteCallback (cycle (fuel + 1)) fromId requestId isPreVote resp m t =
      .error (.panic "assertion failed: is_follower") := by
  simp only [requestVoteCallback, hterm, observeTerm_of_le _ t (Nat.le_refl _)]
  simp [observeLastConfigHint, hh, hnewer, hfrom, hs, hrid, cycle, cycleBody, hout,
    ConsensusState.isFollower, panicWith]

end ConsensusModule

/-! ## One change at a time, in a run -/

/-- The configuration changes in a server's log above its commit index. -/
def Node.uncommittedConfigChanges (n : Node) : List LogEntry :=
  (n.log.log.map (·.1)).filter fun e =>
    e.data.isConfig && decide (n.module.meta_.commitIndex < e.pos.index)

/-- Every leader's log holds at most one uncommitted configuration change. -/
def World.OneChangeAtATime (w : World) : Prop :=
  ∀ id n, w.nodes.lookup id = some n → n.module.state.isLeader →
    n.uncommittedConfigChanges.length ≤ 1

/-- A cluster of server 1 alone. -/
def soloSnapshot : ConfigurationSnapshot := ⟨0, ⟨[⟨1, .MEMBER⟩]⟩⟩

/-- Server 1 alone, leader of term 1, with `(1, 1)` in its log and committed. -/
def soloLeader : ConsensusModule where
  id := 1
  meta_ := { currentTerm := 1, votedFor := 1, commitIndex := 1 }
  persistedMeta := { currentTerm := 1, votedFor := 1, commitIndex := 1 }
  logMeta := LogMetadata.new.pushOffset ⟨⟨1, 1⟩, 1⟩
  logLastFlushed := 1
  config := .fromSnapshot soloSnapshot
  state := .Leader ⟨∅, 0, 0, false⟩
  draining := none
  pendingConflict := none
  pendingCommitIndex := none
  lastRequestId := 0

/-- The leader accepts `AddMember(2)` and is left with no change pending. -/
theorem proposeEntry_config_keeps_pending_none_soloLeader :
    ∃ m' t', m'.config.pending = none ∧ m'.state.isLeader ∧
      proposeEntry (cycle 10) (.config (.AddMember 2)) none soloLeader { time := 0 } = (do
        let ((), m'', t'') ← cycle 10 m' t'
        pure (.ok ⟨soloLeader.meta_.currentTerm, soloLeader.logMeta.last.position.index + 1⟩,
          m'', t'') : Except Fault _) :=
  proposeEntry_config_keeps_pending_none (m := soloLeader) (cycle 10) { time := 0 } rfl rfl
    (by decide) rfl (show (ConfigChange.AddMember 2).target = some 2 from rfl) (by decide)
    (by decide) (by decide)

/-- Server 1 elects itself, then a client proposes two new members one after the other. -/
def twoChangesRun : List Event :=
  [.tick 1 0 [], .persist 1 0 [], .propose 1 (.config (.AddMember 2)) 0 [],
    .propose 1 (.config (.AddMember 3)) 0 []]

theorem leader_logs_two_uncommitted_changes :
    ∃ w, World.simulate (cycle 10) [1] soloSnapshot twoChangesRun = .ok w ∧
      ¬ w.OneChangeAtATime := by
  have hrun : ((World.simulate (cycle 10) [1] soloSnapshot twoChangesRun).toOption.any fun w =>
      (w.nodes.lookup 1).any fun n =>
        n.module.state.isLeader && decide (1 < n.uncommittedConfigChanges.length)) = true := by
    decide +kernel
  obtain ⟨w, hw, hleader⟩ := exists_ok_of_any hrun
  obtain ⟨n, hn, hn'⟩ := (Option.any_eq_true _ _).mp hleader
  simp only [Bool.and_eq_true, decide_eq_true_eq] at hn'
  exact ⟨w, hw, fun h => absurd (h 1 n hn hn'.1) (by omega)⟩

/-! ## A removed candidate, in a run -/

/-- Servers 1 and 2. -/
def pairSnapshot : ConfigurationSnapshot := ⟨0, ⟨[⟨1, .MEMBER⟩, ⟨2, .MEMBER⟩]⟩⟩

/-- Server 1 is elected with server 2's vote, removes server 2 and commits the removal alone.
Server 2 never hears of it: it times out, asks server 1 for a pre-vote, and is answered with
the configuration without it. -/
def removalRun : List Event :=
  [.tick 1 400 [], .deliver 0 400 [], .deliver 1 400 [], .deliver 2 400 [], .persist 2 400 [],
    .persist 1 400 [], .deliver 3 400 [], .propose 1 (.config (.RemoveServer 2)) 400 [],
    .flush 1 400 [], .tick 2 800 [], .deliver 6 800 [], .deliver 7 800 []]

theorem removed_candidate_panics :
    World.simulate (cycle 20) [1, 2] pairSnapshot removalRun =
      .error (.panic "assertion failed: is_follower") :=
  eq_error_of_fault (by decide +kernel)

/-- Server 2 of the pair as a candidate of term 2, in its first election. -/
def removedCandidate : ConsensusModule where
  id := 2
  meta_ := { currentTerm := 2, votedFor := 2 }
  persistedMeta := { currentTerm := 2, votedFor := 2 }
  logMeta := LogMetadata.new.pushOffset ⟨⟨1, 1⟩, 1⟩
  logLastFlushed := 1
  config := .fromSnapshot pairSnapshot
  state := .Candidate ⟨0, 800, 400, 5, [], none, [], false, none⟩
  draining := none
  pendingConflict := none
  pendingCommitIndex := none
  lastRequestId := 5

/-- Server 1 answers its pre-vote with the configuration `{1}` applied at index 1. -/
theorem requestVoteCallback_panics_removedCandidate :
    requestVoteCallback (cycle 20) 1 5 true ⟨2, false, some ⟨1, ⟨[⟨1, .MEMBER⟩]⟩⟩⟩
      removedCandidate { time := 800 } = .error (.panic "assertion failed: is_follower") :=
  requestVoteCallback_panics_of_removal_hint (m := removedCandidate) 19 1 5 true { time := 800 } rfl
    rfl (by decide) rfl rfl (by decide) (by decide)

end Dacha.Raft
