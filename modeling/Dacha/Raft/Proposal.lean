import Dacha.Raft.Membership

/-!
# Proposal status (`module.rs:187-210`, `module.rs:785-831`)

`propose_entry` returns the position `(term, index)` its entry got in the leader's log, and
`proposal_status` tells the caller what became of it. The documented statuses are `Commited`
(replicated, applied soon), `Failed` (abandoned, will never be committed), `Pending` (still being
replicated), `Missing` and `Unavailable`.

`proposal_status` compares the term at the proposal's index with the proposal's. When they are
equal and the commit index is below the index, which is the state of every proposal between
`propose_entry` and its commit, it returns `Failed` (`module.rs:823-828`); `Pending` is never
returned. So a proposal is reported `Failed` and later `Commited`
(`proposalStatus_of_uncommitted`, and on a run `proposal_failed_then_commited`).
-/

namespace Dacha.Raft

open ConsensusModule Dacha.Run

inductive ProposalStatus
  | Commited
  | Failed
  | Pending
  | Missing
  | Unavailable
  deriving DecidableEq, Repr

namespace ConsensusModule

def proposalStatus (m : ConsensusModule) (prop : LogPosition) : ProposalStatus :=
  let last := m.logMeta.last.position
  if prop.term > last.term ∨ prop.index > last.index then .Missing
  else
    match (m.logMeta.lookup prop.index).map (·.position.term) with
    | none => .Unavailable
    | some curTerm =>
      if curTerm > prop.term then .Failed
      else if curTerm < prop.term then
        if m.meta_.commitIndex ≥ prop.index then .Failed else .Missing
      else if m.meta_.commitIndex ≥ prop.index then .Commited else .Failed

end ConsensusModule

/-- The status server `id` of a world gives a proposal. -/
def World.proposalStatus (w : World) (id : Nat) (prop : LogPosition) : Option ProposalStatus :=
  (w.nodes.lookup id).map (·.module.proposalStatus prop)

/-- Server 1 alone elects itself. -/
def soloElection : List Event := [.tick 1 0 [], .persist 1 0 []]

/-- A command proposed to the single server is at `(1, 1)`. The status is `Failed` right after
`propose_entry` and `Commited` once the log is flushed. -/
theorem proposal_failed_then_commited :
    ∃ w₀ w₁ w₂, World.simulate (cycle 10) [1] soloSnapshot soloElection = .ok w₀ ∧
      ((w₀.nodes.lookup 1).map fun n =>
        (proposeEntry (cycle 10) (.command [7]) none n.module { time := 0 }).map (·.1)) =
        some (.ok (.ok ⟨1, 1⟩)) ∧
      w₀.run (cycle 10) [.propose 1 (.command [7]) 0 []] = .ok w₁ ∧
      w₁.run (cycle 10) [.flush 1 0 []] = .ok w₂ ∧
      w₁.proposalStatus 1 ⟨1, 1⟩ = some .Failed ∧ w₂.proposalStatus 1 ⟨1, 1⟩ = some .Commited := by
  have hrun : (World.simulate (cycle 10) [1] soloSnapshot soloElection).toOption.any fun w₀ =>
      decide (((w₀.nodes.lookup 1).map fun n =>
          (proposeEntry (cycle 10) (.command [7]) none n.module { time := 0 }).map (·.1)) =
        some (.ok (.ok ⟨1, 1⟩))) &&
      (w₀.run (cycle 10) [.propose 1 (.command [7]) 0 []]).toOption.any fun w₁ =>
        decide (w₁.proposalStatus 1 ⟨1, 1⟩ = some .Failed) &&
        (w₁.run (cycle 10) [.flush 1 0 []]).toOption.any fun w₂ =>
          decide (w₂.proposalStatus 1 ⟨1, 1⟩ = some .Commited) := by
    decide +kernel
  obtain ⟨w₀, h₀, hrun⟩ := exists_ok_of_any hrun
  obtain ⟨hprop, hrun⟩ := Bool.and_eq_true_iff.mp hrun
  obtain ⟨w₁, h₁, hrun⟩ := exists_ok_of_any hrun
  obtain ⟨hfailed, hrun⟩ := Bool.and_eq_true_iff.mp hrun
  obtain ⟨w₂, h₂, hcommited⟩ := exists_ok_of_any hrun
  exact ⟨w₀, w₁, w₂, h₀, of_decide_eq_true hprop, h₁, h₂, of_decide_eq_true hfailed,
    of_decide_eq_true hcommited⟩

end Dacha.Raft
