import Dacha.Raft.Membership

/-!
# Election safety and agreement on committed entries

What a Raft cluster must never show, stated over a `World` of the cluster harness: two leaders
of one term, and two servers that have committed the same index with different terms.

Both hold in Raft only while any two majorities that decide meet in a server. A leader here
accepts a second configuration change while the first is still uncommitted
(`leader_logs_two_uncommitted_changes`), so one server can count its votes
in a configuration two members larger than another's: a majority of `{1, 2, 3, 4, 5}` and a
majority of `{1, 2, 3}` need not meet. `splitBrainRun` builds exactly that.
-/

namespace Dacha.Raft

open ConsensusModule Dacha.Run

/-- No two servers lead in the same term. -/
def World.ElectionSafe (w : World) : Prop :=
  ∀ a na b nb, w.nodes.lookup a = some na → w.nodes.lookup b = some nb →
    na.module.state.isLeader → nb.module.state.isLeader →
    na.module.meta_.currentTerm = nb.module.meta_.currentTerm → a = b

/-- Two servers that have both committed an index they hold agree on its term. -/
def World.CommittedAgree (w : World) : Prop :=
  ∀ a na b nb i oa ob, w.nodes.lookup a = some na → w.nodes.lookup b = some nb →
    i ≤ na.module.meta_.commitIndex → i ≤ nb.module.meta_.commitIndex →
    na.module.logMeta.lookup i = some oa → nb.module.logMeta.lookup i = some ob →
    oa.position.term = ob.position.term

/-- Servers 1, 2 and 3; servers 4 and 5 run but are not in the group. -/
def trioSnapshot : ConfigurationSnapshot := ⟨0, ⟨[⟨1, .MEMBER⟩, ⟨2, .MEMBER⟩, ⟨3, .MEMBER⟩]⟩⟩

/-- Server 1 wins term 1 and adds servers 4 and 5 at once, in entries no other member
receives. Server 2 wins term 2 with server 3 and replicates an entry to it. Then, in term 3,
server 1 wins with the votes of 4 and 5 (a majority of its five members, whose logs are
empty), while server 3 wins with the vote of 2 (a majority of its three). -/
def splitBrainRun : List Event :=
  [.tick 1 400 [], .deliver 0 400 [], .deliver 2 400 [], .persist 1 400 [], .deliver 3 400 [],
    .persist 2 400 [], .deliver 5 400 [], .propose 1 (.config (.AddMember 4)) 400 [],
    .propose 1 (.config (.AddMember 5)) 400 [],
    -- term 2: server 2 is elected by 3 and gives it an entry
    .tick 2 800 [], .deliver 15 800 [], .deliver 16 800 [], .persist 2 800 [],
    .deliver 18 800 [], .persist 3 800 [], .deliver 19 800 [], .propose 2 (.command [7]) 800 [],
    .deliver 23 800 [], .flush 3 800 [], .deliver 24 800 [], .deliver 25 800 [],
    -- server 1 hears of term 2 and stops leading
    .deliver 17 800 [],
    -- term 3: both 1 and 3 stand
    .tick 1 1200 [], .tick 3 1200 [], .deliver 28 1200 [], .deliver 29 1200 [],
    .deliver 32 1200 [], .deliver 33 1200 [], .persist 1 1200 [], .deliver 36 1200 [],
    .persist 4 1200 [], .deliver 37 1200 [], .persist 5 1200 [], .deliver 31 1200 [],
    .deliver 41 1200 [], .persist 3 1200 [], .deliver 43 1200 [], .persist 2 1200 [],
    .deliver 44 1200 [], .deliver 39 1200 [], .deliver 40 1200 []]

/-- Servers 1 and 3 both lead, in one term. -/
def twoLeaders (w : World) : Bool :=
  match w.nodes.lookup 1, w.nodes.lookup 3 with
  | some n₁, some n₃ => n₁.module.state.isLeader && n₃.module.state.isLeader &&
      n₁.module.meta_.currentTerm == n₃.module.meta_.currentTerm
  | _, _ => false

theorem two_leaders_in_term_three :
    ∃ w, World.simulate (cycle 20) [1, 2, 3, 4, 5] trioSnapshot splitBrainRun = .ok w ∧
      ¬ w.ElectionSafe := by
  have hrun : ((World.simulate (cycle 20) [1, 2, 3, 4, 5] trioSnapshot splitBrainRun).toOption.any
      twoLeaders) = true := by
    decide +kernel
  obtain ⟨w, hw, hleaders⟩ := exists_ok_of_any hrun
  refine ⟨w, hw, fun hsafe => ?_⟩
  unfold twoLeaders at hleaders
  split at hleaders
  case h_1 n₁ n₃ h₁ h₃ =>
    simp only [Bool.and_eq_true, beq_iff_eq] at hleaders
    obtain ⟨⟨hl₁, hl₃⟩, hterm⟩ := hleaders
    exact absurd (hsafe 1 n₁ 3 n₃ h₁ h₃ hl₁ hl₃ hterm) (by decide)
  case h_2 => exact absurd hleaders (by decide)

/-- After `splitBrainRun`, each leader commits its own entries: server 3 with server 2, server
1 with servers 4 and 5. Index 1 is then committed with term 1 on server 1 and with term 2 on
server 3. -/
def divergentCommitRun : List Event :=
  splitBrainRun ++
    [.deliver 48 1200 [], .flush 2 1200 [], .flush 3 1200 [], .deliver 55 1200 [],
      .deliver 56 1200 [], .deliver 57 1200 [], .deliver 59 1200 [], .deliver 60 1200 [],
      .tick 1 1300 [], .deliver 62 1300 [], .deliver 63 1300 [], .flush 4 1300 [],
      .flush 5 1300 [], .flush 1 1300 [], .deliver 64 1300 [], .deliver 65 1300 []]

/-- Index 1 is committed on servers 1 and 3, with two different terms. -/
def indexOneDiverges (w : World) : Bool :=
  match w.nodes.lookup 1, w.nodes.lookup 3 with
  | some n₁, some n₃ =>
    match n₁.module.logMeta.lookup 1, n₃.module.logMeta.lookup 1 with
    | some o₁, some o₃ => decide (1 ≤ n₁.module.meta_.commitIndex) &&
        decide (1 ≤ n₃.module.meta_.commitIndex) && o₁.position.term != o₃.position.term
    | _, _ => false
  | _, _ => false

theorem committed_index_with_two_terms :
    ∃ w, World.simulate (cycle 20) [1, 2, 3, 4, 5] trioSnapshot divergentCommitRun = .ok w ∧
      ¬ w.CommittedAgree := by
  have hrun : ((World.simulate (cycle 20) [1, 2, 3, 4, 5] trioSnapshot
      divergentCommitRun).toOption.any indexOneDiverges) = true := by
    decide +kernel
  obtain ⟨w, hw, hdiverge⟩ := exists_ok_of_any hrun
  refine ⟨w, hw, fun hagree => ?_⟩
  unfold indexOneDiverges at hdiverge
  split at hdiverge
  case h_1 n₁ n₃ h₁ h₃ =>
    split at hdiverge
    case h_1 o₁ o₃ ho₁ ho₃ =>
      simp only [Bool.and_eq_true, decide_eq_true_eq, bne_iff_ne, ne_eq] at hdiverge
      obtain ⟨⟨hc₁, hc₃⟩, hterm⟩ := hdiverge
      exact hterm (hagree 1 n₁ 3 n₃ 1 o₁ o₃ h₁ h₃ hc₁ hc₃ ho₁ ho₃)
    case h_2 => exact absurd hdiverge (by decide)
  case h_2 => exact absurd hdiverge (by decide)

end Dacha.Raft
