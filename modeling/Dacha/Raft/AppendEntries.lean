import Dacha.Raft.Membership

/-!
# Log repair on a follower (`module.rs:2591-2936`)

A follower repairs its log from the leader's `AppendEntries`. The entries the follower already
has are skipped. At the first entry whose term differs, the follower is meant to drop its own
entries from there and take the leader's (`LogMetadata::append` truncates when it overwrites an
index).

The loop that finds the conflict (`module.rs:2752-2779`) reverts the configuration and stops
without truncating. The check after it (`module.rs:2787-2802`) then asks that the first new entry
come right after the last entry of the log. The conflicting entry is still in the log, so the
check always fails (`findFirstNew_conflict_not_adjacent`): every repair that needs a truncation
is answered `Err("Next new entry is not immediately after our last local one")`, after the
configuration was reverted.

`append_entries` also appends the new entries and advances the commit index before it looks at
`timeout_now` (`module.rs:2888-2894`). A server that cannot be leader then returns `Err` with the
entries already appended.
-/

namespace Dacha.Raft

open ConsensusModule Dacha.Run

namespace ConsensusModule

variable {m m' : ConsensusModule}

/-- Where the loop of `append_entries` reports a truncation, the entry it stopped at is one the
log holds, and only the configuration changed. -/
theorem findFirstNew_conflict {m m' : ConsensusModule} :
    ∀ (es : List LogEntry) (n : Nat), findFirstNew m es = .ok (.ok (n, true, m')) →
      m'.logMeta = m.logMeta ∧ ∃ e, es[n]? = some e ∧ e.pos.index ≤ m.logMeta.last.position.index
  | [], n, h => by simp [findFirstNew] at h
  | e :: es, n, h => by
    simp only [findFirstNew] at h
    cases hl : m.logMeta.lookup e.pos.index with
    | none => simp [hl] at h
    | some off =>
      simp only [hl, Option.map_some] at h
      split_ifs at h with hterm hcommit
      · -- the entry is already in the log: the conflict is further on
        split at h
        · rename_i n₁ tr m₁ hrest
          simp only [Except.ok.injEq, Prod.mk.injEq] at h
          obtain ⟨rfl, rfl, rfl⟩ := h
          obtain ⟨hmeta, e', he', hle⟩ := findFirstNew_conflict es n₁ hrest
          exact ⟨hmeta, e', by simpa using he', hle⟩
        · rename_i r hr
          rw [h] at hr
          exact absurd rfl (hr n true m')
      · cases h
      · split at h
        · cases h
        · simp only [Except.ok.injEq, Prod.mk.injEq] at h
          obtain ⟨rfl, -, rfl⟩ := h
          exact ⟨rfl, e, rfl, LogMetadata.lookup_le hl⟩

/-- A conflict found by `append_entries` always fails the check that the first new entry
follows the last entry of the log. -/
theorem findFirstNew_conflict_not_adjacent {es : List LogEntry} {n : Nat}
    (h : findFirstNew m es = .ok (.ok (n, true, m'))) :
    ∃ next, es[n]? = some next ∧ next.pos.index ≠ m'.logMeta.last.position.index + 1 := by
  obtain ⟨hmeta, e, he, hle⟩ := findFirstNew_conflict es n h
  refine ⟨e, he, ?_⟩
  rw [hmeta]
  omega

end ConsensusModule

/-! ## A repair that needs a truncation -/

/-- The log of a server that appended `(1, 1)` in term 1 and then restarted. -/
def restartLog : MemoryLog := { log := [(⟨⟨1, 1⟩, .noop true⟩, 1)] }

/-- The leader of term 2 sends its own entry for index 1, after the empty prefix. -/
def repairRequest : AppendEntriesRequest :=
  { term := 2, leaderId := 1, prevLogIndex := 0, prevLogTerm := 0,
    entries := [⟨⟨2, 1⟩, .noop true⟩], leaderCommit := 0 }

/-- Server 2 of the pair restarts in term 2 with `restartLog`, where nothing is committed. It is
a follower of term 2, `repairRequest`'s previous entry matches, and the request differs from its
log only at index 1, above the commit index. The request is refused. -/
theorem conflicting_append_is_refused :
    ∃ m, ConsensusModule.new 2 { currentTerm := 2 } pairSnapshot restartLog 0 0 = .ok m ∧
      m.state.isFollower ∧ m.meta_.currentTerm = repairRequest.term ∧
      (m.logMeta.lookup repairRequest.prevLogIndex).map (·.position.term) =
        some repairRequest.prevLogTerm ∧
      m.meta_.commitIndex < 1 ∧
      (appendEntries (cycle 10) repairRequest m { time := 0 }).map (·.1) =
        .ok (.error "Next new entry is not immediately after our last local one") := by
  have hrun : (ConsensusModule.new 2 { currentTerm := 2 } pairSnapshot restartLog 0 0).toOption.any
      (fun m => m.state.isFollower && decide (m.meta_.currentTerm = repairRequest.term) &&
        decide ((m.logMeta.lookup repairRequest.prevLogIndex).map (·.position.term) =
          some repairRequest.prevLogTerm) &&
        decide (m.meta_.commitIndex < 1) &&
        decide ((appendEntries (cycle 10) repairRequest m { time := 0 }).map (·.1) =
          .ok (.error "Next new entry is not immediately after our last local one"))) = true := by
    decide +kernel
  obtain ⟨m, hm, hp⟩ := exists_ok_of_any hrun
  simp only [Bool.and_eq_true, decide_eq_true_eq] at hp
  exact ⟨m, hm, hp.1.1.1.1, hp.1.1.1.2, hp.1.1.2, hp.1.2, hp.2⟩

/-- The loop stops at `repairRequest`'s one entry, which conflicts with `(1, 1)`; the entry is
at index 1, not after the last entry of the log. -/
theorem findFirstNew_conflict_restartLog :
    ∃ m m', ConsensusModule.new 2 { currentTerm := 2 } pairSnapshot restartLog 0 0 = .ok m ∧
      findFirstNew m repairRequest.entries = .ok (.ok (0, true, m')) ∧
      ∃ next, repairRequest.entries[0]? = some next ∧
        next.pos.index ≠ m'.logMeta.last.position.index + 1 := by
  have hrun : (ConsensusModule.new 2 { currentTerm := 2 } pairSnapshot restartLog 0 0).toOption.any
      (fun m => (findFirstNew m repairRequest.entries).toOption.any fun r =>
        r.toOption.any fun r => decide (r.1 = 0) && r.2.1) = true := by
    decide +kernel
  obtain ⟨m, hm, hp⟩ := exists_ok_of_any hrun
  obtain ⟨r, hr, hp⟩ := exists_ok_of_any hp
  obtain ⟨⟨n, truncation, m'⟩, hr', hp⟩ := exists_ok_of_any hp
  simp only [Bool.and_eq_true, decide_eq_true_eq] at hp
  obtain ⟨rfl, rfl⟩ := hp
  subst hr'
  exact ⟨m, m', hm, hr, ConsensusModule.findFirstNew_conflict_not_adjacent hr⟩

/-! ## `timeout_now` after the append -/

/-- Server 1 a member, server 2 a learner. -/
def learnerSnapshot : ConfigurationSnapshot := ⟨0, ⟨[⟨1, .MEMBER⟩, ⟨2, .LEARNER⟩]⟩⟩

/-- The leader of term 1 sends its first entry, commits it, and asks the receiver to take
over. -/
def timeoutRequest : AppendEntriesRequest :=
  { term := 1, leaderId := 1, prevLogIndex := 0, prevLogTerm := 0,
    entries := [⟨⟨1, 1⟩, .noop true⟩], leaderCommit := 1, timeoutNow := true }

/-- The learner appends the entry and advances its commit index, then returns `Err` because it
cannot be leader: the error leaves the log and the commit index changed, and the entry in the
tick. -/
theorem timeout_now_error_after_append :
    ∃ m m' t', ConsensusModule.new 2 { currentTerm := 1 } learnerSnapshot {} 0 0 = .ok m ∧
      appendEntries (cycle 10) timeoutRequest m { time := 0 } =
        .ok (.error "Timeout now received but can't be the leader", m', t') ∧
      m'.logMeta ≠ m.logMeta ∧ m'.meta_.commitIndex ≠ m.meta_.commitIndex ∧
      t'.newEntries ≠ [] := by
  have hrun : (ConsensusModule.new 2 { currentTerm := 1 } learnerSnapshot {} 0 0).toOption.any
      (fun m => (appendEntries (cycle 10) timeoutRequest m { time := 0 }).toOption.any fun r =>
        decide (r.1 = .error "Timeout now received but can't be the leader") &&
        decide (r.2.1.logMeta ≠ m.logMeta) &&
        decide (r.2.1.meta_.commitIndex ≠ m.meta_.commitIndex) &&
        decide (r.2.2.newEntries ≠ [])) = true := by
    decide +kernel
  obtain ⟨m, hm, hp⟩ := exists_ok_of_any hrun
  obtain ⟨⟨res, m', t'⟩, ha, hq⟩ := exists_ok_of_any hp
  simp only [Bool.and_eq_true, decide_eq_true_eq] at hq
  obtain ⟨⟨⟨hres, hlog⟩, hcommit⟩, hnew⟩ := hq
  subst hres
  exact ⟨m, m', t', hm, ha, hlog, hcommit, hnew⟩

end Dacha.Raft
