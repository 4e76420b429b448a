import Dacha.Raft.Core

/-!
# The commit rule of a leader (`module.rs:1351-1409`, `:2080-2096`)

A leader commits the largest index that a majority of the voting members hold, if it is above
the commit index and its entry is from the current term: a leader counts replicas of its own
term's entries only. `find_next_commit_index` sorts the members' flushed indexes in descending
order and looks at the one at position `majority_size() - 1` alone.

`cycle` calls it right after `assert!(self.can_be_leader())` (`module.rs:1174`), so the leader is
a member and `majority_size` is a real majority. `findNextCommitIndex_eq_largest_committable`
proves that the one position gives the rule for every such leader whose members' indexes are in
its log, and whose log keeps its terms in order: non-decreasing along the log, none above the
current term, and no entry missing before the last (`LogMetadata.TermsOrdered`). The sorted
position is the largest index a majority holds (`succ_le_countP_iff_of_perm`); the order of the
terms is why the one index is enough.
-/

namespace Dacha.Raft

/-- How the terms of two entries `i ≤ j` of a log compare: the first at most the second and
both at most the current term, and no entry held before one that is missing. -/
def termsOrdered (currentTerm : Nat) : Option Nat → Option Nat → Prop
  | some a, some b => a ≤ b ∧ b ≤ currentTerm
  | some _, none => False
  | none, some b => b ≤ currentTerm
  | none, none => True

instance (currentTerm : Nat) : ∀ a b, Decidable (termsOrdered currentTerm a b)
  | some a, some b => inferInstanceAs (Decidable (a ≤ b ∧ b ≤ currentTerm))
  | some _, none => inferInstanceAs (Decidable False)
  | none, some b => inferInstanceAs (Decidable (b ≤ currentTerm))
  | none, none => inferInstanceAs (Decidable True)

/-- The terms of a log are in order up to its last entry. -/
def LogMetadata.TermsOrdered (m : LogMetadata) (currentTerm : Nat) : Prop :=
  ∀ j, j ≤ m.last.position.index → ∀ i, i ≤ j →
    termsOrdered currentTerm ((m.lookup i).map (·.position.term))
      ((m.lookup j).map (·.position.term))

instance (m : LogMetadata) (currentTerm : Nat) : Decidable (m.TermsOrdered currentTerm) :=
  inferInstanceAs (Decidable (∀ j, j ≤ m.last.position.index → ∀ i, i ≤ j → _))

/-- An entry at or before `c` in a log with ordered terms: the log holds `c` too, in a term
between the entry's and the current one. -/
theorem LogMetadata.TermsOrdered.term_le {lm : LogMetadata} {currentTerm : Nat}
    (h : lm.TermsOrdered currentTerm) {i c a : Nat} (hc : c ≤ lm.last.position.index)
    (hic : i ≤ c) (hi : (lm.lookup i).map (·.position.term) = some a) :
    ∃ b, (lm.lookup c).map (·.position.term) = some b ∧ a ≤ b ∧ b ≤ currentTerm := by
  have hord := h c hc i hic
  rw [hi] at hord
  cases hlc : (lm.lookup c).map (·.position.term) with
  | none => rw [hlc] at hord; exact absurd hord id
  | some b => rw [hlc] at hord; exact ⟨b, rfl, hord⟩

namespace ConsensusModule

variable (m : ConsensusModule) (s : ConsensusLeaderState)

/-- A majority of the members hold index `i`. -/
def Replicated (i : Nat) : Prop :=
  m.majoritySize ≤ (m.matchIndexes s).countP fun x => decide (i ≤ x)

/-- Index `i` may be committed: a majority holds it, it is above the commit index, and its
entry is from the current term. -/
def Committable (i : Nat) : Prop :=
  m.Replicated s i ∧ m.meta_.commitIndex < i ∧
    (m.logMeta.lookup i).map (·.position.term) = some m.meta_.currentTerm

/-- `i` is the largest index that may be committed. -/
def IsNextCommitIndex (i : Nat) : Prop :=
  m.Committable s i ∧ ∀ j, m.Committable s j → j ≤ i

variable {m s}

theorem length_matchIndexes :
    (m.matchIndexes s).length = m.config.value.servers.countP (·.role = .MEMBER) := by
  rw [matchIndexes, List.length_filterMap_eq_countP]
  apply List.countP_congr
  intro server _
  by_cases hrole : server.role = .MEMBER
  · -- a member always gives an index: its own, its follower's, or 0
    simp only [hrole, ne_eq, not_true_eq_false, if_false, decide_true]
    split
    · simp
    · split <;> simp
  · simp [hrole]

/-- A server that can be leader is a member, so the configuration has one. -/
theorem countP_member_pos_of_canBeLeader (h : m.canBeLeader = true) :
    0 < m.config.value.servers.countP (·.role = .MEMBER) := by
  have hrole : m.config.value.serverRole m.id = .MEMBER := by
    by_contra hne
    simp [canBeLeader, hne] at h
  unfold Configuration.serverRole Configuration.server at hrole
  cases hfind : m.config.value.servers.find? (·.id = m.id) with
  | none => rw [hfind] at hrole; cases hrole
  | some server =>
    rw [hfind] at hrole
    exact List.countP_pos_iff.mpr ⟨server, List.mem_of_find?_eq_some hfind, by simpa using hrole⟩

theorem majoritySize_pos_le (h : 0 < m.config.value.servers.countP (·.role = .MEMBER)) :
    0 < m.majoritySize ∧ m.majoritySize ≤ m.config.value.servers.countP (·.role = .MEMBER) := by
  unfold majoritySize
  rw [if_neg (by omega)]
  omega

theorem none_iff_of_not_committable (h : ∀ i, ¬ m.Committable s i) (i : Nat) :
    (none : Option Nat) = some i ↔ m.IsNextCommitIndex s i := by
  simp only [reduceCtorEq, false_iff]
  exact fun hi => h i hi.1

/-- `find_next_commit_index` returns the largest index a majority of the members hold, above the
commit index and from the current term, and `None` when there is none. -/
theorem findNextCommitIndex_eq_largest_committable (hleader : m.canBeLeader = true)
    (hmatch : ∀ x ∈ m.matchIndexes s, x ≤ m.logMeta.last.position.index)
    (hlog : m.logMeta.TermsOrdered m.meta_.currentTerm) :
    ∃ r, m.findNextCommitIndex s = .ok r ∧ ∀ i, r = some i ↔ m.IsNextCommitIndex s i := by
  obtain ⟨hM, hMle⟩ := majoritySize_pos_le (countP_member_pos_of_canBeLeader hleader)
  have hlen : m.majoritySize - 1 < (sortDesc (m.matchIndexes s)).length := by
    rw [(sortDesc_perm _).length_eq, length_matchIndexes]
    omega
  -- The candidate at position `majority_size() - 1` bounds every index a majority holds.
  have hrep : ∀ i, m.Replicated s i ↔ i ≤ (sortDesc (m.matchIndexes s))[m.majoritySize - 1] := by
    intro i
    have h := succ_le_countP_iff_of_perm (sortDesc_perm _) (sortDesc_pairwise _) _ hlen i
    rwa [Nat.sub_add_cancel hM] at h
  have hcle : (sortDesc (m.matchIndexes s))[m.majoritySize - 1] ≤ m.logMeta.last.position.index :=
    hmatch _ ((sortDesc_perm _).subset (List.getElem_mem hlen))
  unfold findNextCommitIndex
  split_ifs with hlast
  · -- the whole log is committed: an index above it has no entry
    refine ⟨none, rfl, none_iff_of_not_committable fun i ⟨_, hcommit, hterm⟩ => ?_⟩
    obtain ⟨off, hoff, -⟩ := Option.map_eq_some_iff.mp hterm
    have := LogMetadata.lookup_le hoff
    omega
  rw [List.getElem?_eq_getElem hlen]
  dsimp only
  split_ifs with hcommit
  · -- the candidate is committed already, and so is every index a majority holds
    refine ⟨none, rfl, none_iff_of_not_committable fun i ⟨hi, hlt, _⟩ => ?_⟩
    have := (hrep i).mp hi
    omega
  cases hterm : (m.logMeta.lookup (sortDesc (m.matchIndexes s))[m.majoritySize - 1]).map
      (·.position.term) with
  | none =>
    refine ⟨none, rfl, none_iff_of_not_committable fun i ⟨hi, _, hti⟩ => ?_⟩
    obtain ⟨b, hb, -⟩ := hlog.term_le hcle ((hrep i).mp hi) hti
    rw [hterm] at hb
    cases hb
  | some t =>
    dsimp only
    split_ifs with ht
    · -- an older term at the candidate: older still before it
      refine ⟨none, rfl, none_iff_of_not_committable fun i ⟨hi, _, hti⟩ => ?_⟩
      obtain ⟨b, hb, hle, hbt⟩ := hlog.term_le hcle ((hrep i).mp hi) hti
      rw [hterm, Option.some.injEq] at hb
      subst hb
      exact ht (by omega)
    · -- the candidate may be committed, and every index that may is at most it
      have hcomm : m.Committable s (sortDesc (m.matchIndexes s))[m.majoritySize - 1] :=
        ⟨(hrep _).mpr le_rfl, by omega, by rw [hterm, not_not.mp ht]⟩
      refine ⟨_, rfl, fun i => ⟨?_, ?_⟩⟩
      · rintro ⟨⟩
        exact ⟨hcomm, fun j hj => (hrep j).mp hj.1⟩
      · rintro ⟨hi, hmax⟩
        have hle := hmax _ hcomm
        have hge := (hrep i).mp hi.1
        rw [Nat.le_antisymm hge hle]

end ConsensusModule

/-! ## A leader of three members -/

/-- Followers 2 and 3, holding indexes 3 and 1. -/
def trioLeaderState : ConsensusLeaderState :=
  ⟨((∅ : FollowerMap).insert 2 { ConsensusFollowerProgress.new 3 with matchIndex := 3 }).insert 3
    { ConsensusFollowerProgress.new 3 with matchIndex := 1 }, 0, 0, false⟩

/-- Leader 1 of term 2 with members 1, 2 and 3, the log `(1, 1), (2, 2), (2, 3)` flushed, and
commit index 1. -/
def trioLeader : ConsensusModule where
  id := 1
  meta_ := { currentTerm := 2, votedFor := 1, commitIndex := 1 }
  persistedMeta := { currentTerm := 2, votedFor := 1, commitIndex := 1 }
  logMeta := ((LogMetadata.new.pushOffset ⟨⟨1, 1⟩, 1⟩).pushOffset ⟨⟨2, 2⟩, 2⟩).pushOffset ⟨⟨2, 3⟩, 3⟩
  logLastFlushed := 3
  config := .fromSnapshot ⟨0, ⟨[⟨1, .MEMBER⟩, ⟨2, .MEMBER⟩, ⟨3, .MEMBER⟩]⟩⟩
  state := .Leader trioLeaderState
  draining := none
  pendingConflict := none
  pendingCommitIndex := none
  lastRequestId := 0

theorem findNextCommitIndex_trio :
    trioLeader.canBeLeader = true ∧
      (∀ x ∈ trioLeader.matchIndexes trioLeaderState, x ≤ trioLeader.logMeta.last.position.index) ∧
      trioLeader.logMeta.TermsOrdered trioLeader.meta_.currentTerm ∧
      ∃ r, trioLeader.findNextCommitIndex trioLeaderState = .ok r ∧
        ∀ i, r = some i ↔ trioLeader.IsNextCommitIndex trioLeaderState i :=
  ⟨by decide, by decide, by decide,
    ConsensusModule.findNextCommitIndex_eq_largest_committable (by decide) (by decide) (by decide)⟩

example : trioLeader.findNextCommitIndex trioLeaderState = .ok (some 3) := by decide

end Dacha.Raft
