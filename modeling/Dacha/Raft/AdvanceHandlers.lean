import Dacha.Raft.Advance
import Dacha.Raft.Handlers

/-!
# The public operations of `ConsensusModule` move the server forward

Each operation of `Handlers.lean` is `Advancing`, given that the inner `cycle` is. The two that
need more than the frame of `cycle` are `request_vote` and `append_entries`:

* `request_vote` (`module.rs:2540-2575`) writes the vote after `observe_term`, so the request's
  term is at most the server's; `pre_vote_should_grant` (`:2465-2470`) then grants only when no
  other vote was cast in that term (`preVoteShouldGrant_votedFor`). `requestVote_granted` is what
  a granted response says about the server's metadata.
* `append_entries` (`:2591-2936`) runs through a chain of early returns; the proof follows the
  source's order of checks, naming each continuation of the `do` block.
-/

namespace Dacha.Raft

namespace ConsensusModule

open Dacha.Run

section Handlers

variable {cyc : Transition}

theorem persistedMetadata_advances (hcyc : Advancing cyc) (meta_ : Metadata) :
    Advancing (persistedMetadata cyc meta_) := by
  intro m t a m' t' h
  exact (hcyc _ _ _ _ _ h).of_frame rfl rfl rfl

theorem logFlushed_advances (hcyc : Advancing cyc) (lastFlushed : Nat) :
    Advancing (logFlushed cyc lastFlushed) := by
  intro m t a m' t' h
  unfold logFlushed at h
  split at h
  · cases h
  · exact (hcyc _ _ _ _ _ h).of_frame rfl rfl rfl

theorem drain_advances (hcyc : Advancing cyc) : Advancing (drain cyc) := by
  intro m t a m' t' h
  unfold drain at h
  split at h
  · cases h
    exact .refl _ _
  · exact (hcyc _ _ _ _ _ h).of_frame rfl rfl rfl

theorem observeLastConfigHint_advances (m : ConsensusModule) (resp : RequestVoteResponse)
    (t : Tick) :
    m.Advances t (m.observeLastConfigHint resp t).1 (m.observeLastConfigHint resp t).2 := by
  unfold observeLastConfigHint
  split
  · split
    · exact .frame rfl rfl rfl
    · exact .refl _ _
  · exact .refl _ _

theorem requestVoteCallback_advances (hcyc : Advancing cyc) (fromId requestId : Nat)
    (isPreVote : Bool) (resp : RequestVoteResponse) :
    Advancing (requestVoteCallback cyc fromId requestId isPreVote resp) := by
  intro m t a m' t' h
  unfold requestVoteCallback at h
  obtain ⟨⟨⟨⟩, m₁, t₁⟩, h₁, h⟩ := bind_eq_ok.mp h
  refine (observeTerm_advances hcyc _ _ _ _ _ _ h₁).trans
    ((observeLastConfigHint_advances m₁ resp t₁).trans ?_)
  dsimp only at h
  split at h
  · cases h
    exact .refl _ _
  · split at h
    · cases h
      exact .refl _ _
    · split at h
      · split at h
        · cases h
          exact .refl _ _
        · exact (hcyc _ _ _ _ _ h).of_frame rfl rfl rfl
      · cases h
        exact .refl _ _

theorem appendEntriesCallback_advances (hcyc : Advancing cyc) (fromId requestId : Nat)
    (resp : AppendEntriesResponse) :
    Advancing (appendEntriesCallback cyc fromId requestId resp) := by
  intro m t a m' t' h
  unfold appendEntriesCallback at h
  obtain ⟨⟨⟨⟩, m₁, t₁⟩, h₁, h⟩ := bind_eq_ok.mp h
  refine (observeTerm_advances hcyc _ _ _ _ _ _ h₁).trans ?_
  dsimp only at h
  split at h
  · split at h
    · cases h
      exact .refl _ _
    · split at h
      · cases h
        exact .refl _ _
      · split at h
        · cases h
          exact .refl _ _
        · split at h
          · split at h
            case h_1 hnoop =>
              cases h
              exact (proposeEntry_advances hcyc _ _ _ _ _ _ _ hnoop).of_frame rfl rfl rfl
            all_goals cases h
          · exact (hcyc _ _ _ _ _ h).of_frame rfl rfl rfl
  · cases h
    exact .refl _ _

theorem appendEntriesNoresponse_advances (hcyc : Advancing cyc) (fromId requestId : Nat) :
    Advancing (appendEntriesNoresponse cyc fromId requestId) := by
  intro m t a m' t' h
  unfold appendEntriesNoresponse at h
  split at h
  · split at h
    · cases h
      exact .refl _ _
    · split at h
      · cases h
        exact .refl _ _
      · split at h
        · cases h
          exact .refl _ _
        · exact (hcyc _ _ _ _ _ h).of_frame rfl rfl rfl
  · cases h
    exact .refl _ _

theorem heardFromLeader_advances (leaderId now : Nat) (m : ConsensusModule) (t : Tick) :
    m.Advances t (heardFromLeader leaderId now m) t := by
  unfold heardFromLeader
  split
  · exact .frame rfl rfl rfl
  · exact .refl _ _

theorem observeLeader_advances (hcyc : Advancing cyc) (term : Nat) :
    Advancing (observeLeader cyc term) := by
  intro m t a m' t' h
  unfold observeLeader at h
  obtain ⟨⟨⟨⟩, m₁, t₁⟩, h₁, h⟩ := bind_eq_ok.mp h
  refine (observeTerm_advances hcyc _ _ _ _ _ _ h₁).trans ?_
  dsimp only at h
  split_ifs at h
  · exact becomeFollower_advances hcyc _ _ _ _ _ h
  · cases h
    exact .refl _ _

theorem heartbeat_advances (hcyc : Advancing cyc) (req : HeartbeatRequest) :
    Advancing (heartbeat cyc req) := by
  intro m t a m' t' h
  unfold heartbeat at h
  obtain ⟨⟨⟨⟩, m₁, t₁⟩, h₁, h⟩ := bind_eq_ok.mp h
  refine (observeLeader_advances hcyc _ _ _ _ _ _ h₁).trans ?_
  dsimp only at h
  split at h
  · cases h
    exact .refl _ _
  · split at h
    · cases h
      exact .refl _ _
    · cases h
      exact heardFromLeader_advances _ _ _ _

theorem heartbeatCallback_advances (hcyc : Advancing cyc) (fromId requestId : Nat)
    (response : Option HeartbeatResponse) :
    Advancing (heartbeatCallback cyc fromId requestId response) := by
  intro m t a m' t' h
  unfold heartbeatCallback at h
  extract_lets afterObserve at h
  have hrest : ∀ m₁ t₁, m.Advances t m₁ t₁ → afterObserve ((), m₁, t₁) = .ok (a, m', t') →
      m.Advances t m' t' := by
    intro m₁ t₁ hobserve h
    refine hobserve.trans ?_
    simp only [afterObserve] at h
    split at h
    · split at h
      · cases h
        exact .refl _ _
      · split at h
        · cases h
          exact .refl _ _
        · exact (hcyc _ _ _ _ _ h).of_frame rfl rfl rfl
    · cases h
      exact .refl _ _
  split at h
  · obtain ⟨⟨⟨⟩, m₁, t₁⟩, h₁, h⟩ := bind_eq_ok.mp h
    exact hrest m₁ t₁ (observeTerm_advances hcyc _ _ _ _ _ _ h₁) h
  · obtain ⟨_, h₁, h⟩ := bind_eq_ok.mp h
    cases h₁
    exact hrest m t (.refl _ _) h

/-- `pre_vote_should_grant` never grants a second vote in the term it was cast in. -/
theorem preVoteShouldGrant_votedFor {m : ConsensusModule} {req : RequestVoteRequest} {now : Nat}
    (h : m.preVoteShouldGrant req now = true) (hterm : req.term ≤ m.meta_.currentTerm) :
    m.meta_.votedFor = 0 ∨ m.meta_.votedFor = req.candidateId := by
  unfold preVoteShouldGrant at h
  split at h
  · cases h
  · dsimp only at h
    split at h
    · cases h
    · split at h
      · cases h
      case isFalse hvote => omega

/-- What `request_vote` does to the metadata when it grants the vote. -/
theorem requestVote_granted (hcyc : Advancing cyc) {req : RequestVoteRequest}
    {m m' : ConsensusModule} {t t' : Tick} {res : RequestVoteResponse}
    (h : requestVote cyc req m t = .ok (res, m', t')) (hgrant : res.voteGranted = true) :
    m'.meta_.currentTerm = res.term ∧ m'.meta_.votedFor = req.candidateId := by
  unfold requestVote at h
  obtain ⟨⟨⟨⟩, m₁, t₁⟩, h₁, h⟩ := bind_eq_ok.mp h
  have hterm := (observeTerm_ok hcyc h₁).2
  dsimp only at h
  split at h
  · split at h
    · cases h
      refine ⟨?_, rfl⟩
      show m₁.meta_.currentTerm = if req.term > m₁.meta_.currentTerm then req.term
        else m₁.meta_.currentTerm
      rw [if_neg (not_lt.mpr hterm)]
    · cases h
  case isFalse hdenied =>
    cases h
    exact absurd hgrant hdenied

theorem requestVote_advances (hcyc : Advancing cyc) (req : RequestVoteRequest) :
    Advancing (requestVote cyc req) := by
  intro m t res m' t' h
  unfold requestVote at h
  obtain ⟨⟨⟨⟩, m₁, t₁⟩, h₁, h⟩ := bind_eq_ok.mp h
  obtain ⟨hobserve, hterm⟩ := observeTerm_ok hcyc h₁
  refine hobserve.trans ?_
  dsimp only at h
  split at h
  case isTrue hgrant =>
    split at h
    · cases h
      have hvote := preVoteShouldGrant_votedFor hgrant hterm
      refine ⟨rfl, ⟨le_rfl, le_rfl, fun _ => ?_⟩, fun hv => hv⟩
      rcases hvote with h0 | hc
      · exact .inl h0
      · exact .inr hc.symm
    · cases h
  case isFalse =>
    cases h
    exact .refl _ _

/-- The loop that skips the entries already in the log changes only the configuration. -/
theorem findFirstNew_frame {m m' : ConsensusModule} :
    ∀ (es : List LogEntry) (n : Nat) (truncation : Bool),
      findFirstNew m es = .ok (.ok (n, truncation, m')) → m'.id = m.id ∧ m'.meta_ = m.meta_
  | [], n, truncation, h => by
    simp only [findFirstNew, Except.ok.injEq, Prod.mk.injEq] at h
    obtain ⟨-, -, rfl⟩ := h
    exact ⟨rfl, rfl⟩
  | e :: es, n, truncation, h => by
    simp only [findFirstNew] at h
    split at h
    · simp only [Except.ok.injEq, Prod.mk.injEq] at h
      obtain ⟨-, -, rfl⟩ := h
      exact ⟨rfl, rfl⟩
    · split_ifs at h
      · split at h
        · simp only [Except.ok.injEq, Prod.mk.injEq] at h
          obtain ⟨-, -, rfl⟩ := h
          exact findFirstNew_frame es _ _ ‹_›
        · exact findFirstNew_frame es n truncation h
      · cases h
      · split at h
        · cases h
        · simp only [Except.ok.injEq, Prod.mk.injEq] at h
          obtain ⟨-, -, rfl⟩ := h
          exact ⟨rfl, rfl⟩

/-- The loop that appends the new entries touches neither the metadata nor the messages. -/
theorem appendNewEntries_advances {pendingTruncation : Bool} {lastNewSeq : Nat}
    {es : List LogEntry} {m m' : ConsensusModule} {t t' : Tick} {seq : Nat} {truncation : Bool}
    (h : appendNewEntries pendingTruncation lastNewSeq es m t = .ok (seq, truncation, m', t')) :
    m.Advances t m' t' := by
  induction es generalizing pendingTruncation lastNewSeq m t with
  | nil =>
    simp only [appendNewEntries, Except.ok.injEq, Prod.mk.injEq] at h
    obtain ⟨-, -, rfl, rfl⟩ := h
    exact .refl _ _
  | cons e es ih =>
    simp only [appendNewEntries] at h
    split at h
    · cases h
    · exact (ih h).of_frame rfl rfl rfl

theorem appendEntries_advances (hcyc : Advancing cyc) (req : AppendEntriesRequest) :
    Advancing (appendEntries cyc req) := by
  intro m t a m' t' h
  unfold appendEntries at h
  obtain ⟨⟨⟨⟩, m₁, t₁⟩, h₁, h⟩ := bind_eq_ok.mp h
  refine (observeLeader_advances hcyc _ _ _ _ _ _ h₁).trans ?_
  dsimp -zeta only at h
  extract_lets currentTerm makeResponse heard checkTerm at h
  split at h
  · cases h
    exact .refl _ _
  split at h
  · obtain ⟨_, h, -⟩ := bind_eq_ok.mp h
    cases h
  dsimp -zeta only [checkTerm] at h
  have hheard : m₁.Advances t₁ heard t₁ := heardFromLeader_advances _ _ _ _
  split at h
  · exact (Advances.refl _ _).of_ok h
  split at h
  · exact hheard.of_ok h
  split at h
  · exact hheard.of_ok h
  split at h
  · exact hheard.of_ok h
  split at h
  · exact hheard.of_ok h
  obtain ⟨found, hfound, h⟩ := bind_eq_ok.mp h
  split at h
  case h_2 => exact hheard.of_ok h
  case h_1 _ triple =>
    obtain ⟨_, hx, h⟩ := bind_eq_ok.mp h
    cases hx
    obtain ⟨firstNew, truncation, m₃⟩ := triple
    obtain ⟨hid₃, hmeta₃⟩ := findFirstNew_frame _ _ _ hfound
    have hfirst : m₁.Advances t₁ m₃ t₁ := hheard.trans (.frame hid₃ hmeta₃ rfl)
    extract_lets newEntries afterSeq afterCheck at h
    have hseq : ∀ seq, afterSeq seq = .ok (a, m', t') → m₁.Advances t₁ m' t' := by
      intro seq h
      dsimp -zeta only [afterSeq] at h
      obtain ⟨⟨lastNewSeq, truncation', m₄, t₄⟩, happend, h⟩ := bind_eq_ok.mp h
      have hnew := hfirst.trans (appendNewEntries_advances happend)
      extract_lets afterCommit at h
      have hcommit : ∀ m₅ t₅, m₁.Advances t₁ m₅ t₅ → afterCommit ((), m₅, t₅) = .ok (a, m', t') →
          m₁.Advances t₁ m' t' := by
        intro m₅ t₅ h₅ h
        dsimp -zeta only [afterCommit] at h
        extract_lets lastLogIndex respond afterTruncation at h
        split at h
        · obtain ⟨_, hx, -⟩ := bind_eq_ok.mp h
          cases hx
        · dsimp -zeta only [afterTruncation] at h
          split at h
          · split at h
            · exact h₅.of_ok h
            · obtain ⟨⟨⟨⟩, m₆, t₆⟩, hcandidate, h⟩ := bind_eq_ok.mp h
              exact (h₅.trans (becomeCandidate_advances hcyc _ _ _ _ _ _ hcandidate)).of_ok h
          · obtain ⟨_, hx, h⟩ := bind_eq_ok.mp h
            cases hx
            exact h₅.of_ok h
      split_ifs at h
      · obtain ⟨⟨⟨⟩, m₅, t₅⟩, hupdate, h⟩ := bind_eq_ok.mp h
        exact hcommit _ _ (hnew.trans (updateCommited_advances hupdate)) h
      · obtain ⟨_, hx, h⟩ := bind_eq_ok.mp h
        cases hx
        exact hcommit _ _ hnew h
    have hcheck : afterCheck () = .ok (a, m', t') → m₁.Advances t₁ m' t' := by
      intro h
      dsimp -zeta only [afterCheck] at h
      split at h
      · obtain ⟨_, hx, h⟩ := bind_eq_ok.mp h
        cases hx
        exact hseq _ h
      · obtain ⟨_, hx, -⟩ := bind_eq_ok.mp h
        cases hx
    split at h
    · split at h
      · exact hfirst.of_ok h
      · exact hcheck h
    · exact hcheck h

theorem installSnapshot_advances (hcyc : Advancing cyc) (req : InstallSnapshotRequest) :
    Advancing (installSnapshot cyc req) := by
  intro m t a m' t' h
  unfold installSnapshot at h
  obtain ⟨⟨⟨⟩, m₁, t₁⟩, h₁, h⟩ := bind_eq_ok.mp h
  refine (observeTerm_advances hcyc _ _ _ _ _ _ h₁).trans ?_
  dsimp only at h
  split at h
  · exact (Advances.refl _ _).of_ok h
  split at h
  · exact (Advances.refl _ _).of_ok h
  split at h
  · exact Advances.of_ok h (.frame rfl rfl rfl)
  · exact (Advances.refl _ _).of_ok h

theorem installSnapshotCallbackImpl_advances (hcyc : Advancing cyc) (toId : Nat)
    (request : InstallSnapshotRequest) (response : InstallSnapshotResponse) (successful : Bool)
    (lastAppliedIndex : Nat) :
    Advancing (installSnapshotCallbackImpl cyc toId request response successful lastAppliedIndex) := by
  intro m t a m' t' h
  unfold installSnapshotCallbackImpl at h
  obtain ⟨⟨⟨⟩, m₁, t₁⟩, h₁, h⟩ := bind_eq_ok.mp h
  refine (observeTerm_advances hcyc _ _ _ _ _ _ h₁).trans ?_
  dsimp only at h
  split at h
  · exact (Advances.refl _ _).of_ok h
  split at h
  · split at h
    · split at h
      · exact (Advances.refl _ _).of_ok h
      · exact (hcyc _ _ _ _ _ h).of_frame rfl rfl rfl
    · exact (Advances.refl _ _).of_ok h
  · exact (Advances.refl _ _).of_ok h

theorem installSnapshotCallback_advances (hcyc : Advancing cyc) (toId : Nat)
    (request : InstallSnapshotRequest) (response : InstallSnapshotResponse)
    (lastAppliedIndex : Nat) :
    Advancing (installSnapshotCallback cyc toId request response lastAppliedIndex) :=
  installSnapshotCallbackImpl_advances hcyc toId request response true lastAppliedIndex

theorem installSnapshotNoresponse_advances (hcyc : Advancing cyc) (toId : Nat)
    (request : InstallSnapshotRequest) :
    Advancing (installSnapshotNoresponse cyc toId request) := by
  intro m t a m' t' h
  exact installSnapshotCallbackImpl_advances hcyc toId request _ false _ m t a m' t' h

end Handlers

end ConsensusModule

end Dacha.Raft
