import Dacha.Lib.Run
import Dacha.Raft.Cycle

/-!
# The metadata of a server only moves forward (`consensus/module.rs`)

Raft's safety rests on three facts about the metadata a server persists: its current term never
decreases, its commit index never decreases, and in one term it votes at most once. `module.rs`
writes the metadata in four places:

| write                                    | source                                   |
|------------------------------------------|------------------------------------------|
| a higher term, with no vote              | `observe_term` (`:2019-2028`)             |
| the next term, with a vote for itself    | `become_candidate` (`:1910-1915`)         |
| the vote it grants                       | `request_vote` (`:2565-2571`)             |
| a higher commit index                    | `update_commited` (`:2060-2063`)          |

`Metadata.Advances` is the relation these writes keep. `ConsensusModule.Advances` adds what every
operation keeps besides: the server's id, and that each `RequestVote` it sends asks for its own
election (`perform_election`, `:1955-2000`). Every operation that calls `cycle` is proved
`Advancing` given that the inner `cycle` is, and `cycle_advances` ties the knot by induction on
the fuel.
-/

namespace Dacha.Raft

/-- `b` is a later state of the metadata `a`: the term and the commit index have not gone back,
and in the same term a vote once cast is still the vote. -/
structure Metadata.Advances (a b : Metadata) : Prop where
  term_le : a.currentTerm ≤ b.currentTerm
  commit_le : a.commitIndex ≤ b.commitIndex
  vote_kept : a.currentTerm = b.currentTerm → a.votedFor = 0 ∨ b.votedFor = a.votedFor

namespace Metadata.Advances

@[refl] theorem refl (a : Metadata) : a.Advances a := ⟨le_rfl, le_rfl, fun _ => .inr rfl⟩

@[trans] theorem trans {a b c : Metadata} (hab : a.Advances b) (hbc : b.Advances c) :
    a.Advances c := by
  refine ⟨hab.term_le.trans hbc.term_le, hab.commit_le.trans hbc.commit_le, ?_⟩
  intro hac
  have hab' : a.currentTerm = b.currentTerm := le_antisymm hab.term_le (hac ▸ hbc.term_le)
  rcases hab.vote_kept hab' with ha | hb
  · exact .inl ha
  · rcases hbc.vote_kept (hab' ▸ hac) with hb0 | hc
    · exact .inl (hb ▸ hb0)
    · exact .inr (hc.trans hb)

/-- A vote cast in a term is still cast in every later state of that term. -/
theorem votedFor_eq {a b : Metadata} (h : a.Advances b) (hterm : a.currentTerm = b.currentTerm)
    (hvote : 0 < a.votedFor) : b.votedFor = a.votedFor := by
  rcases h.vote_kept hterm with h0 | hkept
  · omega
  · exact hkept

end Metadata.Advances

/-- Every `RequestVote` among `msgs` asks for a vote for server `id`. -/
def VoteRequestsFrom (id : Nat) (msgs : List ConsensusMessage) : Prop :=
  ∀ msg ∈ msgs, ∀ req, msg.body = .RequestVote req → req.candidateId = id

theorem voteRequestsFrom_append {id : Nat} {msgs msgs' : List ConsensusMessage} :
    VoteRequestsFrom id (msgs ++ msgs') ↔ VoteRequestsFrom id msgs ∧ VoteRequestsFrom id msgs' := by
  simp only [VoteRequestsFrom, List.mem_append]
  constructor
  · intro h
    exact ⟨fun msg hm => h msg (.inl hm), fun msg hm => h msg (.inr hm)⟩
  · rintro ⟨h, h'⟩ msg (hm | hm)
    · exact h msg hm
    · exact h' msg hm

namespace Tick

@[simp] theorem writeMeta_messages (t : Tick) : t.writeMeta.messages = t.messages := rfl
@[simp] theorem writeConfig_messages (t : Tick) : t.writeConfig.messages = t.messages := rfl
@[simp] theorem send_messages (t : Tick) (msg : ConsensusMessage) :
    (t.send msg).messages = t.messages ++ [msg] := rfl
@[simp] theorem draw_messages (t : Tick) : t.draw.2.messages = t.messages := by
  unfold draw; split <;> rfl

end Tick

namespace ConsensusModule

/-- What an operation may do to the server it runs on: keep its id, move its metadata forward,
and send vote requests only for itself. -/
structure Advances (m : ConsensusModule) (t : Tick) (m' : ConsensusModule) (t' : Tick) : Prop
    where
  id_eq : m'.id = m.id
  meta_le : m.meta_.Advances m'.meta_
  votes : VoteRequestsFrom m.id t.messages → VoteRequestsFrom m.id t'.messages

namespace Advances

variable {m m₁ m₂ : ConsensusModule} {t t₁ t₂ : Tick}

theorem refl (m : ConsensusModule) (t : Tick) : m.Advances t m t :=
  ⟨rfl, .refl _, fun hv => hv⟩

theorem trans (h₁ : m.Advances t m₁ t₁) (h₂ : m₁.Advances t₁ m₂ t₂) :
    m.Advances t m₂ t₂ := by
  refine ⟨h₂.id_eq.trans h₁.id_eq, h₁.meta_le.trans h₂.meta_le, fun hv => ?_⟩
  have hv₁ := h₁.votes hv
  rw [← h₁.id_eq] at hv₁ ⊢
  exact h₂.votes hv₁

/-- A step that touches neither the id, the metadata nor the messages. -/
theorem frame (hid : m₁.id = m.id) (hmeta : m₁.meta_ = m.meta_) (hmsg : t₁.messages = t.messages) :
    m.Advances t m₁ t₁ :=
  ⟨hid, hmeta ▸ .refl _, fun hv => hmsg ▸ hv⟩

/-- A step that only sends messages with no vote request for another server. -/
theorem send (hid : m₁.id = m.id) (hmeta : m₁.meta_ = m.meta_) {new : List ConsensusMessage}
    (hmsg : t₁.messages = t.messages ++ new) (hnew : VoteRequestsFrom m.id new) :
    m.Advances t m₁ t₁ :=
  ⟨hid, hmeta ▸ .refl _, fun hv => hmsg ▸ voteRequestsFrom_append.mpr ⟨hv, hnew⟩⟩

/-- A result that ends in a state `m₁` advanced to. -/
theorem of_ok {α : Type} {b a : α}
    (h : Except.ok (b, m₁, t₁) = (Except.ok (a, m₂, t₂) : Outcome α)) (hadv : m.Advances t m₁ t₁) :
    m.Advances t m₂ t₂ := by
  simp only [Except.ok.injEq, Prod.mk.injEq] at h
  obtain ⟨-, rfl, rfl⟩ := h
  exact hadv

/-- `h`, after a step that touches neither the id, the metadata nor the messages. -/
theorem of_frame (h : m₁.Advances t₁ m₂ t₂) (hid : m₁.id = m.id) (hmeta : m₁.meta_ = m.meta_)
    (hmsg : t₁.messages = t.messages) : m.Advances t m₂ t₂ :=
  (frame hid hmeta hmsg).trans h

/-- `h`, after a step that only sends messages with no vote request for another server. -/
theorem of_send (h : m₁.Advances t₁ m₂ t₂) (hid : m₁.id = m.id) (hmeta : m₁.meta_ = m.meta_)
    {new : List ConsensusMessage} (hmsg : t₁.messages = t.messages ++ new)
    (hnew : VoteRequestsFrom m.id new) : m.Advances t m₂ t₂ :=
  (send hid hmeta hmsg hnew).trans h

end Advances

/-- Every result of the operation `op` advances the server it ran on. -/
def Advancing {α : Type} (op : ConsensusModule → Tick → Outcome α) : Prop :=
  ∀ m t a m' t', op m t = .ok (a, m', t') → m.Advances t m' t'

open Dacha.Run

section Core

variable {m m' : ConsensusModule} {t t' : Tick}

@[simp] theorem newElectionTimeout_messages (t : Tick) :
    (newElectionTimeout t).2.messages = t.messages := by
  simp [newElectionTimeout]

@[simp] theorem newFollower_messages (now : Nat) (t : Tick) :
    (newFollower now t).2.messages = t.messages := by
  simp [newFollower]

theorem advanceCommitIndex_advances {index : Nat} (h : m.advanceCommitIndex index t = (m', t')) :
    m.Advances t m' t' := by
  unfold advanceCommitIndex at h
  by_cases hgt : index > m.meta_.commitIndex
  · simp only [hgt, if_true, Prod.mk.injEq] at h
    obtain ⟨rfl, rfl⟩ := h
    refine ⟨rfl, ⟨le_rfl, hgt.le, fun _ => .inr rfl⟩, fun hv => ?_⟩
    split <;> exact hv
  · simp only [hgt, if_false, Prod.mk.injEq] at h
    obtain ⟨rfl, rfl⟩ := h
    refine .frame rfl rfl ?_
    split <;> rfl

theorem updateCommited_advances {index : Nat} {a : Unit}
    (h : m.updateCommited index t = .ok (a, m', t')) : m.Advances t m' t' := by
  unfold updateCommited at h
  split at h
  case isTrue => cases h
  case isFalse =>
    split at h
    case h_1 c _ =>
      split at h
      · simp only [Except.ok.injEq, Prod.mk.injEq] at h
        refine Advances.trans ?_ (advanceCommitIndex_advances h.2)
        exact .frame rfl rfl rfl
      · cases h
        exact .frame rfl rfl rfl
    case h_2 =>
      simp only [Except.ok.injEq, Prod.mk.injEq] at h
      exact advanceCommitIndex_advances h.2

theorem updateLeaseStart_advances {newTime : Nat} {a : Unit}
    (h : m.updateLeaseStart newTime t = .ok (a, m', t')) : m.Advances t m' t' := by
  unfold updateLeaseStart at h
  split at h
  · cases h
    exact .frame rfl rfl rfl
  · cases h

theorem performElection_messages {requestId : Nat} {preVote : Bool}
    (h : m.performElection requestId preVote t = .ok t') :
    ∃ new, t'.messages = t.messages ++ new ∧ VoteRequestsFrom m.id new := by
  unfold performElection at h
  split at h
  case h_1 =>
    dsimp only at h
    split at h
    · cases h
      exact ⟨[], by simp, by simp [VoteRequestsFrom]⟩
    · cases h
      refine ⟨_, rfl, ?_⟩
      cases preVote <;> simp [VoteRequestsFrom]
  case h_2 => cases h

end Core

section Replication

variable {m m' : ConsensusModule} {t t' : Tick}

theorem sendHeartbeats_advances {next : Nat} (h : m.sendHeartbeats t = .ok (next, m', t')) :
    m.Advances t m' t' := by
  unfold sendHeartbeats at h
  split at h
  case h_1 =>
    dsimp only at h
    split at h
    · cases h
      exact .frame rfl rfl rfl
    · cases h
      exact .send rfl rfl rfl (by simp [VoteRequestsFrom])
  case h_2 => cases h

theorem shuffle_messages {α : Type} (xs : List α) (t : Tick) :
    (shuffle xs t).2.messages = t.messages := by
  unfold shuffle
  refine List.foldlRecOn (motive := fun acc : List α × Tick => acc.2.messages = t.messages) _ _ rfl ?_
  intro acc hacc i _
  simpa using hacc

theorem pickTimeoutNowServerId_messages (now : Nat) :
    (m.pickTimeoutNowServerId now t).2.messages = t.messages := by
  unfold pickTimeoutNowServerId
  split
  · split
    · rfl
    · dsimp only
      split
      · rfl
      · exact shuffle_messages _ _
  · rfl

/-- No message of the queue of `replicate_entries` is a vote request. -/
def NoVoteRequests {κ : Type} (queue : List (κ × ConsensusMessage)) : Prop :=
  ∀ e ∈ queue, ∀ req, e.2.body ≠ .RequestVote req

/-- Adding a follower to a queued request keeps what it asks. -/
theorem noVoteRequests_map_to {κ : Type} [DecidableEq κ] {queue : List (κ × ConsensusMessage)}
    (hq : NoVoteRequests queue) (key : κ) (id : Nat) :
    NoVoteRequests (queue.map fun e =>
      if e.1 = key then (e.1, { e.2 with to_ := e.2.to_ ++ [id] }) else e) := by
  intro e he req
  obtain ⟨e₀, he₀, rfl⟩ := List.mem_map.mp he
  split
  · exact hq e₀ he₀ req
  · exact hq e₀ he₀ req

theorem NoVoteRequests.perm {κ : Type} {queue queue' : List (κ × ConsensusMessage)}
    (hq : NoVoteRequests queue) (hperm : queue'.Perm queue) : NoVoteRequests queue' :=
  fun e he => hq e (hperm.mem_iff.mp he)

theorem NoVoteRequests.voteRequestsFrom {κ : Type} {queue : List (κ × ConsensusMessage)}
    (hq : NoVoteRequests queue) {id : Nat} : VoteRequestsFrom id (queue.map (·.2)) := by
  intro msg hmsg req hreq
  obtain ⟨e, he, rfl⟩ := List.mem_map.mp hmsg
  exact absurd hreq (hq e he req)

theorem noVoteRequests_append_appendEntries {κ : Type} {queue : List (κ × ConsensusMessage)}
    (hq : NoVoteRequests queue) (key : κ) (rid : Nat) (to_ : List Nat)
    (req : AppendEntriesRequest) (last seq : Nat) :
    NoVoteRequests (queue ++ [(key, ⟨rid, to_, .AppendEntries req last seq⟩)]) := by
  intro e he r
  rcases List.mem_append.mp he with he | he
  · exact hq e he r
  · simp only [List.mem_singleton] at he
    subst he
    simp

theorem sendAppendEntries_noVoteRequests {now id prev last : Nat} {timeoutNow : Bool}
    {progress : ConsensusFollowerProgress} {acc acc' : ReplicateAcc}
    (h : m.sendAppendEntries now acc id progress prev last timeoutNow = .ok acc')
    (hacc : NoVoteRequests acc.messageMap) :
    NoVoteRequests acc'.messageMap := by
  unfold sendAppendEntries at h
  dsimp only at h
  simp only [pure_bind] at h
  repeat' split at h
  all_goals
    cases h
    first
      | done
      | exact hacc
      | exact noVoteRequests_map_to hacc _ _
      | exact noVoteRequests_append_appendEntries hacc _ _ _ _ _ _

theorem replicateLoop_noVoteRequests {now : Nat} {acc acc' : ReplicateAcc}
    (hacc : NoVoteRequests acc.messageMap) (h : m.replicateLoop now acc = .ok acc') :
    NoVoteRequests acc'.messageMap := by
  refine foldlM_inv (I := fun acc : ReplicateAcc => NoVoteRequests acc.messageMap) _ ?_ acc acc'
    hacc h
  intro acc₁ server _ acc₂ hacc₁ h₁
  unfold replicateServer at h₁
  dsimp only at h₁
  repeat' split at h₁
  all_goals
    first
      | (cases h₁; first | done | exact hacc₁)
      | exact sendAppendEntries_noVoteRequests h₁ hacc₁

theorem foldl_send_messages {κ : Type} (queue : List (κ × ConsensusMessage)) (t : Tick) :
    (queue.foldl (fun t e => t.send e.2) t).messages = t.messages ++ queue.map (·.2) := by
  induction queue generalizing t with
  | nil => simp
  | cons e queue ih => simp [ih]

theorem replicateEntries_advances {next : Nat} (h : m.replicateEntries t = .ok (next, m', t')) :
    m.Advances t m' t' := by
  unfold replicateEntries at h
  dsimp only at h
  split at h
  case h_2 => cases h
  case h_1 state _ =>
    obtain ⟨acc, hloop, h⟩ := bind_eq_ok.mp h
    have hq := replicateLoop_noVoteRequests (by simp [NoVoteRequests]) hloop
    cases h
    refine ⟨rfl, .refl _, fun hv => ?_⟩
    have hsorted := hq.perm (List.perm_insertionSort (fun a b => keyLe a.1 b.1 = true) _)
    have hqueued : VoteRequestsFrom m.id (List.foldl (fun t e => t.send e.2)
        (m.pickTimeoutNowServerId t.time t).2
        (acc.messageMap.insertionSort fun a b => keyLe a.1 b.1 = true)).messages := by
      rw [foldl_send_messages, pickTimeoutNowServerId_messages]
      exact voteRequestsFrom_append.mpr ⟨hv, hsorted.voteRequestsFrom⟩
    split
    · exact hqueued
    · rw [Tick.send_messages]
      exact voteRequestsFrom_append.mpr ⟨hqueued, by simp [VoteRequestsFrom]⟩

end Replication


section Cycle

variable {cyc : Transition}

theorem becomeFollower_advances (hcyc : Advancing cyc) : Advancing (becomeFollower cyc) := by
  intro m t a m' t' h
  unfold becomeFollower at h
  simp only at h
  exact (hcyc _ _ _ _ _ h).of_frame rfl rfl (newFollower_messages _ _)

/-- `observe_term` moves the server forward, to at least the term it observed. -/
theorem observeTerm_ok (hcyc : Advancing cyc) {term : Nat} {m m' : ConsensusModule} {t t' : Tick}
    {a : Unit} (h : observeTerm cyc term m t = .ok (a, m', t')) :
    m.Advances t m' t' ∧ term ≤ m'.meta_.currentTerm := by
  unfold observeTerm at h
  split at h
  case isTrue hgt =>
    have hcycle := becomeFollower_advances hcyc _ _ _ _ _ h
    refine ⟨Advances.trans ?_ hcycle, hcycle.meta_le.term_le⟩
    exact ⟨rfl, ⟨hgt.le, le_rfl, fun heq => absurd heq hgt.ne⟩, fun hv => hv⟩
  case isFalse hle =>
    cases h
    exact ⟨.refl _ _, not_lt.mp hle⟩

theorem observeTerm_advances (hcyc : Advancing cyc) (term : Nat) :
    Advancing (observeTerm cyc term) :=
  fun _ _ _ _ _ h => (observeTerm_ok hcyc h).1

/-- The start of `become_candidate`: a new term, with a vote for itself, when it must. -/
theorem incrementTerm_advances (m : ConsensusModule) (t : Tick) (c : Bool) :
    m.Advances t (if c = true then ({ m with meta_ := { m.meta_ with
      currentTerm := m.meta_.currentTerm + 1, votedFor := m.id } }, t.writeMeta) else (m, t)).1
      (if c = true then ({ m with meta_ := { m.meta_ with
      currentTerm := m.meta_.currentTerm + 1, votedFor := m.id } }, t.writeMeta) else (m, t)).2 := by
  cases c
  · exact .refl _ _
  · exact ⟨rfl, ⟨by simp, le_rfl, by simp⟩, fun hv => hv⟩

theorem becomeCandidate_advances (hcyc : Advancing cyc) (leaderApproval : Option Nat) :
    Advancing (becomeCandidate cyc leaderApproval) := by
  intro m t a m' t' h
  unfold becomeCandidate at h
  split at h
  case isTrue => cases h
  case isFalse =>
    simp only [pure_bind] at h
    split at h
    · obtain ⟨t₁, h₁, h⟩ := bind_eq_ok.mp h
      obtain ⟨new, hmsg, hnew⟩ := performElection_messages h₁
      have hcycle := (hcyc _ _ _ _ _ h).of_send rfl rfl hmsg hnew
      exact (incrementTerm_advances m t _).trans (hcycle.of_frame rfl rfl (by simp))
    · exact (incrementTerm_advances m t _).trans ((hcyc _ _ _ _ _ h).of_frame rfl rfl (by simp))

theorem proposeEntry_advances (hcyc : Advancing cyc) (data : LogEntryData)
    (readIndex : Option ReadIndex) : Advancing (proposeEntry cyc data readIndex) := by
  intro m t a m' t' h
  unfold proposeEntry at h
  split at h
  case h_1 =>
    obtain ⟨rejection, -, h⟩ := bind_eq_ok.mp h
    split at h
    · cases h
      exact .refl _ _
    · dsimp only at h
      split at h
      · cases h
      · obtain ⟨⟨⟨⟩, m₁, t₁⟩, h₁, h⟩ := bind_eq_ok.mp h
        cases h
        exact (hcyc _ _ _ _ _ h₁).of_frame rfl rfl rfl
  case h_2 =>
    cases h
    exact .refl _ _
  case h_3 =>
    cases h
    exact .refl _ _

theorem cycleFollower_advances (hcyc : Advancing cyc) (state : ConsensusFollowerState) :
    Advancing (cycleFollower cyc state) := by
  intro m t a m' t' h
  unfold cycleFollower at h
  dsimp only at h
  split at h
  · simp only [Except.ok.injEq, Prod.mk.injEq] at h
    obtain ⟨-, rfl, rfl⟩ := h
    exact .frame rfl rfl (newFollower_messages _ _)
  · split at h
    · exact becomeCandidate_advances hcyc none _ _ _ _ _ h
    · cases h
      exact .frame rfl rfl rfl

theorem becomeLeaderIfElected_advances (hcyc : Advancing cyc) (voteCount majority start : Nat) :
    Advancing (becomeLeaderIfElected cyc voteCount majority start) := by
  intro m t a m' t' h
  unfold becomeLeaderIfElected at h
  dsimp only at h
  split at h
  · split at h
    · split at h
      case h_1 hnoop =>
        obtain ⟨_, hp, h⟩ := bind_eq_ok.mp h
        cases hp
        have hleader := proposeEntry_advances hcyc _ _ _ _ _ _ _ hnoop
        exact (hleader.trans (hcyc _ _ _ _ _ h)).of_frame rfl rfl rfl
      all_goals cases h
    · obtain ⟨_, hp, h⟩ := bind_eq_ok.mp h
      cases hp
      exact (hcyc _ _ _ _ _ h).of_frame rfl rfl rfl
  · cases h
    exact .refl _ _

theorem cycleCandidate_advances (hcyc : Advancing cyc) (state : ConsensusCandidateState) :
    Advancing (cycleCandidate cyc state) := by
  intro m t a m' t' h
  unfold cycleCandidate at h
  extract_lets elapsed t₁ isMember haveSelfVoted preVoteCount voteCount majority at h
  split at h
  · exact becomeCandidate_advances hcyc none _ _ _ _ _ h
  · split at h
    · exact (becomeLeaderIfElected_advances hcyc _ _ _ _ _ _ _ _ h).of_frame rfl rfl rfl
    · split at h
      · obtain ⟨t₁, h₁, h⟩ := bind_eq_ok.mp h
        obtain ⟨new, hmsg, hnew⟩ := performElection_messages h₁
        have helected := becomeLeaderIfElected_advances hcyc _ _ _ _ _ _ _ _ h
        exact (helected.of_send rfl rfl hmsg hnew).of_frame rfl rfl rfl
      · simp only [Except.ok.injEq, Prod.mk.injEq] at h
        obtain ⟨-, rfl, rfl⟩ := h
        exact .frame rfl rfl rfl

theorem promoteAspiring_advances (hcyc : Advancing cyc) (nextHeartbeat : Nat) :
    Advancing (promoteAspiring cyc nextHeartbeat) := by
  intro m t a m' t' h
  unfold promoteAspiring at h
  split at h
  · split at h
    · split at h
      · split at h
        case h_1 hpropose =>
          cases h
          exact proposeEntry_advances hcyc _ _ _ _ _ _ _ hpropose
        all_goals cases h
      · cases h
        exact .frame rfl rfl rfl
    · cases h
  · cases h
    exact .frame rfl rfl rfl

theorem cycleLeader_advances (hcyc : Advancing cyc) (state : ConsensusLeaderState) :
    Advancing (cycleLeader cyc state) := by
  intro m t a m' t' h
  unfold cycleLeader at h
  split at h
  · cases h
  · obtain ⟨nextCommitIndex, -, h⟩ := bind_eq_ok.mp h
    extract_lets nextLeaseStart afterCommit at h
    have hrest : ∀ m₁ t₁, m.Advances t m₁ t₁ → afterCommit ((), m₁, t₁) = .ok (a, m', t') →
        m.Advances t m' t' := by
      intro m₁ t₁ hcommit h
      obtain ⟨⟨⟨⟩, m₂, t₂⟩, h₂, h⟩ := bind_eq_ok.mp h
      refine hcommit.trans ((updateLeaseStart_advances h₂).trans ?_)
      dsimp only at h
      split at h
      · split at h
        · exact becomeFollower_advances hcyc _ _ _ _ _ h
        · exact becomeCandidate_advances hcyc none _ _ _ _ _ h
      · obtain ⟨⟨heartbeatTime, m₃, t₃⟩, h₃, h⟩ := bind_eq_ok.mp h
        obtain ⟨⟨replicateTime, m₄, t₄⟩, h₄, h⟩ := bind_eq_ok.mp h
        have hheartbeats := (sendHeartbeats_advances h₃).of_frame (by split <;> rfl)
          (by split <;> rfl) rfl
        exact hheartbeats.trans ((replicateEntries_advances h₄).trans
          (promoteAspiring_advances hcyc _ _ _ _ _ _ h))
    split at h
    · obtain ⟨⟨⟨⟩, m₁, t₁⟩, h₁, h⟩ := bind_eq_ok.mp h
      exact hrest m₁ t₁ (updateCommited_advances h₁) h
    · obtain ⟨r, h₁, h⟩ := bind_eq_ok.mp h
      cases h₁
      exact hrest m t (.refl _ _) h

theorem cycleBody_advances (hcyc : Advancing cyc) : Advancing (cycleBody cyc) := by
  intro m t a m' t' h
  unfold cycleBody at h
  split at h
  · split at h
    · cases h
    · cases h
      exact .frame rfl rfl rfl
  · split at h
    · exact cycleFollower_advances hcyc _ _ _ _ _ _ h
    · exact cycleCandidate_advances hcyc _ _ _ _ _ _ h
    · exact cycleLeader_advances hcyc _ _ _ _ _ _ h

/-- Every run of `cycle`, however deep it recurses, advances the server. -/
theorem cycle_advances (fuel : Nat) : Advancing (cycle fuel) := by
  induction fuel with
  | zero =>
    intro m t a m' t' h
    cases h
  | succ fuel ih => exact cycleBody_advances ih

end Cycle

end ConsensusModule

end Dacha.Raft
