import Dacha.Raft.WorldAdvance

/-!
# No server grants two candidates its vote in one term

A server's vote for a candidate leaves it as a `voteResponse` that it holds until its metadata
is persisted (`heldVotes`, then `persist`), and from then on it stays in the network, where the
adversary may deliver it any number of times. The invariant `World.VoteInv` follows every such
packet back to its voter: the voter's metadata still records the vote, or has left its term
(`Metadata.Records`). Since a server's metadata only moves forward (`Metadata.Advances`, with
the vote kept within a term), a second vote of the same term must be for the same candidate.

The invariant needs two facts about the rest of the cluster: every vote request names its sender
as the candidate (`VoteRequestsFrom`, kept by every operation), and the ids of the servers are
positive, since `votedFor = 0` is how the metadata says that no vote was cast.

| model | source |
| --- | --- |
| `World.step`, `World.deliverPacket` | `server_shared.rs`, `run_tick`, `dispatch_messages`, the RPC handlers |
| `requestVote_granted` | `request_vote`, `module.rs:2540-2575` |
| `Node.heldVotes`, `Answers.persist` | `MustPersistMetadata`, `persisted_metadata` |
| `releaseAppends`, `Answers.flush` | `FlushConstraint::poll` |
-/

namespace Dacha.Raft

open ConsensusModule Dacha.Run

/-- The responses a server holds until its metadata or its log reach the disk. -/
def Node.outbox (n : Node) : List Packet := n.heldVotes ++ n.heldAppends.map (·.2.2)

/-- `p` is server `voter`'s vote for `candidate` in `term`. -/
def Packet.GrantsVote (p : Packet) (voter candidate term : Nat) : Prop :=
  ∃ rid resp, p = .voteResponse voter candidate rid false resp ∧ resp.voteGranted = true ∧
    resp.term = term

/-- `p` asks a server to vote for `req` on behalf of `src`. -/
def Packet.AsksVote (p : Packet) (src : Nat) (req : RequestVoteRequest) : Prop :=
  ∃ dst rid, p = .request src dst rid (.RequestVote req)

namespace Packet

theorem asksVote_withoutResponse {p : Packet} {src : Nat} {req : RequestVoteRequest} :
    p.withoutResponse.AsksVote src req ↔ p.AsksVote src req := by
  cases p <;> simp [withoutResponse, AsksVote]

theorem grantsVote_withoutResponse {p : Packet} {v c T : Nat} :
    p.withoutResponse.GrantsVote v c T ↔ p.GrantsVote v c T := by
  cases p <;> simp [withoutResponse, GrantsVote]

end Packet

/-- The only vote requests a server dispatches are those of its messages, from itself; and it
dispatches no vote. -/
theorem dispatch_asksVote {src : Nat} {log : MemoryLog} {msg : ConsensusMessage} {p : Packet}
    (hp : p ∈ dispatch src log msg) {s : Nat} {req : RequestVoteRequest} (hask : p.AsksVote s req) :
    s = src ∧ msg.body = .RequestVote req := by
  obtain ⟨dst, -, rfl⟩ := List.mem_map.mp hp
  obtain ⟨d, rid, hreq⟩ := hask
  split at hreq
  case h_2 hbody =>
    cases hreq
    exact ⟨rfl, hbody⟩
  case h_4 => split at hreq <;> cases hreq
  all_goals cases hreq

theorem dispatch_not_grantsVote {src : Nat} {log : MemoryLog} {msg : ConsensusMessage}
    {p : Packet} (hp : p ∈ dispatch src log msg) (v c T : Nat) : ¬ p.GrantsVote v c T := by
  obtain ⟨dst, -, rfl⟩ := List.mem_map.mp hp
  rintro ⟨rid, resp, hvote, -⟩
  split at hvote
  case h_4 => split at hvote <;> cases hvote
  all_goals cases hvote

/-- What a flush releases comes from the held responses, with its answer dropped when the log no
longer holds the entries it vouched for; what it keeps was held. -/
theorem releaseAppends_mem (log : MemoryLog) (held : List (Nat × LogPosition × Packet)) :
    (∀ p ∈ (releaseAppends log held).1, ∃ x ∈ held, p = x.2.2 ∨ p = x.2.2.withoutResponse) ∧
      (releaseAppends log held).2 ⊆ held := by
  induction held with
  | nil => simp [releaseAppends]
  | cons x held ih =>
    obtain ⟨hreleased, hkept⟩ := ih
    have hcons : ∀ p, p ∈ (releaseAppends log held).1 →
        ∃ y ∈ x :: held, p = y.2.2 ∨ p = y.2.2.withoutResponse := by
      intro p hp
      obtain ⟨y, hy, hpy⟩ := hreleased p hp
      exact ⟨y, List.mem_cons_of_mem _ hy, hpy⟩
    obtain ⟨seq, pos, q⟩ := x
    simp only [releaseAppends]
    split
    · refine ⟨?_, fun y hy => List.mem_cons_of_mem _ (hkept hy)⟩
      intro p hp
      rcases List.mem_cons.mp hp with rfl | hp
      · exact ⟨(seq, pos, p), List.mem_cons_self, .inl rfl⟩
      · exact hcons p hp
    · exact ⟨hcons, List.cons_subset_cons _ hkept⟩
    · refine ⟨?_, fun y hy => List.mem_cons_of_mem _ (hkept hy)⟩
      intro p hp
      rcases List.mem_cons.mp hp with rfl | hp
      · exact ⟨(seq, pos, q), List.mem_cons_self, .inr rfl⟩
      · exact hcons p hp

namespace World

/-- A packet the cluster has sent, or that a server holds ready to send. -/
def Sent (w : World) (p : Packet) : Prop :=
  p ∈ w.network ∨ ∃ id n, w.nodes.lookup id = some n ∧ p ∈ n.outbox

variable {w w' : World}

end World

/-- The metadata still shows a vote for `candidate` in `term`, or has left that term. -/
def Metadata.Records (meta_ : Metadata) (candidate term : Nat) : Prop :=
  term < meta_.currentTerm ∨ (term = meta_.currentTerm ∧ meta_.votedFor = candidate)

namespace Metadata.Records

variable {a b : Metadata} {c T : Nat}

theorem advance (h : a.Records c T) (hadv : a.Advances b) (hc : 0 < c) : b.Records c T := by
  rcases h with hlt | ⟨rfl, hvote⟩
  · exact .inl (lt_of_lt_of_le hlt hadv.term_le)
  · rcases Nat.lt_or_eq_of_le hadv.term_le with hlt | heq
    · exact .inl hlt
    · exact .inr ⟨heq, (hadv.votedFor_eq heq (hvote ▸ hc)).trans hvote⟩

theorem votedFor_eq (h : a.Records c T) (hadv : a.Advances b) (hc : 0 < c)
    (hterm : b.currentTerm = T) : b.votedFor = c := by
  rcases h with hlt | ⟨rfl, hvote⟩
  · have hle := hadv.term_le
    omega
  · exact (hadv.votedFor_eq hterm.symm (hvote ▸ hc)).trans hvote

end Metadata.Records

/-- What every reachable world keeps about votes: each server is stored under its own id, which
is positive; every vote request asks for its sender's election; every vote granted is still
recorded by its voter; and no server granted two candidates its vote in one term. -/
structure World.VoteInv (w : World) : Prop where
  ids : ∀ id n, w.nodes.lookup id = some n → n.module.id = id ∧ 0 < id
  requests : ∀ p src req, w.Sent p → p.AsksVote src req → req.candidateId = src ∧ 0 < src
  grants : ∀ p v c T, w.Sent p → p.GrantsVote v c T →
    0 < c ∧ ∃ n, w.nodes.lookup v = some n ∧ n.module.meta_.Records c T
  unique : ∀ p q v c₁ c₂ T, w.Sent p → w.Sent q → p.GrantsVote v c₁ T → q.GrantsVote v c₂ T →
    c₁ = c₂

/-- An answer of an operation on server `id` that ended in the module `m`: it asks for no vote,
and a vote among the answers is one that `m` casts in its current term. -/
def FreshFor (id : Nat) (m : ConsensusModule) (p : Packet) : Prop :=
  (∀ src req, ¬ p.AsksVote src req) ∧
    ∀ v c T, p.GrantsVote v c T → v = id ∧ 0 < c ∧ m.meta_.currentTerm = T ∧ m.meta_.votedFor = c

/-- What `respond` may make of the node `n'` after an operation on server `id` that ended in
`m`: keep its module, and hold or answer only with responses it held (perhaps with their answer
dropped) or packets fresh from `m`. -/
def Answers (id : Nat) (m : ConsensusModule) (n' : Node) (r : Node × List Packet) : Prop :=
  r.1.module = n'.module ∧ ∀ p, p ∈ r.2 ∨ p ∈ r.1.outbox →
    (∃ q ∈ n'.outbox, p = q ∨ p = q.withoutResponse) ∨ FreshFor id m p

namespace World

variable {w w' : World}

/-- Where a packet of the world after an operation comes from: the world before (perhaps with
its answer dropped), the operation's tick, or the operation's answers. -/
theorem sent_operate {id : Nat} {n'' : Node} {sent replies : List Packet} {m : ConsensusModule}
    {outbox : List Packet} (hn'' : ∀ p ∈ n''.outbox,
      (∃ q ∈ outbox, p = q ∨ p = q.withoutResponse) ∨ FreshFor id m p)
    (hreplies : ∀ p ∈ replies, (∃ q ∈ outbox, p = q ∨ p = q.withoutResponse) ∨ FreshFor id m p)
    (houtbox : ∀ q ∈ outbox, w.Sent q) {p : Packet}
    (hp : World.Sent ⟨w.nodes.insert id n'', w.network ++ sent ++ replies⟩ p) :
    (∃ q, w.Sent q ∧ (p = q ∨ p = q.withoutResponse)) ∨ p ∈ sent ∨ FreshFor id m p := by
  have hmoved : ∀ p, (∃ q ∈ outbox, p = q ∨ p = q.withoutResponse) ∨ FreshFor id m p →
      (∃ q, w.Sent q ∧ (p = q ∨ p = q.withoutResponse)) ∨ p ∈ sent ∨ FreshFor id m p := by
    rintro p (⟨q, hq, hpq⟩ | hfresh)
    · exact .inl ⟨q, houtbox q hq, hpq⟩
    · exact .inr (.inr hfresh)
  rcases hp with hnet | ⟨k, nk, hk, hp⟩
  · simp only [List.mem_append] at hnet
    rcases hnet with (hnet | hsent) | hreply
    · exact .inl ⟨p, .inl hnet, .inl rfl⟩
    · exact .inr (.inl hsent)
    · exact hmoved p (hreplies p hreply)
  · rcases lookup_insert_cases hk with ⟨rfl, rfl⟩ | ⟨-, hk⟩
    · exact hmoved p (hn'' p hp)
    · exact .inl ⟨p, .inr ⟨k, nk, hk, hp⟩, .inl rfl⟩

/-- The invariant rule for one operation on server `id`: if the operation moves the server
forward and its answers are held responses moved on or fresh, the world keeps `VoteInv`. -/
theorem operate_voteInv {α : Type} {id time : Nat} {entropy : List Nat}
    {op : Node → Tick → Outcome α} {respond : α → Node → Node × List Packet}
    (hw : w.VoteInv) (h : w.operate id time entropy op respond = .ok w')
    (hstep : ∀ n a m t, w.nodes.lookup id = some n → op n { time, entropy } = .ok (a, m, t) →
      n.module.Advances { time, entropy } m t ∧ ∀ n', Answers id m n' (respond a n')) :
    w'.VoteInv := by
  rcases operate_ok h with ⟨-, rfl⟩ | ⟨n, a, m, t, n', sent, hn, hop, habsorb, hw'⟩
  · exact hw
  obtain ⟨hadv, hrespond⟩ := hstep n a m t hn hop
  obtain ⟨hmodule, hanswers⟩ := hrespond n'
  obtain ⟨hmodule', hvotes', happends', log, rfl⟩ := absorb_ok habsorb
  obtain ⟨hidn, hidpos⟩ := hw.ids id n hn
  have hm : (respond a n').1.module = m := hmodule.trans hmodule'
  have hmid : m.id = id := hadv.id_eq.trans hidn
  have houtbox : ∀ q ∈ n'.outbox, w.Sent q := by
    intro q hq
    refine .inr ⟨id, n, hn, ?_⟩
    simpa [Node.outbox, hvotes', happends'] using hq
  have horigin : ∀ p, w'.Sent p → (∃ q, w.Sent q ∧ (p = q ∨ p = q.withoutResponse)) ∨
      p ∈ t.messages.flatMap (dispatch id log) ∨ FreshFor id m p := by
    intro p hp
    subst hw'
    exact sent_operate (fun p hp => hanswers p (.inr hp)) (fun p hp => hanswers p (.inl hp))
      houtbox hp
  have hticks : VoteRequestsFrom id t.messages := by
    have hv := hadv.votes (by simp [VoteRequestsFrom])
    rwa [hidn] at hv
  -- a vote of `w'` is a vote of `w`, or one that `m` casts
  have hkind : ∀ p v c T, w'.Sent p → p.GrantsVote v c T → (∃ q, w.Sent q ∧ q.GrantsVote v c T) ∨
      (v = id ∧ 0 < c ∧ m.meta_.currentTerm = T ∧ m.meta_.votedFor = c) := by
    intro p v c T hp hgrant
    rcases horigin p hp with ⟨q, hq, rfl | rfl⟩ | hsent | hfresh
    · exact .inl ⟨p, hq, hgrant⟩
    · exact .inl ⟨q, hq, Packet.grantsVote_withoutResponse.mp hgrant⟩
    · obtain ⟨msg, -, hpmsg⟩ := List.mem_flatMap.mp hsent
      exact absurd hgrant (dispatch_not_grantsVote hpmsg v c T)
    · exact .inr (hfresh.2 v c T hgrant)
  refine ⟨?_, ?_, ?_, ?_⟩
  · intro k nk hk
    subst hw'
    rcases lookup_insert_cases hk with ⟨rfl, rfl⟩ | ⟨-, hk⟩
    · exact ⟨hm ▸ hmid, hidpos⟩
    · exact hw.ids k nk hk
  · intro p src req hp hask
    rcases horigin p hp with ⟨q, hq, rfl | rfl⟩ | hsent | hfresh
    · exact hw.requests p src req hq hask
    · exact hw.requests q src req hq (Packet.asksVote_withoutResponse.mp hask)
    · obtain ⟨msg, hmsg, hpmsg⟩ := List.mem_flatMap.mp hsent
      obtain ⟨rfl, hbody⟩ := dispatch_asksVote hpmsg hask
      exact ⟨hticks msg hmsg req hbody, hidpos⟩
    · exact absurd hask (hfresh.1 src req)
  · intro p v c T hp hgrant
    subst hw'
    rcases hkind p v c T hp hgrant with ⟨q, hq, hgrant⟩ | ⟨rfl, hc, hterm, hvote⟩
    · -- an old vote stays recorded, by the server that moved too
      obtain ⟨hc, nv, hv, hrec⟩ := hw.grants q v c T hq hgrant
      refine ⟨hc, ?_⟩
      by_cases hvid : v = id
      · subst hvid
        rw [hn] at hv
        cases hv
        exact ⟨_, AList.lookup_insert _, hm ▸ hrec.advance hadv.meta_le hc⟩
      · exact ⟨nv, by rw [AList.lookup_insert_ne hvid]; exact hv, hrec⟩
    · exact ⟨hc, _, AList.lookup_insert _, .inr ⟨by rw [hm, hterm], by rw [hm, hvote]⟩⟩
  · intro p q v c₁ c₂ T hp hq hg₁ hg₂
    rcases hkind p v c₁ T hp hg₁ with ⟨p₀, hp₀, hg₁⟩ | ⟨rfl, hc₁, hterm₁, hvote₁⟩ <;>
      rcases hkind q v c₂ T hq hg₂ with ⟨q₀, hq₀, hg₂⟩ | ⟨hv, hc₂, hterm₂, hvote₂⟩
    · exact hw.unique p₀ q₀ v c₁ c₂ T hp₀ hq₀ hg₁ hg₂
    · -- an old vote against the one `m` casts: the server recorded the old one
      subst hv
      obtain ⟨hc₁, nv, hv, hrec⟩ := hw.grants p₀ v c₁ T hp₀ hg₁
      rw [hn] at hv
      cases hv
      exact (hrec.votedFor_eq hadv.meta_le hc₁ hterm₂).symm.trans hvote₂
    · obtain ⟨hc₂, nv, hv, hrec⟩ := hw.grants q₀ _ c₂ T hq₀ hg₂
      rw [hn] at hv
      cases hv
      exact hvote₁.symm.trans (hrec.votedFor_eq hadv.meta_le hc₂ hterm₁)
    · exact hvote₁.symm.trans hvote₂

end World

namespace FreshFor

variable {id : Nat} {m : ConsensusModule} {p : Packet}

theorem of_response (hask : ∀ src req, ¬ p.AsksVote src req) (hgrant : ∀ v c T, ¬ p.GrantsVote v c T) :
    FreshFor id m p :=
  ⟨hask, fun v c T h => absurd h (hgrant v c T)⟩

end FreshFor

namespace Answers

variable {id : Nat} {m : ConsensusModule} {n' : Node}

theorem of_mem {r : Node × List Packet} (hmodule : r.1.module = n'.module)
    (hmem : ∀ p, p ∈ r.2 ∨ p ∈ r.1.outbox → p ∈ n'.outbox ∨ FreshFor id m p) :
    Answers id m n' r := by
  refine ⟨hmodule, fun p hp => ?_⟩
  rcases hmem p hp with hp | hfresh
  · exact .inl ⟨p, hp, .inl rfl⟩
  · exact .inr hfresh

theorem keep : Answers id m n' (n', []) :=
  of_mem rfl fun p hp => .inl (by simpa using hp)

theorem reply {replies : List Packet} (hfresh : ∀ p ∈ replies, FreshFor id m p) :
    Answers id m n' (n', replies) := by
  refine of_mem rfl ?_
  rintro p (hp | hp)
  · exact .inr (hfresh p hp)
  · exact .inl hp

theorem holdVote {q : Packet} (hfresh : FreshFor id m q) :
    Answers id m n' ({ n' with heldVotes := n'.heldVotes ++ [q] }, []) := by
  refine of_mem rfl ?_
  rintro p (hp | hp)
  · simp at hp
  · simp only [Node.outbox, List.mem_append, List.mem_singleton] at hp
    rcases hp with (hp | rfl) | hp
    · exact .inl (by simp [Node.outbox, hp])
    · exact .inr hfresh
    · exact .inl (by simp [Node.outbox, hp])

theorem holdAppend {seq : Nat} {pos : LogPosition} {q : Packet} (hfresh : FreshFor id m q) :
    Answers id m n' ({ n' with heldAppends := n'.heldAppends ++ [(seq, pos, q)] }, []) := by
  refine of_mem rfl ?_
  rintro p (hp | hp)
  · simp at hp
  · simp only [Node.outbox, List.map_append, List.map_cons, List.map_nil, List.mem_append,
      List.mem_singleton] at hp
    rcases hp with hp | hp | rfl
    · exact .inl (by simp [Node.outbox, hp])
    · exact .inl (by simp [Node.outbox, hp])
    · exact .inr hfresh

theorem persist : Answers id m n' ({ n' with heldVotes := [] }, n'.heldVotes) := by
  refine of_mem rfl ?_
  rintro p (hp | hp)
  · exact .inl (by simp [Node.outbox, hp])
  · simp only [Node.outbox, List.nil_append] at hp
    exact .inl (List.mem_append_right _ hp)

theorem flush : Answers id m n'
    ({ n' with heldAppends := (releaseAppends n'.log n'.heldAppends).2 },
      (releaseAppends n'.log n'.heldAppends).1) := by
  obtain ⟨hreleased, hkept⟩ := releaseAppends_mem n'.log n'.heldAppends
  refine ⟨rfl, ?_⟩
  rintro p (hp | hp)
  · obtain ⟨x, hx, hpx⟩ := hreleased p hp
    exact .inl ⟨x.2.2, by simp only [Node.outbox, List.mem_append, List.mem_map]; exact .inr ⟨x, hx, rfl⟩, hpx⟩
  · simp only [Node.outbox, List.mem_append, List.mem_map] at hp
    rcases hp with hp | ⟨x, hx, rfl⟩
    · exact .inl ⟨p, by simp [Node.outbox, hp], .inl rfl⟩
    · exact .inl ⟨x.2.2, by simp only [Node.outbox, List.mem_append, List.mem_map]; exact .inr ⟨x, hkept hx, rfl⟩, .inl rfl⟩

end Answers

namespace World

variable {w w' : World} {cyc : Transition}

/-- Delivering a packet of the network keeps `VoteInv`: a vote a server grants is one its
metadata records, for the sender of a request that asks for its own election. -/
theorem deliverPacket_voteInv (hcyc : Advancing cyc) (hw : w.VoteInv) {time : Nat}
    {entropy : List Nat} {p : Packet} (hp : p ∈ w.network)
    (h : w.deliverPacket cyc time entropy p = .ok w') : w'.VoteInv := by
  unfold deliverPacket at h
  split at h
  next src dst rid req =>
    refine operate_voteInv hw h fun n a m t _ hop => ?_
    cases hop
    refine ⟨.refl _ _, fun n' => .reply ?_⟩
    simp only [List.mem_singleton, forall_eq]
    exact .of_response (by simp [Packet.AsksVote]) (by simp [Packet.GrantsVote])
  next src dst rid req =>
    refine operate_voteInv hw h fun n a m t _ hop => ⟨requestVote_advances hcyc _ _ _ _ _ _ hop,
      fun n' => .holdVote ⟨by simp [Packet.AsksVote], ?_⟩⟩
    rintro v c T ⟨rid', resp, heq, hgranted, hterm⟩
    simp only [Packet.voteResponse.injEq] at heq
    obtain ⟨rfl, rfl, rfl, -, rfl⟩ := heq
    obtain ⟨hcand, hsrc⟩ := hw.requests _ src req (.inl hp) ⟨dst, rid, rfl⟩
    obtain ⟨hterm', hvote⟩ := requestVote_granted hcyc hop hgranted
    exact ⟨rfl, hsrc, hterm'.trans hterm, hvote.trans hcand⟩
  · refine operate_voteInv hw h fun n a m t _ hop => ⟨heartbeat_advances hcyc _ _ _ _ _ _ hop,
      fun n' => .reply ?_⟩
    simp only [List.mem_singleton, forall_eq]
    exact .of_response (by simp [Packet.AsksVote]) (by simp [Packet.GrantsVote])
  next src dst rid req =>
    refine operate_voteInv hw h fun n a m t _ hop => ⟨appendEntries_advances hcyc _ _ _ _ _ _ hop,
      fun n' => ?_⟩
    have hfresh : ∀ s d rid r, FreshFor dst m (.appendResponse s d rid r) := fun _ _ _ _ =>
      .of_response (by simp [Packet.AsksVote]) (by simp [Packet.GrantsVote])
    split
    · split
      · exact .holdAppend (hfresh _ _ _ _)
      · exact .reply (by simpa using hfresh _ _ _ _)
    · exact .reply (by simpa using hfresh _ _ _ _)
  · refine operate_voteInv hw h fun n a m t _ hop =>
      ⟨installSnapshot_advances hcyc _ _ _ _ _ _ hop, fun n' => .reply ?_⟩
    simp only [List.mem_singleton, forall_eq]
    exact .of_response (by simp [Packet.AsksVote]) (by simp [Packet.GrantsVote])
  · exact operate_voteInv hw h fun n a m t _ hop =>
      ⟨requestVoteCallback_advances hcyc _ _ _ _ _ _ _ _ _ hop, fun _ => .keep⟩
  · exact operate_voteInv hw h fun n a m t _ hop =>
      ⟨appendEntriesCallback_advances hcyc _ _ _ _ _ _ _ _ hop, fun _ => .keep⟩
  · exact operate_voteInv hw h fun n a m t _ hop =>
      ⟨appendEntriesNoresponse_advances hcyc _ _ _ _ _ _ _ hop, fun _ => .keep⟩
  · exact operate_voteInv hw h fun n a m t _ hop =>
      ⟨heartbeatCallback_advances hcyc _ _ _ _ _ _ _ _ hop, fun _ => .keep⟩
  · exact operate_voteInv hw h fun n a m t _ hop =>
      ⟨installSnapshotCallback_advances hcyc _ _ _ _ _ _ _ _ _ hop, fun _ => .keep⟩
  · exact operate_voteInv hw h fun n a m t _ hop =>
      ⟨installSnapshotNoresponse_advances hcyc _ _ _ _ _ _ _ hop, fun _ => .keep⟩

theorem step_voteInv (hcyc : Advancing cyc) (hw : w.VoteInv) {e : Event}
    (h : w.step cyc e = .ok w') : w'.VoteInv := by
  unfold step at h
  split at h
  · exact operate_voteInv hw h fun n a m t _ hop => ⟨hcyc _ _ _ _ _ hop, fun _ => .keep⟩
  · split at h
    next p hk => exact deliverPacket_voteInv hcyc hw (List.mem_of_getElem? hk) h
    · cases h
      exact hw
  · exact operate_voteInv hw h fun n a m t _ hop =>
      ⟨persistedMetadata_advances hcyc _ _ _ _ _ _ hop, fun _ => .persist⟩
  · exact operate_voteInv hw h fun n a m t _ hop =>
      ⟨logFlushed_advances hcyc _ _ _ _ _ _ hop, fun _ => .flush⟩
  · exact operate_voteInv hw h fun n a m t _ hop =>
      ⟨proposeEntry_advances hcyc _ _ _ _ _ _ _ hop, fun _ => .keep⟩
  · exact operate_voteInv hw h fun n a m t _ hop =>
      ⟨drain_advances hcyc _ _ _ _ _ hop, fun _ => .keep⟩

/-- Every run keeps `VoteInv`. -/
theorem run_voteInv (fuel : Nat) {es : List Event} (hw : w.VoteInv)
    (h : w.run (cycle fuel) es = .ok w') : w'.VoteInv := by
  rw [run_eq_foldlM] at h
  refine foldlM_inv es ?_ w w' hw h
  intro w₁ e _ w₂ hw₁ hstep
  exact step_voteInv (cycle_advances fuel) hw₁ hstep

end World

theorem ConsensusModule.new_id {id time r : Nat} {meta_ : Metadata}
    {configSnapshot : ConfigurationSnapshot} {log : MemoryLog} {m : ConsensusModule}
    (h : ConsensusModule.new id meta_ configSnapshot log time r = .ok m) : m.id = id := by
  unfold ConsensusModule.new at h
  obtain ⟨logMeta, -, h⟩ := bind_eq_ok.mp h
  extract_lets afterTerm at h
  have hafter : ∀ v, afterTerm v = .ok m → m.id = id := by
    intro v hv
    dsimp -zeta only [afterTerm] at hv
    extract_lets meta_' afterCheck at hv
    split at hv
    · obtain ⟨_, hthrow, -⟩ := bind_eq_ok.mp hv
      cases hthrow
    · dsimp -zeta only [afterCheck] at hv
      obtain ⟨config, -, hv⟩ := bind_eq_ok.mp hv
      cases hv
      rfl
  split at h
  · obtain ⟨v, -, h⟩ := bind_eq_ok.mp h
    exact hafter v h
  · obtain ⟨_, hthrow, -⟩ := bind_eq_ok.mp h
    cases hthrow

namespace World

variable {w : World}

/-- The servers start under their own ids with nothing sent and nothing held, so the start of a
cluster of positive ids has `VoteInv`. -/
theorem init_voteInv {ids : List Nat} {snapshot : ConfigurationSnapshot} (hids : 0 ∉ ids)
    (h : init ids snapshot = .ok w) : w.VoteInv := by
  unfold init at h
  obtain ⟨nodes, hnodes, h⟩ := bind_eq_ok.mp h
  cases h
  have hnode : ∀ k n, nodes.lookup k = some n → n.module.id = k ∧ 0 < k ∧ n.outbox = [] := by
    refine foldlM_inv
      (I := fun nodes : AList (fun _ : Nat => Node) =>
        ∀ k n, nodes.lookup k = some n → n.module.id = k ∧ 0 < k ∧ n.outbox = [])
      ids ?_ ∅ nodes (by simp) hnodes
    intro nodes₁ i hi nodes₂ hnodes₁ hstep
    obtain ⟨m, hm, hstep⟩ := bind_eq_ok.mp hstep
    cases hstep
    intro k n hk
    rcases lookup_insert_cases hk with ⟨rfl, rfl⟩ | ⟨-, hk⟩
    · exact ⟨ConsensusModule.new_id hm, Nat.pos_of_ne_zero fun h0 => hids (h0 ▸ hi), rfl⟩
    · exact hnodes₁ k n hk
  have hsent : ∀ p, ¬ World.Sent ⟨nodes, []⟩ p := by
    rintro p (hp | ⟨k, n, hk, hp⟩)
    · simp at hp
    · rw [(hnode k n hk).2.2] at hp
      simp at hp
  refine ⟨fun k n hk => ⟨(hnode k n hk).1, (hnode k n hk).2.1⟩, ?_, ?_, ?_⟩
  · exact fun p _ _ hp => absurd hp (hsent p)
  · exact fun p _ _ _ hp => absurd hp (hsent p)
  · exact fun p _ _ _ _ _ hp => absurd hp (hsent p)

/-- Over every run of a cluster of positive server ids, whatever the adversary delivers, drops,
duplicates or reorders, and whenever metadata and logs reach the disk, no server grants two
candidates its vote in one term: every two granted votes of one server in one term that were
sent or are held ready to send are for the same candidate. -/
theorem simulate_vote_unique (fuel : Nat) {ids : List Nat} {snapshot : ConfigurationSnapshot}
    {es : List Event} (hids : 0 ∉ ids) (h : simulate (cycle fuel) ids snapshot es = .ok w)
    {p q : Packet} {v c₁ c₂ T : Nat} (hp : w.Sent p) (hq : w.Sent q) (h₁ : p.GrantsVote v c₁ T)
    (h₂ : q.GrantsVote v c₂ T) : c₁ = c₂ := by
  obtain ⟨w₀, h₀, hrun⟩ := bind_eq_ok.mp h
  exact (run_voteInv fuel (init_voteInv hids h₀) hrun).unique p q v c₁ c₂ T hp hq h₁ h₂

end World

/-- Server 2's vote for server 1 in term 1, as `firstVoteRun` leaves it in the network. -/
def firstVote : Packet := .voteResponse 2 1 1 false ⟨1, true, none⟩

theorem simulate_vote_unique_firstVote :
    ∃ w, World.simulate (cycle 20) [1, 2, 3] trioSnapshot firstVoteRun = .ok w ∧
      w.Sent firstVote ∧ firstVote.GrantsVote 2 1 1 ∧ (1 : Nat) = 1 := by
  have hrun : ((World.simulate (cycle 20) [1, 2, 3] trioSnapshot firstVoteRun).toOption.any
      fun w => w.network.contains firstVote) = true := by
    decide +kernel
  obtain ⟨w, hw, hvote⟩ := exists_ok_of_any hrun
  have hsent : w.Sent firstVote := .inl (List.contains_iff_mem.mp hvote)
  have hgrant : firstVote.GrantsVote 2 1 1 := ⟨1, _, rfl, rfl, rfl⟩
  exact ⟨w, hw, hsent, hgrant,
    World.simulate_vote_unique 20 (by decide) hw hsent hsent hgrant hgrant⟩

end Dacha.Raft
