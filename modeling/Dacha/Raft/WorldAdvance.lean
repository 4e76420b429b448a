import Dacha.Raft.AdvanceHandlers
import Dacha.Raft.Safety

/-!
# Every run of the cluster moves every server forward

A `World` steps by one operation on one server (`World.operate`), whose answers never touch that
server's consensus module. So each event moves the world along `World.Advances` as far as the
operation moves the server (`step_advances`), and by the run rule of `Dacha.Run` so does
every run, whatever the adversary chooses (`run_advances`).
-/

namespace Dacha.Raft

open ConsensusModule Dacha.Run

namespace World

/-- Every server of `w` is still in `w'`, with its metadata moved forward. -/
def Advances (w w' : World) : Prop :=
  ∀ id n, w.nodes.lookup id = some n →
    ∃ n', w'.nodes.lookup id = some n' ∧ n.module.meta_.Advances n'.module.meta_

theorem Advances.refl (w : World) : w.Advances w :=
  fun _ n hn => ⟨n, hn, .refl _⟩

theorem Advances.trans {w₁ w₂ w₃ : World} (h₁₂ : w₁.Advances w₂) (h₂₃ : w₂.Advances w₃) :
    w₁.Advances w₃ := by
  intro id n₁ hn₁
  obtain ⟨n₂, hn₂, hadv₁₂⟩ := h₁₂ id n₁ hn₁
  obtain ⟨n₃, hn₃, hadv₂₃⟩ := h₂₃ id n₂ hn₂
  exact ⟨n₃, hn₃, hadv₁₂.trans hadv₂₃⟩

instance : IsPreorder World Advances where
  refl := Advances.refl
  trans _ _ _ := Advances.trans

theorem absorb_ok {n n' : Node} {id : Nat} {m : ConsensusModule} {t : Tick} {sent : List Packet}
    (h : n.absorb id m t = .ok (n', sent)) :
    n'.module = m ∧ n'.heldVotes = n.heldVotes ∧ n'.heldAppends = n.heldAppends ∧
      ∃ log, sent = t.messages.flatMap (dispatch id log) := by
  unfold Node.absorb at h
  obtain ⟨log, -, h⟩ := bind_eq_ok.mp h
  cases h
  exact ⟨rfl, rfl, rfl, log, rfl⟩

variable {w w' : World} {cyc : Transition}

/-- What one operation on server `id` does to the world: nothing if there is no such server, and
otherwise it replaces the server by the one that absorbed the operation's tick and answered, and
sends the tick's packets and the answers. -/
theorem operate_ok {α : Type} {id time : Nat} {entropy : List Nat}
    {op : Node → Tick → Outcome α} {respond : α → Node → Node × List Packet}
    (h : w.operate id time entropy op respond = .ok w') :
    (w.nodes.lookup id = none ∧ w' = w) ∨
      ∃ n a m t n' sent, w.nodes.lookup id = some n ∧ op n { time, entropy } = .ok (a, m, t) ∧
        n.absorb id m t = .ok (n', sent) ∧
        w' = ⟨w.nodes.insert id (respond a n').1, w.network ++ sent ++ (respond a n').2⟩ := by
  unfold operate at h
  split at h
  case h_1 hn =>
    cases h
    exact .inl ⟨hn, rfl⟩
  case h_2 n hn =>
    obtain ⟨⟨a, m, t⟩, hop, h⟩ := bind_eq_ok.mp h
    obtain ⟨⟨n', sent⟩, habsorb, h⟩ := bind_eq_ok.mp h
    cases h
    exact .inr ⟨n, a, m, t, n', sent, hn, hop, habsorb, rfl⟩

theorem lookup_insert_cases {nodes : AList fun _ : Nat => Node} {id k : Nat} {n nk : Node}
    (h : (nodes.insert id n).lookup k = some nk) :
    (k = id ∧ nk = n) ∨ (k ≠ id ∧ nodes.lookup k = some nk) := by
  by_cases hk : k = id
  · subst hk
    rw [AList.lookup_insert] at h
    exact .inl ⟨rfl, (Option.some.inj h).symm⟩
  · rw [AList.lookup_insert_ne hk] at h
    exact .inr ⟨hk, h⟩

/-- An operation on one server, whose answers leave its consensus module alone, moves the
cluster forward as far as the operation moves the server. -/
theorem operate_advances {α : Type} {id time : Nat} {entropy : List Nat}
    {op : Node → Tick → Outcome α} {respond : α → Node → Node × List Packet}
    (hop : ∀ n t a m t', op n t = .ok (a, m, t') → n.module.meta_.Advances m.meta_)
    (hrespond : ∀ a n, (respond a n).1.module = n.module)
    (h : w.operate id time entropy op respond = .ok w') : w.Advances w' := by
  rcases operate_ok h with ⟨-, rfl⟩ | ⟨n, a, m, t, n', sent, hn, hop', habsorb, rfl⟩
  · exact .refl _
  intro k nk hk
  by_cases hkid : k = id
  · subst hkid
    rw [hn] at hk
    cases hk
    refine ⟨_, AList.lookup_insert _, ?_⟩
    rw [hrespond, (absorb_ok habsorb).1]
    exact hop _ _ _ _ _ hop'
  · exact ⟨nk, by rw [AList.lookup_insert_ne hkid]; exact hk, .refl _⟩

theorem deliverPacket_advances (hcyc : Advancing cyc) {time : Nat} {entropy : List Nat}
    {p : Packet} (h : w.deliverPacket cyc time entropy p = .ok w') : w.Advances w' := by
  unfold deliverPacket at h
  split at h
  · refine operate_advances ?_ (fun _ _ => rfl) h
    intro n t a m t' hop
    cases hop
    exact .refl _
  · exact operate_advances (fun _ _ _ _ _ hop => (requestVote_advances hcyc _ _ _ _ _ _ hop).meta_le)
      (fun _ _ => rfl) h
  · exact operate_advances (fun _ _ _ _ _ hop => (heartbeat_advances hcyc _ _ _ _ _ _ hop).meta_le)
      (fun _ _ => rfl) h
  · refine operate_advances
      (fun _ _ _ _ _ hop => (appendEntries_advances hcyc _ _ _ _ _ _ hop).meta_le) ?_ h
    intro r n
    split
    · split <;> rfl
    · rfl
  · exact operate_advances
      (fun _ _ _ _ _ hop => (installSnapshot_advances hcyc _ _ _ _ _ _ hop).meta_le)
      (fun _ _ => rfl) h
  · exact operate_advances
      (fun _ _ _ _ _ hop => (requestVoteCallback_advances hcyc _ _ _ _ _ _ _ _ _ hop).meta_le)
      (fun _ _ => rfl) h
  · exact operate_advances
      (fun _ _ _ _ _ hop => (appendEntriesCallback_advances hcyc _ _ _ _ _ _ _ _ hop).meta_le)
      (fun _ _ => rfl) h
  · exact operate_advances
      (fun _ _ _ _ _ hop => (appendEntriesNoresponse_advances hcyc _ _ _ _ _ _ _ hop).meta_le)
      (fun _ _ => rfl) h
  · exact operate_advances
      (fun _ _ _ _ _ hop => (heartbeatCallback_advances hcyc _ _ _ _ _ _ _ _ hop).meta_le)
      (fun _ _ => rfl) h
  · exact operate_advances
      (fun _ _ _ _ _ hop => (installSnapshotCallback_advances hcyc _ _ _ _ _ _ _ _ _ hop).meta_le)
      (fun _ _ => rfl) h
  · exact operate_advances
      (fun _ _ _ _ _ hop => (installSnapshotNoresponse_advances hcyc _ _ _ _ _ _ _ hop).meta_le)
      (fun _ _ => rfl) h

theorem step_advances (hcyc : Advancing cyc) {e : Event} (h : w.step cyc e = .ok w') :
    w.Advances w' := by
  unfold step at h
  split at h
  · exact operate_advances (fun _ _ _ _ _ hop => (hcyc _ _ _ _ _ hop).meta_le) (fun _ _ => rfl) h
  · split at h
    · exact deliverPacket_advances hcyc h
    · cases h
      exact .refl _
  · exact operate_advances
      (fun _ _ _ _ _ hop => (persistedMetadata_advances hcyc _ _ _ _ _ _ hop).meta_le)
      (fun _ _ => rfl) h
  · refine operate_advances
      (fun _ _ _ _ _ hop => (logFlushed_advances hcyc _ _ _ _ _ _ hop).meta_le) ?_ h
    intro _ _
    rfl
  · exact operate_advances
      (fun _ _ _ _ _ hop => (proposeEntry_advances hcyc _ _ _ _ _ _ _ hop).meta_le)
      (fun _ _ => rfl) h
  · exact operate_advances
      (fun _ _ _ _ _ hop => (drain_advances hcyc _ _ _ _ _ hop).meta_le) (fun _ _ => rfl) h

theorem run_eq_foldlM (cyc : Transition) (es : List Event) :
    ∀ w : World, w.run cyc es = es.foldlM (step cyc) w := by
  induction es with
  | nil => intro w; rfl
  | cons e es ih =>
    intro w
    simp only [run, List.foldlM_cons, ih]

/-- Over every run of the cluster, no server disappears, and no server's term or commit index
ever goes back, nor does a vote it cast change within its term. -/
theorem run_advances (fuel : Nat) {es : List Event} (h : w.run (cycle fuel) es = .ok w') :
    w.Advances w' := by
  rw [run_eq_foldlM] at h
  refine (foldlM_rel (I := fun _ => True) es ?_ w w' trivial h).2
  intro w₁ e _ w₂ _ hstep
  exact ⟨trivial, step_advances (cycle_advances fuel) hstep⟩

end World

/-- Server 1 asks for the pre-vote and the vote of term 1; server 2 grants both, and persists
its vote. -/
def firstVoteRun : List Event :=
  [.tick 1 400 [], .deliver 0 400 [], .deliver 2 400 [], .persist 1 400 [], .deliver 3 400 [],
    .persist 2 400 []]

theorem run_advances_firstVote :
    ∃ w w', World.init [1, 2, 3] trioSnapshot = .ok w ∧ w.run (cycle 20) firstVoteRun = .ok w' ∧
      w.Advances w' := by
  have hrun : ((World.simulate (cycle 20) [1, 2, 3] trioSnapshot firstVoteRun).toOption.any
      fun _ => true) = true := by
    decide +kernel
  obtain ⟨w', hsim, -⟩ := exists_ok_of_any hrun
  obtain ⟨w, hinit, hw⟩ := bind_eq_ok.mp hsim
  exact ⟨w, w', hinit, hw, World.run_advances 20 hw⟩

end Dacha.Raft
