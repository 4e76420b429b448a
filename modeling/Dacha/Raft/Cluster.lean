import Dacha.Lib.Run
import Dacha.Raft.MemoryLog

/-!
# A cluster of servers (`server/server_shared.rs`, `server/server.rs`)

The consensus modules of several servers, their logs and the network between them. This is
the environment the server layer gives a `ConsensusModule`; every choice it leaves open is an
`Event` of the run, taken by an adversary: which server acts, when, which packet is delivered,
and in what order.

* A tick's side effects are carried out as `run_tick` does: the new entries are appended to
  the server's `MemoryLog`, and each message becomes one packet per destination. An
  `AppendEntries` message gets its entries from the log (`populate_append_entries_request`,
  `server_shared.rs:1305-1352`); when the log no longer holds them the request is abandoned
  and its sender is told that no response came.
* The network keeps every packet ever sent. Delivering one does not remove it, so packets are
  delivered in any order, any number of times, or never.
* A `RequestVote` response is held until the server's metadata is persisted (`persist`), as
  `MustPersistMetadata` asks. An `AppendEntries` response waits for its `FlushConstraint`: it is
  released by the first `flush` after which the log holds the constraint's position and has
  flushed its sequence, and turned into a failure when the log no longer holds the position.
* A `PreVote` is answered by `pre_vote` with the server's current state and time.
-/

namespace Dacha.Raft

open ConsensusModule Dacha.Run

inductive Request
  | PreVote (req : RequestVoteRequest)
  | RequestVote (req : RequestVoteRequest)
  | Heartbeat (req : HeartbeatRequest)
  | AppendEntries (req : AppendEntriesRequest)
  | InstallSnapshot (req : InstallSnapshotRequest)
  deriving DecidableEq, Repr

/-- A packet from `src` to `dst`. A response that is `none` is a failed RPC. -/
inductive Packet
  | request (src dst requestId : Nat) (body : Request)
  | voteResponse (src dst requestId : Nat) (isPreVote : Bool) (resp : RequestVoteResponse)
  | appendResponse (src dst requestId : Nat) (resp : Option AppendEntriesResponse)
  | heartbeatResponse (src dst requestId : Nat) (resp : Option HeartbeatResponse)
  | snapshotResponse (src dst : Nat) (req : InstallSnapshotRequest)
      (resp : Option InstallSnapshotResponse)
  deriving DecidableEq, Repr

structure Node where
  module : ConsensusModule
  log : MemoryLog
  /-- Vote responses waiting for the metadata to be persisted. -/
  heldVotes : List Packet
  /-- `AppendEntries` responses waiting for the log to be flushed up to a sequence and position. -/
  heldAppends : List (Nat × LogPosition × Packet)

structure World where
  nodes : AList fun _ : Nat => Node
  /-- Every packet ever sent. -/
  network : List Packet

/-- `populate_append_entries_request`: the entries `(prev, last]` from the log, if it still
holds them as the leader saw them. -/
def populate (log : MemoryLog) (req : AppendEntriesRequest) (lastLogIndex lastLogSequence : Nat) :
    Option AppendEntriesRequest :=
  if req.prevLogIndex = lastLogIndex then some req
  else
    match log.entries (req.prevLogIndex + 1) lastLogIndex with
    | some (entries, seq) => if lastLogSequence ≠ seq then none else some { req with entries }
    | none => none

/-- The packets of one message of server `src` (`dispatch_messages`, `server_shared.rs:1097`). -/
def dispatch (src : Nat) (log : MemoryLog) (msg : ConsensusMessage) : List Packet :=
  msg.to_.map fun dst =>
    match msg.body with
    | .PreVote req => .request src dst msg.requestId (.PreVote req)
    | .RequestVote req => .request src dst msg.requestId (.RequestVote req)
    | .Heartbeat req => .request src dst msg.requestId (.Heartbeat req)
    | .AppendEntries req lastLogIndex lastLogSequence =>
      match populate log req lastLogIndex lastLogSequence with
      | some req => .request src dst msg.requestId (.AppendEntries req)
      -- An abandoned request is reported to its sender as unanswered.
      | none => .appendResponse dst src msg.requestId none
    | .InstallSnapshot req => .request src dst msg.requestId (.InstallSnapshot req)

/-- Carry out a tick's side effects on server `id`: append its new entries and send its
messages. -/
def Node.absorb (n : Node) (id : Nat) (m : ConsensusModule) (t : Tick) :
    Except Fault (Node × List Packet) := do
  let log ← t.newEntries.foldlM
    (fun log e => match log.append e.entry e.sequence with
      | .ok log => pure log
      | .error msg => throw (Fault.panic msg))
    n.log
  pure ({ n with module := m, log }, t.messages.flatMap (dispatch id log))

/-- A failed RPC in place of a held response. -/
def Packet.withoutResponse : Packet → Packet
  | .appendResponse src dst requestId _ => .appendResponse src dst requestId none
  | p => p

/-- `FlushConstraint::poll` on a `MemoryLog`: `some true` once satisfied, `some false` while
pending, `none` when it cannot be satisfied any more. -/
def MemoryLog.poll (log : MemoryLog) (seq : Nat) (pos : LogPosition) : Option Bool :=
  match log.term pos.index with
  | some term => if term ≠ pos.term then none else some (log.lastFlushed ≥ seq)
  | none => none

/-- The held `AppendEntries` responses after a flush: the packets released, and those still
held. -/
def releaseAppends (log : MemoryLog) :
    List (Nat × LogPosition × Packet) → List Packet × List (Nat × LogPosition × Packet)
  | [] => ([], [])
  | (seq, pos, p) :: held =>
    let (released, kept) := releaseAppends log held
    match log.poll seq pos with
    | some true => (p :: released, kept)
    | some false => (released, (seq, pos, p) :: kept)
    | none => (p.withoutResponse :: released, kept)

/-- What happens in a run, chosen by the adversary. Each event names the time it happens at and
the values the random number generator returns during it. -/
inductive Event
  /-- The server's periodic `cycle`. -/
  | tick (id time : Nat) (entropy : List Nat)
  /-- The `k`-th packet ever sent reaches its destination. -/
  | deliver (k time : Nat) (entropy : List Nat)
  /-- The server's metadata reaches the disk: `persisted_metadata`. -/
  | persist (id time : Nat) (entropy : List Nat)
  /-- The server's log reaches the disk: `log_flushed`. -/
  | flush (id time : Nat) (entropy : List Nat)
  /-- A client proposes an entry to the server. -/
  | propose (id : Nat) (data : LogEntryData) (time : Nat) (entropy : List Nat)
  /-- The server starts draining. -/
  | drain (id time : Nat) (entropy : List Nat)
  deriving DecidableEq, Repr

namespace World

/-- The servers `ids`, each created by `ConsensusModule::new` at time 0 with empty metadata, the
configuration `snapshot` and an empty log. -/
def init (ids : List Nat) (snapshot : ConfigurationSnapshot) : Except Fault World := do
  let nodes ← ids.foldlM
    (fun nodes id => do
      let m ← ConsensusModule.new id {} snapshot {} 0 0
      pure (nodes.insert id ⟨m, {}, [], []⟩))
    ∅
  pure ⟨nodes, []⟩

/-- Run one operation on server `id` at `time` and carry out its tick. `respond` turns what the
operation returns into the node's held responses and the packets it answers with. A server
that does not exist does nothing. -/
def operate {α : Type} (w : World) (id time : Nat) (entropy : List Nat)
    (op : Node → Tick → Outcome α) (respond : α → Node → Node × List Packet) :
    Except Fault World :=
  match w.nodes.lookup id with
  | none => .ok w
  | some n => do
    let (a, m, t) ← op n { time, entropy }
    let (n, sent) ← n.absorb id m t
    let (n, replies) := respond a n
    pure ⟨w.nodes.insert id n, w.network ++ sent ++ replies⟩

/-- Nothing to answer. -/
def noReply {α : Type} (_ : α) (n : Node) : Node × List Packet := (n, [])

variable (cyc : Transition)

/-- A packet reaches its destination `dst`. -/
def deliverPacket (w : World) (time : Nat) (entropy : List Nat) : Packet → Except Fault World
  | .request src dst rid (.PreVote req) =>
    w.operate dst time entropy (fun n t => .ok (n.module.preVote req t.time, n.module, t))
      fun resp n => (n, [.voteResponse dst src rid true resp])
  | .request src dst rid (.RequestVote req) =>
    w.operate dst time entropy (fun n t => requestVote cyc req n.module t)
      fun resp n => ({ n with heldVotes := n.heldVotes ++ [.voteResponse dst src rid false resp] }, [])
  | .request src dst rid (.Heartbeat req) =>
    w.operate dst time entropy (fun n t => heartbeat cyc req n.module t)
      fun r n => (n, [.heartbeatResponse dst src rid r.toOption])
  | .request src dst rid (.AppendEntries req) =>
    w.operate dst time entropy (fun n t => appendEntries cyc req n.module t)
      fun r n => match r with
        | .ok c =>
          match c.point with
          | some (seq, pos) =>
            ({ n with heldAppends :=
              n.heldAppends ++ [(seq, pos, .appendResponse dst src rid (some c.inner))] }, [])
          | none => (n, [.appendResponse dst src rid (some c.inner)])
        | .error _ => (n, [.appendResponse dst src rid none])
  | .request src dst _ (.InstallSnapshot req) =>
    w.operate dst time entropy (fun n t => installSnapshot cyc req n.module t)
      fun r n => (n, [.snapshotResponse dst src req r.toOption])
  | .voteResponse src dst rid isPreVote resp =>
    w.operate dst time entropy (fun n t => requestVoteCallback cyc src rid isPreVote resp n.module t)
      noReply
  | .appendResponse src dst rid (some resp) =>
    w.operate dst time entropy (fun n t => appendEntriesCallback cyc src rid resp n.module t) noReply
  | .appendResponse src dst rid none =>
    w.operate dst time entropy (fun n t => appendEntriesNoresponse cyc src rid n.module t) noReply
  | .heartbeatResponse src dst rid resp =>
    w.operate dst time entropy (fun n t => heartbeatCallback cyc src rid resp n.module t) noReply
  | .snapshotResponse src dst req (some resp) =>
    w.operate dst time entropy
      (fun n t => installSnapshotCallback cyc src req resp req.lastApplied.index n.module t) noReply
  | .snapshotResponse src dst req none =>
    w.operate dst time entropy (fun n t => installSnapshotNoresponse cyc src req n.module t) noReply

/-- One event of a run. -/
def step (w : World) : Event → Except Fault World
  | .tick server time entropy => w.operate server time entropy (fun n t => cyc n.module t) noReply
  | .deliver k time entropy =>
    match w.network[k]? with
    | some p => w.deliverPacket cyc time entropy p
    | none => .ok w
  | .persist server time entropy =>
    w.operate server time entropy (fun n t => persistedMetadata cyc n.module.meta_ n.module t)
      fun _ n => ({ n with heldVotes := [] }, n.heldVotes)
  | .flush server time entropy =>
    w.operate server time entropy (fun n t => logFlushed cyc n.log.lastFlushed n.module t)
      fun _ n =>
        let (released, kept) := releaseAppends n.log n.heldAppends
        ({ n with heldAppends := kept }, released)
  | .propose server data time entropy =>
    w.operate server time entropy (fun n t => proposeEntry cyc data none n.module t) noReply
  | .drain server time entropy =>
    w.operate server time entropy (fun n t => ConsensusModule.drain cyc n.module t) noReply

/-- A run: the events one after the other, stopping at the first panic. -/
def run (w : World) : List Event → Except Fault World
  | [] => .ok w
  | e :: es => do
    let w ← w.step cyc e
    run w es

/-- The servers `ids` started from `snapshot`, then the events `es`. -/
def simulate (ids : List Nat) (snapshot : ConfigurationSnapshot) (es : List Event) :
    Except Fault World := do
  let w ← init ids snapshot
  w.run cyc es

end World

/-- A computed run that ends in the fault `f`. -/
theorem eq_error_of_fault {α : Type} {r : Except Fault α} {f : Fault}
    (h : (match r with | .error e => decide (e = f) | .ok _ => false) = true) : r = .error f := by
  cases r with
  | error e => simp only [decide_eq_true_eq] at h; rw [h]
  | ok a => simp at h

end Dacha.Raft
