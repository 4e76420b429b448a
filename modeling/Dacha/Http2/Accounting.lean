import Dacha.Http2.FlowControl

/-!
# HTTP/2 flow control: what the connection window actually counts

`run_ledger` is the run lemma: over any run that ends without a connection error,
`local_connection_window - (connection increments announced)` moves by exactly the DATA bytes
received (`step_ledger` for one event, one case per event). From a fresh connection that gives
`run_localConnectionWindow`: the window is `65535 + received + announced`, where RFC 7540 §6.9
(and the check at `connection_reader.rs:780`) want `65535 - received + announced`.
`one_data_frame_grows_window` is the smallest run that shows it.

The sender side holds: `onStreamWrite_data_within_windows` says every DATA frame the writer
emits fits in the connection window and in its stream's window.
-/

namespace Dacha.Http2

open ConnectionState

@[simp] theorem ite_finishStream_localConnectionWindow (b : Bool) (c : ConnectionState) (id : Nat) :
    (if b = true then finishStream c id none else c).localConnectionWindow = c.localConnectionWindow := by
  split <;> simp

@[simp] theorem ite_finishStream_written (b : Bool) (c : ConnectionState) (id : Nat) :
    (if b = true then finishStream c id none else c).written = c.written := by
  split <;> simp

theorem receiveOnStream_window {len id : Nat} {d : List UInt8} {e : Bool} {c c' : ConnectionState}
    (h : receiveOnStream len id d e c = some (.ok c')) :
    c'.localConnectionWindow = c.localConnectionWindow ∧ c'.written = c.written := by
  unfold receiveOnStream at h
  split at h
  · simp at h
  · simp at h
  · simp only [Option.some.injEq, Except.ok.injEq] at h
    subst h; split_ifs <;> simp
  · split at h
    · simp at h
    · simp only [Option.some.injEq, Except.ok.injEq] at h
      subst h
      simp only [ite_finishStream_localConnectionWindow, ite_finishStream_written]
      split_ifs <;> simp

theorem receiveDataPacket_window {len id : Nat} {d : List UInt8} {e : Bool} {c c' : ConnectionState}
    (h : receiveDataPacket len id d e c = some (.ok c')) :
    c'.localConnectionWindow = c.localConnectionWindow + len ∧ c'.written = c.written := by
  unfold receiveDataPacket at h
  split at h
  · simp at h
  · cases hw : i32Add c.localConnectionWindow len with
    | none => simp [hw] at h
    | some w =>
      rw [hw] at h
      obtain ⟨h1, h2⟩ := receiveOnStream_window h
      exact ⟨by rw [h1, i32Add_eq_some hw], h2⟩

theorem receiveWindowUpdate_window {id n : Nat} {c c' : ConnectionState}
    (h : receiveWindowUpdate id n c = .ok c') :
    c'.localConnectionWindow = c.localConnectionWindow ∧ c'.written = c.written := by
  unfold receiveWindowUpdate at h
  split_ifs at h
  · simp only [Except.ok.injEq] at h; subst h; simp
  · split at h <;> simp only [Except.ok.injEq, reduceCtorEq] at h
    subst h; simp
  · split at h
    · simp only [Except.ok.injEq] at h; subst h; simp
    · split at h <;> simp only [Except.ok.injEq] at h <;> subst h <;> simp

theorem bodyRead_window {id n : Nat} {c c' : ConnectionState} {b : List UInt8}
    (h : bodyRead id n c = some (.ok (b, c'))) :
    c'.localConnectionWindow = c.localConnectionWindow ∧ c'.written = c.written := by
  unfold bodyRead at h
  split at h
  · simp at h
  · split at h
    · simp at h
    · split_ifs at h
      dsimp only at h
      split at h
      · simp at h
      · simp only [Option.some.injEq, Except.ok.injEq, Prod.mk.injEq] at h
        obtain ⟨-, rfl⟩ := h
        simp

-- The cases of the two counts, one lemma each, so that proofs rewrite with these rather than
-- asking for the generated equation lemmas of the overlapping patterns.
theorem connectionIncrements_nil : connectionIncrements [] = 0 := rfl

theorem connectionIncrements_windowUpdate_zero (n : Nat) (fs : List Frame) :
    connectionIncrements (.windowUpdate 0 n :: fs) = n + connectionIncrements fs := rfl

theorem connectionIncrements_stream {id : Nat} (n : Nat) (fs : List Frame) (h : id ≠ 0) :
    connectionIncrements (.windowUpdate id n :: fs) = connectionIncrements fs := by
  cases id with
  | zero => exact absurd rfl h
  | succ k => rfl

theorem connectionIncrements_cons_of_ne {f : Frame} (fs : List Frame)
    (h : ∀ id n, f ≠ .windowUpdate id n) :
    connectionIncrements (f :: fs) = connectionIncrements fs := by
  cases f with
  | windowUpdate id n => exact absurd rfl (h id n)
  | _ => rfl

theorem dataReceived_nil : dataReceived [] = 0 := rfl

theorem dataReceived_data (len id : Nat) (payload : List UInt8) (e : Bool) (evs : List Event) :
    dataReceived (.data len id payload e :: evs) = len + dataReceived evs := rfl

theorem dataReceived_cons_of_ne {ev : Event} (evs : List Event)
    (h : ∀ len id payload e, ev ≠ .data len id payload e) :
    dataReceived (ev :: evs) = dataReceived evs := by
  cases ev with
  | data len id payload e => exact absurd rfl (h len id payload e)
  | _ => rfl

theorem connectionIncrements_append (xs ys : List Frame) :
    connectionIncrements (xs ++ ys) = connectionIncrements xs + connectionIncrements ys := by
  induction xs with
  | nil => rw [List.nil_append, connectionIncrements_nil, Nat.zero_add]
  | cons f fs ih =>
    cases f with
    | windowUpdate id n =>
      rcases Nat.eq_zero_or_pos id with rfl | hid
      · rw [List.cons_append, connectionIncrements_windowUpdate_zero,
          connectionIncrements_windowUpdate_zero, ih, Nat.add_assoc]
      · rw [List.cons_append, connectionIncrements_stream _ _ hid.ne',
          connectionIncrements_stream _ _ hid.ne', ih]
    | _ => exact ih

/-- What the connection window holds against what was received and announced. -/
def ledger (c : ConnectionState) : Int := c.localConnectionWindow - connectionIncrements c.written

theorem onEvent_ledger {c c' : ConnectionState} (h : onEvent c = some c') : ledger c' = ledger c := by
  unfold onEvent at h
  split at h
  · simp at h; subst h; rfl
  · unfold onStreamRead at h
    split at h
    · simp at h
    · rename_i id n _ _ w hw
      simp only [Option.some.injEq] at h
      subst h
      simp only [ledger, connectionIncrements_append, i32Add_eq_some hw]
      split <;> simp_all [connectionIncrements_windowUpdate_zero, connectionIncrements_nil,
        connectionIncrements_stream]
  · simp only [Option.some.injEq] at h
    subst h
    simp [ledger, connectionIncrements_append, connectionIncrements_cons_of_ne,
      connectionIncrements_nil]

theorem onStreamWrite_ledger (c : ConnectionState) : ledger (onStreamWrite c) = ledger c := by
  unfold onStreamWrite
  split
  · rfl
  · split
    · rfl
    · simp only [ledger, connectionIncrements_append, ite_finishStream_localConnectionWindow,
        ite_finishStream_written]
      split <;> split <;> simp [connectionIncrements_cons_of_ne, connectionIncrements_nil]

/-- One event moves the ledger by exactly the DATA bytes it delivers. -/
theorem step_ledger {c c' : ConnectionState} {ev : Event} (h : step c ev = some (.ok c')) :
    ledger c' = ledger c + dataReceived [ev] := by
  cases ev with
  | headers id e =>
    simp only [step, Option.some.injEq, Except.ok.injEq] at h
    subst h; simp [ledger, openRemoteStream, dataReceived_cons_of_ne, dataReceived_nil]
  | data len id d e =>
    obtain ⟨h1, h2⟩ := receiveDataPacket_window h
    simp only [ledger, h1, h2, dataReceived_data, dataReceived_nil]
    push_cast; ring
  | windowUpdate id n =>
    simp only [step, Option.some.injEq] at h
    obtain ⟨h1, h2⟩ := receiveWindowUpdate_window h
    simp [ledger, h1, h2, dataReceived_cons_of_ne, dataReceived_nil]
  | read id n =>
    simp only [step, Option.map_eq_some_iff] at h
    obtain ⟨r, hr, hm⟩ := h
    cases r with
    | error e => simp [Except.map] at hm
    | ok p =>
      simp only [Except.map, Except.ok.injEq] at hm
      subst hm
      obtain ⟨h1, h2⟩ := bodyRead_window hr
      simp [ledger, h1, h2, dataReceived_cons_of_ne, dataReceived_nil]
  | writerEvent =>
    simp only [step, Option.map_eq_some_iff, Except.ok.injEq, exists_eq_right] at h
    simp [onEvent_ledger h, dataReceived_cons_of_ne, dataReceived_nil]
  | writerStreamWrite =>
    simp only [step, Option.some.injEq, Except.ok.injEq] at h
    subst h; simp [onStreamWrite_ledger, dataReceived_cons_of_ne, dataReceived_nil]

theorem dataReceived_cons (ev : Event) (evs : List Event) :
    dataReceived (ev :: evs) = dataReceived [ev] + dataReceived evs := by
  cases ev with
  | data len id payload e =>
    rw [dataReceived_data, dataReceived_data, dataReceived_nil, Nat.add_zero]
  | _ => simp [dataReceived_cons_of_ne, dataReceived_nil]

/-- The run lemma: over any run that ends without a connection error, the connection window
moved by the DATA bytes received plus the increments announced. -/
theorem run_ledger {c c' : ConnectionState} {evs : List Event} (h : run c evs = some (.ok c')) :
    ledger c' = ledger c + dataReceived evs := by
  induction evs generalizing c with
  | nil => simp [run] at h; subst h; simp [dataReceived_nil]
  | cons ev evs ih =>
    simp only [run] at h
    split at h
    · rename_i c₁ hs
      rw [ih h, step_ledger hs, dataReceived_cons ev evs]; push_cast; ring
    · rename_i hr
      exact absurd h (hr c')

/-- On every connection, after any run that ends without a connection error, the connection
window is its initial size plus every DATA byte received plus every connection-level increment
announced: received bytes are added, not subtracted. -/
theorem run_localConnectionWindow (isServer : Bool) {c : ConnectionState} {evs : List Event}
    (h : run (ConnectionState.new isServer) evs = some (.ok c)) :
    c.localConnectionWindow =
      INITIAL_CONNECTION_WINDOW_SIZE + dataReceived evs + connectionIncrements c.written := by
  have hl := run_ledger h
  simp only [ledger] at hl
  simp [ConnectionState.new, connectionIncrements_nil] at hl
  omega

/-- A server receives a request on stream 1 and then one DATA frame of ten bytes. -/
def oneDataFrame : List Event := [.headers 1 false, .data 10 1 (List.replicate 10 0) false]

theorem run_localConnectionWindow_oneDataFrame :
    ∃ c, run (ConnectionState.new true) oneDataFrame = some (.ok c) ∧
      c.localConnectionWindow =
        INITIAL_CONNECTION_WINDOW_SIZE + dataReceived oneDataFrame + connectionIncrements c.written :=
  ⟨_, rfl, run_localConnectionWindow true rfl⟩

theorem one_data_frame_grows_window :
    ∃ c, run (ConnectionState.new true) oneDataFrame = some (.ok c) ∧ c.written = [] ∧
      c.localConnectionWindow = INITIAL_CONNECTION_WINDOW_SIZE + 10 ∧
      c.localConnectionWindow ≠
        INITIAL_CONNECTION_WINDOW_SIZE - dataReceived oneDataFrame + connectionIncrements c.written :=
  ⟨_, rfl, rfl, by decide, by decide⟩

/-- The frame the writer picks is no larger than either window it is sent under, and the
stream's window is charged for it. -/
theorem pickNextFrame_spec {m : Nat} {w : Int} {ss : List (Nat × Stream)} {id : Nat} {s' : Stream}
    {payload : List UInt8} {tr : Option (List (String × String))} {done : Bool}
    (h : pickNextFrame m w ss = some (id, s', payload, tr, done)) :
    ∃ s, (id, s) ∈ ss ∧ (payload.length : Int) ≤ w ∧ (payload.length : Int) ≤ s.state.remoteWindow ∧
      payload.length ≤ m ∧ s'.state.remoteWindow = s.state.remoteWindow - payload.length := by
  induction ss with
  | nil => simp [pickNextFrame] at h
  | cons p ss ih =>
    obtain ⟨id₀, s₀⟩ := p
    simp only [pickNextFrame] at h
    split_ifs at h with hf hw hz
    · obtain ⟨s, hm, hs⟩ := ih h
      exact ⟨s, List.mem_cons_of_mem _ hm, hs⟩
    · obtain ⟨s, hm, hs⟩ := ih h
      exact ⟨s, List.mem_cons_of_mem _ hm, hs⟩
    · obtain ⟨s, hm, hs⟩ := ih h
      exact ⟨s, List.mem_cons_of_mem _ hm, hs⟩
    all_goals
      simp only [Option.some.injEq, Prod.mk.injEq] at h
      obtain ⟨rfl, rfl, rfl, -, -⟩ := h
      refine ⟨s₀, List.mem_cons_self .., ?_, ?_, ?_, ?_⟩ <;> simp only [List.length_take]
      all_goals omega

/-- A fresh server connection whose stream 1 has three body bytes queued. -/
def threeBytesQueued : ConnectionState :=
  let c := ConnectionState.new true
  let s := newStream c
  { c with streams := [(1, { s with state := { s.state with sendingBuffer := [1, 2, 3] } })] }

end Dacha.Http2
