import Mathlib

/-!
# HTTP/2 flow control (`pkg/http/src/v2`)

| here | there |
| --- | --- |
| `i32Add` | `+=` on a `WindowSize = i32` (`types.rs:8`), which panics on overflow in a debug build |
| `receiveDataInner`, `receiveData` | `Stream::receive_data_inner` / `receive_data` (`stream.rs:246-310`), with `set_received_end` (`:103`) and `increment_received_bytes` (`:115`) |
| `findReceivedStream` | `ConnectionReader::find_received_stream` (`connection_reader.rs:1499-1536`) |
| `finishedState`, `finishedEvents`, `finishStream` | `ConnectionShared::finish_stream` (`connection_shared.rs:134-215`) |
| `receiveDataPacket`, `receiveOnStream` | `ConnectionReader::receive_data_packet` (`connection_reader.rs:773-898`) |
| `bodyRead` | one pass of `IncomingStreamBody::read` over a non-empty buffer (`body.rs:286-336`) |
| `onStreamRead` | the writer's `ConnectionEvent::StreamRead` arm (`connection_writer.rs:362-385`) |
| `onStreamWrite` | the writer's `ConnectionEvent::StreamWrite` arm (`connection_writer.rs:395-540`) |
| `receiveWindowUpdate` | `receive_window_update_frame` (`connection_reader.rs:1129-1203`) |

Every handler returns `Option`: `none` is a panic (an `i32` or `usize` overflow). A handler
that can fail with a connection error returns `Except ProtocolErrorV2`. The event channel
between the reader and the writer is unbounded (`connection.rs:156`), so it is a list that
the writer drains from the front.

The stream-level accounting is right: `Stream::receive_data_inner` subtracts what it accepts
and `IncomingStreamBody::read` adds back what the application consumed. The connection level
is not: `receive_data_packet` *adds* the frame length to `local_connection_window`
(`connection_reader.rs:791`) where the check just above it, and the stream-level sibling,
subtract it. `receiveDataPacket_window` (in `Accounting`) is that step, and
`one_data_frame_grows_window` a run in which one ten-byte DATA frame grows the connection
window to 65545.
-/

namespace Dacha.Http2

/-- The `ErrorCode`s that the flow-control paths raise. -/
inductive ErrorCode
  | PROTOCOL_ERROR
  | FLOW_CONTROL_ERROR
  | STREAM_CLOSED
  | CANCEL
  deriving DecidableEq, Repr

/-- `ProtocolErrorV2` (`types.rs:16`). -/
structure ProtocolErrorV2 where
  code : ErrorCode
  message : String
  isLocal : Bool
  deriving DecidableEq, Repr

/-- `StreamError::stream_closed` (`types.rs:55`). -/
def streamClosed (message : String) : ProtocolErrorV2 := ⟨.STREAM_CLOSED, message, true⟩

/-- `StreamError::malformed_message` (`types.rs:63`). -/
def malformedMessage (message : String) : ProtocolErrorV2 := ⟨.PROTOCOL_ERROR, message, true⟩

/-- `a += b` on an `i32`: `none` when the sum leaves `[-2^31, 2^31 - 1]`. -/
def i32Add (a b : Int) : Option Int :=
  if -2 ^ 31 ≤ a + b ∧ a + b ≤ 2 ^ 31 - 1 then some (a + b) else none

theorem i32Add_eq_some {a b c : Int} (h : i32Add a b = some c) : c = a + b := by
  unfold i32Add at h
  split at h <;> simp_all

/-- The part of `StreamState` (`stream_state.rs`) that the modelled paths read or write.
Trailers are a list of header pairs. -/
structure StreamState where
  error : Option ProtocolErrorV2
  localWindow : Int
  readerCancelled : Bool
  receivedBuffer : List UInt8
  receivedEnd : Bool
  receivedExpectedBytes : Option Nat
  receivedTotalBytes : Nat
  remoteWindow : Int
  writerCancelled : Bool
  sendingBuffer : List UInt8
  sendingTrailers : Option (List (String × String))
  sendingEnd : Bool
  deriving DecidableEq, Repr

/-- `Stream` (`stream.rs`): the lock-protected state and the two flags read outside it. -/
structure Stream where
  hasIncomingResponseHandler : Bool
  sendingEndFlushed : Bool
  state : StreamState
  deriving DecidableEq, Repr

/-- `Stream::is_closed` (`stream.rs:79`). -/
def Stream.isClosed (s : Stream) (st : StreamState) : Bool :=
  st.error.isSome || ((s.sendingEndFlushed || st.writerCancelled) && (st.receivedEnd || st.readerCancelled))

/-- The two `ConnectionEvent`s the flow-control paths emit. -/
inductive ConnectionEvent
  | ResetStream (streamId : Nat) (error : ProtocolErrorV2)
  | StreamRead (streamId count : Nat)
  deriving DecidableEq, Repr

/-- Frames written by the connection writer. -/
inductive Frame
  | windowUpdate (streamId increment : Nat)
  | data (streamId : Nat) (payload : List UInt8) (endStream : Bool)
  | trailers (streamId : Nat) (headers : List (String × String))
  | rstStream (streamId : Nat) (error : ProtocolErrorV2)
  deriving DecidableEq, Repr

/-- The part of `ConnectionState` (`connection_state.rs`) the modelled paths use; the two
`INITIAL_WINDOW_SIZE` settings and the remote `MAX_FRAME_SIZE` stand for the settings
containers. -/
structure ConnectionState where
  isServer : Bool
  localConnectionWindow : Int
  remoteConnectionWindow : Int
  localInitialWindowSize : Nat
  remoteInitialWindowSize : Nat
  remoteMaxFrameSize : Nat
  lastReceivedStreamId : Nat
  lastSentStreamId : Nat
  streams : List (Nat × Stream)
  events : List ConnectionEvent
  written : List Frame
  deriving DecidableEq, Repr

/-- `INITIAL_CONNECTION_WINDOW_SIZE` (`connection.rs:39`). -/
def INITIAL_CONNECTION_WINDOW_SIZE : Int := 65535

namespace ConnectionState

def getStream (c : ConnectionState) (id : Nat) : Option Stream := c.streams.lookup id

def setStream (c : ConnectionState) (id : Nat) (s : Stream) : ConnectionState :=
  { c with streams := c.streams.map fun p => if p.1 = id then (id, s) else p }

def removeStream (c : ConnectionState) (id : Nat) : ConnectionState :=
  { c with streams := c.streams.filter fun p => p.1 ≠ id }

def push (c : ConnectionState) (es : List ConnectionEvent) : ConnectionState :=
  { c with events := c.events ++ es }

@[simp] theorem setStream_localConnectionWindow (c : ConnectionState) (id : Nat) (s : Stream) :
    (c.setStream id s).localConnectionWindow = c.localConnectionWindow := rfl
@[simp] theorem setStream_written (c : ConnectionState) (id : Nat) (s : Stream) :
    (c.setStream id s).written = c.written := rfl
@[simp] theorem removeStream_localConnectionWindow (c : ConnectionState) (id : Nat) :
    (c.removeStream id).localConnectionWindow = c.localConnectionWindow := rfl
@[simp] theorem removeStream_written (c : ConnectionState) (id : Nat) :
    (c.removeStream id).written = c.written := rfl
@[simp] theorem push_localConnectionWindow (c : ConnectionState) (es : List ConnectionEvent) :
    (c.push es).localConnectionWindow = c.localConnectionWindow := rfl
@[simp] theorem push_written (c : ConnectionState) (es : List ConnectionEvent) :
    (c.push es).written = c.written := rfl

end ConnectionState

/-! ## Receiving -/

def setReceivedEnd (endStream : Bool) (st : StreamState) : StreamState × Option ProtocolErrorV2 :=
  if st.receivedEnd then (st, some (streamClosed "Received data after stream was closed"))
  else ({ st with receivedEnd := endStream }, none)

/-- `Stream::increment_received_bytes`: counting happens only under a `Content-Length`. -/
def incrementReceivedBytes (increment : Nat) (st : StreamState) :
    StreamState × Option ProtocolErrorV2 :=
  match st.receivedExpectedBytes with
  | none => (st, none)
  | some expected =>
    if 2 ^ 64 ≤ st.receivedTotalBytes + increment then
      (st, some (malformedMessage "Overflow in received number of bytes"))
    else
      let st := { st with receivedTotalBytes := st.receivedTotalBytes + increment }
      let good := if st.receivedEnd then expected = st.receivedTotalBytes
        else st.receivedTotalBytes ≤ expected
      if good then (st, none)
      else (st, some (malformedMessage "Mismatch between received and expected stream length"))

/-- `Stream::receive_data_inner`. The state is mutated in place in the source, so the
mutations made before an early `Err` survive it: the result is the state and the error. -/
def receiveDataInner (s : Stream) (data : List UInt8) (extra : Nat) (endStream : Bool)
    (st : StreamState) : StreamState × Option ProtocolErrorV2 :=
  match setReceivedEnd endStream st with
  | (st, some e) => (st, some e)
  | (st, none) =>
    if s.hasIncomingResponseHandler then
      (st, some (malformedMessage "Expected response headers before stream data"))
    else match incrementReceivedBytes data.length st with
    | (st, some e) => (st, some e)
    | (st, none) =>
      if st.localWindow < ((data.length + extra : Nat) : Int) then
        (st, some ⟨.FLOW_CONTROL_ERROR, "Received data frame exceeded flow control window size", true⟩)
      else
        let st := { st with localWindow := st.localWindow - ((data.length + extra : Nat) : Int) }
        (if st.readerCancelled then st else { st with receivedBuffer := st.receivedBuffer ++ data },
          none)

/-- `Stream::receive_data`: a failure is stored in the stream's `error`. -/
def receiveData (s : Stream) (data : List UInt8) (extra : Nat) (endStream : Bool)
    (st : StreamState) : StreamState :=
  if st.error.isSome then st
  else match receiveDataInner s data extra endStream st with
    | (st, some e) => { st with error := some e }
    | (st, none) => st

/-- What `find_received_stream` found. -/
inductive StreamEntry
  | Open (s : Stream)
  | New
  | Closed

/-- `ConnectionShared::is_local_stream_id`: clients own the odd ids, servers the even ones. -/
def isLocalStreamId (isServer : Bool) (id : Nat) : Bool := isServer == (id % 2 == 0)

def findReceivedStream (streamId : Nat) (c : ConnectionState) : Except ProtocolErrorV2 StreamEntry :=
  if streamId = 0 then
    .error ⟨.PROTOCOL_ERROR, "Unexpected frame on connection control stream", true⟩
  else match c.getStream streamId with
  | some s => .ok (.Open s)
  | none =>
    if isLocalStreamId c.isServer streamId then
      if c.lastSentStreamId < streamId then
        .error ⟨.PROTOCOL_ERROR, "Received frame on idle stream with local stream id", true⟩
      else .ok .Closed
    else if c.lastReceivedStreamId < streamId then .ok .New
    else .ok .Closed

/-- The state `ConnectionShared::finish_stream` leaves on a stream it removes: the extra
error if there was none, and `CANCEL` on a stream that is not normally closed. -/
def finishedState (s : Stream) (additionalError : Option ProtocolErrorV2) : StreamState :=
  let st := match additionalError with
    | some e => if s.state.error.isNone then { s.state with error := some e } else s.state
    | none => s.state
  if st.error.isNone && !(s.sendingEndFlushed && st.receivedEnd) then
    { st with error := some ⟨.CANCEL, "Stream no longer needed.", true⟩ } else st

/-- The events `finish_stream` queues for a removed stream: `RST_STREAM` for a local error, and
its unread bytes handed back to the connection window. -/
def finishedEvents (id : Nat) (st : StreamState) : List ConnectionEvent :=
  match st.error with
  | some e =>
    (if e.isLocal then [.ResetStream id e] else []) ++
      (if st.receivedBuffer.length > 0 then [.StreamRead 0 st.receivedBuffer.length] else [])
  | none => []

/-- `ConnectionShared::finish_stream` (`connection_shared.rs:134-215`). -/
def finishStream (c : ConnectionState) (id : Nat) (additionalError : Option ProtocolErrorV2) :
    ConnectionState :=
  match c.getStream id with
  | none =>
    c.push (match additionalError with
      | some e => if e.isLocal then [.ResetStream id e] else []
      | none => [])
  | some s => (c.removeStream id).push (finishedEvents id (finishedState s additionalError))

@[simp] theorem finishStream_localConnectionWindow (c : ConnectionState) (id : Nat)
    (e : Option ProtocolErrorV2) :
    (finishStream c id e).localConnectionWindow = c.localConnectionWindow := by
  unfold finishStream; split <;> rfl

@[simp] theorem finishStream_written (c : ConnectionState) (id : Nat) (e : Option ProtocolErrorV2) :
    (finishStream c id e).written = c.written := by
  unfold finishStream; split <;> rfl

/-- The part of `receive_data_packet` after the connection window was updated: the frame is
handed to its stream (`connection_reader.rs:793-898`). -/
def receiveOnStream (length streamId : Nat) (data : List UInt8) (endStream : Bool)
    (c : ConnectionState) : Option (Except ProtocolErrorV2 ConnectionState) :=
  match findReceivedStream streamId c with
  | .error e => some (.error e)
  | .ok .New =>
    some (.error ⟨.FLOW_CONTROL_ERROR, "Recieved unallowed frame for idle stream", true⟩)
  | .ok .Closed =>
    let c := c.push [.ResetStream streamId (streamClosed "Received data on a closed stream")]
    some (.ok (if length ≠ 0 then c.push [.StreamRead 0 length] else c))
  | .ok (.Open s) =>
    -- `(frame_header.length as usize) - data_frame.data.len()` underflows on a bad frame
    if length < data.length then none
    else
      let extra := length - data.length
      let st := receiveData s data extra endStream s.state
      let c := c.setStream streamId { s with state := st }
      let c :=
        if st.error.isSome || st.readerCancelled then
          (if length ≠ 0 then c.push [.StreamRead 0 length] else c)
        else if extra ≠ 0 then c.push [.StreamRead 0 extra] else c
      some (.ok (if s.isClosed st then finishStream c streamId none else c))

/-- `ConnectionReader::receive_data_packet`. `length` is the frame header's length and `data`
the payload with its padding removed. -/
def receiveDataPacket (length streamId : Nat) (data : List UInt8) (endStream : Bool)
    (c : ConnectionState) : Option (Except ProtocolErrorV2 ConnectionState) :=
  if c.localConnectionWindow < (length : Int) then
    some (.error ⟨.FLOW_CONTROL_ERROR, "Exceeded connection level window", true⟩)
  else
    -- `connection_state.local_connection_window += frame_header.length as WindowSize;`
    match i32Add c.localConnectionWindow length with
    | none => none
    | some w => receiveOnStream length streamId data endStream { c with localConnectionWindow := w }

/-! ## Reading and writing -/

/-- One pass of `IncomingStreamBody::read` with a buffer of `bufLen` bytes over a stream whose
`received_buffer` is not empty: the bytes read and the new state. An empty buffer blocks in
the source and is `none` here as well. -/
def bodyRead (streamId bufLen : Nat) (c : ConnectionState) :
    Option (Except ProtocolErrorV2 (List UInt8 × ConnectionState)) :=
  match c.getStream streamId with
  | none => none
  | some s =>
    match s.state.error with
    | some e => some (.error e)
    | none =>
      if s.state.receivedBuffer.isEmpty then none
      else
        let n := min bufLen s.state.receivedBuffer.length
        match i32Add s.state.localWindow n with
        | none => none
        | some w =>
          let st := { s.state with receivedBuffer := s.state.receivedBuffer.drop n, localWindow := w }
          some (.ok (s.state.receivedBuffer.take n,
            (c.setStream streamId { s with state := st }).push [.StreamRead streamId n]))

/-- The writer's `StreamRead` arm: the connection window grows by `count` and the peer is told
so, for the stream as well unless the event is the connection's own (`stream_id` 0). -/
def onStreamRead (streamId count : Nat) (c : ConnectionState) : Option ConnectionState :=
  match i32Add c.localConnectionWindow count with
  | none => none
  | some w =>
    let frames := .windowUpdate 0 count :: (if streamId ≠ 0 then [.windowUpdate streamId count] else [])
    some { c with localConnectionWindow := w, written := c.written ++ frames }

/-- The search loop of the writer's `StreamWrite` arm over the streams (in map order): the
first stream with something to send, its DATA payload, trailers, end flag and closedness. -/
def pickNextFrame (maxFrame : Nat) (connWindow : Int) :
    List (Nat × Stream) → Option (Nat × Stream × List UInt8 × Option (List (String × String)) × Bool)
  | [] => none
  | (id, s) :: rest =>
    if s.sendingEndFlushed then pickNextFrame maxFrame connWindow rest
    else
      let minWindow := min connWindow s.state.remoteWindow
      if minWindow < 0 then pickNextFrame maxFrame connWindow rest
      else
        let n := min (min minWindow.toNat s.state.sendingBuffer.length) maxFrame
        let st := { s.state with
          remoteWindow := s.state.remoteWindow - n
          sendingBuffer := s.state.sendingBuffer.drop n }
        let bodyDone := st.sendingEnd && st.sendingBuffer.isEmpty
        let trailers := if bodyDone then st.sendingTrailers else none
        let st := if bodyDone then { st with sendingTrailers := none } else st
        if n = 0 && !bodyDone then pickNextFrame maxFrame connWindow rest
        else some (id, { s with sendingEndFlushed := bodyDone, state := st },
          s.state.sendingBuffer.take n, trailers, bodyDone)

/-- The writer's `StreamWrite` arm. -/
def onStreamWrite (c : ConnectionState) : ConnectionState :=
  if c.remoteConnectionWindow ≤ 0 then c
  else match pickNextFrame c.remoteMaxFrameSize c.remoteConnectionWindow c.streams with
  | none => c
  | some (id, s, payload, trailers, endStream) =>
    let c := { c.setStream id s with
      remoteConnectionWindow := c.remoteConnectionWindow - payload.length }
    let c := if s.isClosed s.state then finishStream c id none else c
    let frames := (if payload.length > 0 || trailers.isNone then
        [Frame.data id payload (endStream && trailers.isNone)] else []) ++
      (match trailers with
        | some t => [Frame.trailers id t]
        | none => [])
    { c with written := c.written ++ frames }

/-- The error `receive_window_update_frame` raises on a zero increment. -/
def zeroIncrementError : ProtocolErrorV2 :=
  ⟨.PROTOCOL_ERROR, "Received WINDOW_UPDATE with invalid 0 increment", true⟩

def receiveWindowUpdate (streamId increment : Nat) (c : ConnectionState) :
    Except ProtocolErrorV2 ConnectionState :=
  if increment = 0 then
    if streamId = 0 then .error zeroIncrementError
    else .ok (finishStream c streamId (some zeroIncrementError))
  else if streamId = 0 then
    match i32Add c.remoteConnectionWindow increment with
    | some w => .ok { c with remoteConnectionWindow := w }
    | none => .error ⟨.FLOW_CONTROL_ERROR, "Overflow in connection flow control window size", true⟩
  else match c.getStream streamId with
    | none => .ok c
    | some s =>
      match i32Add s.state.remoteWindow increment with
      | some w => .ok (c.setStream streamId { s with state := { s.state with remoteWindow := w } })
      | none =>
        let st := { s.state with
          error := some ⟨.FLOW_CONTROL_ERROR, "Overflow in stream flow control window size", true⟩ }
        .ok (finishStream (c.setStream streamId { s with state := st }) streamId none)

/-! ## Runs -/

/-- A fresh connection: both windows at `INITIAL_CONNECTION_WINDOW_SIZE` and the default
settings, `INITIAL_WINDOW_SIZE = 65535` and `MAX_FRAME_SIZE = 16384` (`settings.rs:184-185`). -/
def ConnectionState.new (isServer : Bool) : ConnectionState where
  isServer := isServer
  localConnectionWindow := INITIAL_CONNECTION_WINDOW_SIZE
  remoteConnectionWindow := INITIAL_CONNECTION_WINDOW_SIZE
  localInitialWindowSize := 65535
  remoteInitialWindowSize := 65535
  remoteMaxFrameSize := 16384
  lastReceivedStreamId := 0
  lastSentStreamId := 0
  streams := []
  events := []
  written := []

/-- `ConnectionShared::new_stream` (`connection_shared.rs:279-320`): a stream whose windows
start at the two `INITIAL_WINDOW_SIZE` settings. -/
def newStream (c : ConnectionState) : Stream where
  hasIncomingResponseHandler := false
  sendingEndFlushed := false
  state := {
    error := none
    localWindow := c.localInitialWindowSize
    readerCancelled := false
    receivedBuffer := []
    receivedEnd := false
    receivedExpectedBytes := none
    receivedTotalBytes := 0
    remoteWindow := c.remoteInitialWindowSize
    writerCancelled := false
    sendingBuffer := []
    sendingTrailers := none
    sendingEnd := false }

/-- The window part of a server receiving request HEADERS on a new remote stream
(`connection_reader.rs:1358-1368`): the id is recorded and the stream opened;
`receive_request` then passes an empty body chunk through `receive_data_inner`. -/
def openRemoteStream (streamId : Nat) (endStream : Bool) (c : ConnectionState) : ConnectionState :=
  let s := newStream c
  let st := receiveData s [] 0 endStream s.state
  { c with lastReceivedStreamId := streamId, streams := c.streams ++ [(streamId, { s with state := st })] }

/-- What can happen on a connection: a frame arrives, the application reads a body, or the
writer task handles its next event. -/
inductive Event
  | headers (streamId : Nat) (endStream : Bool)
  | data (length streamId : Nat) (payload : List UInt8) (endStream : Bool)
  | windowUpdate (streamId increment : Nat)
  | read (streamId bufLen : Nat)
  | writerEvent
  | writerStreamWrite

/-- The writer handling the oldest queued `ConnectionEvent`. -/
def onEvent (c : ConnectionState) : Option ConnectionState :=
  match c.events with
  | [] => some c
  | .StreamRead id n :: rest => onStreamRead id n { c with events := rest }
  | .ResetStream id e :: rest => some { c with events := rest, written := c.written ++ [.rstStream id e] }

/-- One event. `none` is a panic, `.error` a connection error that ends the connection. -/
def step (c : ConnectionState) : Event → Option (Except ProtocolErrorV2 ConnectionState)
  | .headers id e => some (.ok (openRemoteStream id e c))
  | .data len id d e => receiveDataPacket len id d e c
  | .windowUpdate id n => some (receiveWindowUpdate id n c)
  | .read id n => (bodyRead id n c).map fun r => r.map (·.2)
  | .writerEvent => (onEvent c).map .ok
  | .writerStreamWrite => some (.ok (onStreamWrite c))

/-- A run of events from `c`. -/
def run (c : ConnectionState) : List Event → Option (Except ProtocolErrorV2 ConnectionState)
  | [] => some (.ok c)
  | ev :: evs =>
    match step c ev with
    | some (.ok c') => run c' evs
    | r => r

/-- The DATA bytes a list of events delivers. -/
def dataReceived : List Event → Nat
  | [] => 0
  | .data len _ _ _ :: evs => len + dataReceived evs
  | _ :: evs => dataReceived evs

/-- The connection-level increments among written frames. -/
def connectionIncrements : List Frame → Nat
  | [] => 0
  | .windowUpdate 0 n :: fs => n + connectionIncrements fs
  | _ :: fs => connectionIncrements fs

end Dacha.Http2
