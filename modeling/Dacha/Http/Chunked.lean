import Dacha.Http.Syntax
import Dacha.Http.Reader

/-!
# `IncomingChunkedBody` (`http/src/chunked.rs:27-206`)

| here | there |
| --- | --- |
| `ChunkState`, `CycleValue`, `IncomingChunkedBody` | `:28-58` |
| `IncomingChunkedBody.readCycle` | `read_cycle` (`:69-165`) |
| `IncomingChunkedBody.read` | `Readable::read` (`:189-206`): `read_cycle` until it reads |
| `IncomingChunkedBody.trailers` | `Body::trailers` (`:178-186`) |

A read returns the bytes it put in the caller's buffer. The loop of `read` calls `read_cycle`
while the state changes; a state change only moves down the order
`End > Start > Trailer > Done`, or to `Data`, which reads, so four rounds are enough and the
loop here has that fuel (`read.loop_congr`, `read_eq_loop`).

An `Err` of `read_cycle` leaves the state `Error`, where every later read returns `Err`
(`read_error_state`, `read_of_state_error`, `readAll_errors_after_error`). The chunk-size
line is parsed by `parse_chunk_start` inside `complete`, whose `unwrap` panics on a size of
`2^64` or more (`Syntax.lean`); that panic is not an `Err` and leaves `read` as it is
(`read_panics_of_chunkSize_overflow`), and it is the only panic `read` has
(`read_panic_eq`).
-/

namespace Dacha.Http

open Dacha.Parsing Parser

inductive ChunkState where
  | Start
  | Data (remainingLen : Nat)
  | End
  | Trailer
  | Done (trailers : Option (List Header))
  | Error
  deriving DecidableEq, Repr

/-- How many rounds of `read` a state can take before one reads: a state change only goes to a
lower rank. -/
def ChunkState.rank : ChunkState → Nat
  | .End => 4
  | .Start => 3
  | .Trailer => 2
  | _ => 1

theorem ChunkState.rank_pos (s : ChunkState) : 0 < s.rank := by
  cases s <;> simp [rank]

theorem ChunkState.rank_le (s : ChunkState) : s.rank ≤ 4 := by
  cases s <;> simp [rank]

/-- `CycleValue`: a state change, or the bytes read into the buffer. -/
inductive CycleValue where
  | StateChange
  | Read (data : List UInt8)
  deriving DecidableEq, Repr

structure IncomingChunkedBody where
  reader : PatternReader
  state : ChunkState
  deriving DecidableEq, Repr

namespace IncomingChunkedBody

def new (reader : PatternReader) : IncomingChunkedBody := ⟨reader, .Start⟩

/-- `read_cycle` with a buffer of `bufLen` bytes. -/
def readCycle (b : IncomingChunkedBody) (bufLen : Nat) : Outcome IncomingChunkedBody CycleValue :=
  match b.state with
  | .Start =>
    match b.reader.readMatching LineMatcher.any with
    | .panic msg => .panic msg
    | .ret (.error _) reader =>
      .ret (.error (.msg "IO error while reading chunk start line")) { b with reader }
    | .ret (.ok (.Value line)) reader =>
      match complete parseChunkStart line with
      | .ok head _ =>
        .ret (.ok .StateChange) ⟨reader, if head.size = 0 then .Trailer else .Data head.size⟩
      | .reject => .ret (.error (.msg "Invalid chunk start line")) { b with reader }
      | .panic msg => .panic msg
    | .ret (.ok _) reader => .ret (.error (.msg "Expected chunk start line")) { b with reader }
  | .Data remainingLen =>
    match b.reader.read (min remainingLen bufLen) with
    | (.error e, reader) => .ret (.error e) { b with reader }
    | (.ok data, reader) =>
      if data.length = 0 ∧ bufLen > 0 then
        .ret (.error (.msg "Reached end of stream before end of data")) { b with reader }
      else
        let newLen := remainingLen - data.length
        .ret (.ok (.Read data)) ⟨reader, if newLen = 0 then .End else .Data newLen⟩
  | .End =>
    match b.reader.readExact 2 with
    | (.error e, reader) => .ret (.error e) { b with reader }
    | (.ok crlf, reader) =>
      if crlf ≠ [0x0d, 0x0a] then
        .ret (.error (.msg "Expected CRLF after chunk data")) { b with reader }
      else .ret (.ok .StateChange) ⟨reader, .Start⟩
  | .Trailer =>
    match b.reader.readMatching LineMatcher.empty with
    | .panic msg => .panic msg
    | .ret (.error _) reader => .ret (.error (.msg "io error while reading trailer")) { b with reader }
    | .ret (.ok (.Value data)) reader =>
      match complete parseChunkEnd data with
      | .ok headers _ =>
        .ret (.ok .StateChange) ⟨reader, .Done (if headers = [] then none else some headers)⟩
      | .reject => .ret (.error (.msg "Invalid chunk trailer")) { b with reader }
      | .panic msg => .panic msg
    | .ret (.ok _) reader => .ret (.error (.msg "Expected trailer empty line")) { b with reader }
  | .Done _ => .ret (.ok (.Read [])) b
  | .Error => .ret (.error (.msg "Chunked body in an undefined state.")) b

/-- The loop of `read`, on fuel: `read_cycle` until it reads or fails; a failure leaves the
state `Error`. -/
def read.loop (bufLen : Nat) : Nat → IncomingChunkedBody → Outcome IncomingChunkedBody (List UInt8)
  | 0, b => .ret (.ok []) b
  | fuel + 1, b =>
    match b.readCycle bufLen with
    | .ret (.ok (.Read data)) b => .ret (.ok data) b
    | .ret (.ok .StateChange) b => read.loop bufLen fuel b
    | .ret (.error e) b => .ret (.error e) { b with state := .Error }
    | .panic msg => .panic msg

/-- `Readable::read` with a buffer of `bufLen` bytes. -/
def read (b : IncomingChunkedBody) (bufLen : Nat) : Outcome IncomingChunkedBody (List UInt8) :=
  read.loop bufLen 4 b

def trailers (b : IncomingChunkedBody) : Except Error (Option (List Header)) × IncomingChunkedBody :=
  match b.state with
  | .Done trailers => (.ok trailers, { b with state := .Error })
  | _ => (.error (.msg "Trailers already read or body not fully read"), b)

/-! ## The loop of `read` -/

/-- A state change lowers the rank of the state. -/
theorem readCycle_rank_lt {b b' : IncomingChunkedBody} {n : Nat}
    (h : b.readCycle n = .ret (.ok .StateChange) b') : b'.state.rank < b.state.rank := by
  unfold readCycle at h
  split at h
  · -- `Start` goes to `Trailer` or `Data`
    next hs =>
    rw [hs]
    split at h <;> try cases h
    split at h <;> cases h
    split <;> simp [ChunkState.rank]
  · -- `Data` reads or fails
    split at h
    · cases h
    · split at h <;> cases h
  · -- `End` goes back to `Start`
    next hs =>
    rw [hs]
    split at h
    · cases h
    · split at h <;> cases h
      simp [ChunkState.rank]
  · -- `Trailer` goes to `Done`
    next hs =>
    rw [hs]
    split at h <;> try cases h
    split at h <;> cases h
    simp [ChunkState.rank]
  · cases h
  · cases h

/-- Any fuel of at least the state's rank gives the same result: the loop never runs out. -/
theorem read.loop_congr (n : Nat) : ∀ (fuel fuel' : Nat) (b : IncomingChunkedBody),
    b.state.rank ≤ fuel → b.state.rank ≤ fuel' → read.loop n fuel b = read.loop n fuel' b
  | 0, _, b, h, _ => absurd h (Nat.not_le_of_lt b.state.rank_pos)
  | _ + 1, 0, b, _, h' => absurd h' (Nat.not_le_of_lt b.state.rank_pos)
  | fuel + 1, fuel' + 1, b, h, h' => by
    unfold read.loop
    split
    · rfl
    · next b' hcycle =>
      have hlt := readCycle_rank_lt hcycle
      exact read.loop_congr n fuel fuel' b' (by omega) (by omega)
    · rfl
    · rfl

theorem read_eq_loop (b : IncomingChunkedBody) (n : Nat) {fuel : Nat} (h : b.state.rank ≤ fuel) :
    b.read n = read.loop n fuel b :=
  read.loop_congr n 4 fuel b b.state.rank_le h

/-! ## Errors -/

/-- The error of a read in the state `Error`. -/
def undefinedStateError : Error := .msg "Chunked body in an undefined state."

theorem read.loop_error_state (n : Nat) : ∀ (fuel : Nat) (b b' : IncomingChunkedBody) (e : Error),
    read.loop n fuel b = .ret (.error e) b' → b'.state = .Error
  | 0, _, _, _, h => by cases h
  | fuel + 1, b, b', e, h => by
    unfold read.loop at h
    split at h
    · cases h
    · exact read.loop_error_state n fuel _ _ _ h
    · cases h
      rfl
    · cases h

/-- A read that returns `Err` leaves the body in the state `Error`. -/
theorem read_error_state {b b' : IncomingChunkedBody} {n : Nat} {e : Error}
    (h : b.read n = .ret (.error e) b') : b'.state = .Error :=
  read.loop_error_state n 4 b b' e h

/-- In the state `Error`, a read returns `Err` and changes nothing. -/
theorem read_of_state_error {b : IncomingChunkedBody} (h : b.state = .Error) (n : Nat) :
    b.read n = .ret (.error undefinedStateError) b := by
  have hcycle : b.readCycle n = .ret (.error undefinedStateError) b := by
    unfold readCycle
    rw [h]
    rfl
  have hself : { b with state := .Error } = b := by
    cases b
    simp only at h
    rw [h]
  unfold read read.loop
  simp only [hcycle, hself]

/-- The results of successive reads with the buffer sizes `ns`, up to the first panic. -/
def readAll (b : IncomingChunkedBody) : List Nat → List (Except Error (List UInt8))
  | [] => []
  | n :: ns =>
    match b.read n with
    | .ret r b => r :: readAll b ns
    | .panic _ => []

theorem readAll_of_state_error {b : IncomingChunkedBody} (h : b.state = .Error) :
    ∀ ns, readAll b ns = ns.map fun _ => .error undefinedStateError
  | [] => rfl
  | n :: ns => by
    simp only [readAll, read_of_state_error h n, List.map_cons, readAll_of_state_error h ns]

/-- Once a read has returned `Err`, every later read returns `Err`. -/
theorem readAll_errors_after_error :
    ∀ (b : IncomingChunkedBody) (ns : List Nat),
      ∀ r ∈ (readAll b ns).dropWhile Except.isOk, r.isOk = false
  | _, [] => by simp [readAll]
  | b, n :: ns => by
    intro r hr
    unfold readAll at hr
    split at hr
    · next res b' hread =>
      cases res with
      | ok data =>
        rw [List.dropWhile_cons_of_pos (by rfl)] at hr
        exact readAll_errors_after_error b' ns r hr
      | error e =>
        rw [List.dropWhile_cons_of_neg (by simp [Except.isOk, Except.toBool]),
          readAll_of_state_error (read_error_state hread)] at hr
        rcases List.mem_cons.mp hr with rfl | hr
        · rfl
        · obtain ⟨_, _, rfl⟩ := List.mem_map.mp hr
          rfl
    · simp at hr

/-! ## Panics -/

/-- `read_cycle` panics only in `parse_chunk_size`. -/
theorem readCycle_panic_eq {b : IncomingChunkedBody} {n : Nat} {msg : String}
    (h : b.readCycle n = .panic msg) : msg = unwrapPosOverflow := by
  unfold readCycle at h
  split at h
  · split at h
    · next msg' hm => exact absurd hm (PatternReader.readMatching_ne_panic _ _ msg')
    · cases h
    · split at h
      · cases h
      · cases h
      · cases h
        exact PanicsOnly.complete parseChunkStart_panicsOnly _ _ ‹_›
    · cases h
  · split at h
    · cases h
    · split at h <;> cases h
  · split at h
    · cases h
    · split at h <;> cases h
  · split at h
    · next msg' hm => exact absurd hm (PatternReader.readMatching_ne_panic _ _ msg')
    · cases h
    · split at h
      · cases h
      · cases h
      · cases h
        exact PanicsOnly.complete (@parseChunkEnd_panicsOnly (· = unwrapPosOverflow)) _ _ ‹_›
    · cases h
  · cases h
  · cases h

theorem read.loop_panic_eq (n : Nat) : ∀ (fuel : Nat) (b : IncomingChunkedBody) (msg : String),
    read.loop n fuel b = .panic msg → msg = unwrapPosOverflow
  | 0, _, _, h => by cases h
  | fuel + 1, b, msg, h => by
    unfold read.loop at h
    split at h
    · cases h
    · exact read.loop_panic_eq n fuel _ _ h
    · cases h
    · next hcycle =>
      cases h
      exact readCycle_panic_eq hcycle

/-- In `Start`, a chunk-size line whose size is `2^64` or more makes `read` panic, whatever the
buffer. -/
theorem read_panics_of_chunkSize_overflow {b : IncomingChunkedBody} {line : List UInt8}
    {r : PatternReader} (hs : b.state = .Start)
    (hline : b.reader.readMatching LineMatcher.any = .ret (.ok (.Value line)) r)
    (h : 2 ^ 64 ≤ hexValue (line.takeWhile isHexDigit)) (n : Nat) :
    b.read n = .panic unwrapPosOverflow := by
  have hparse : complete parseChunkStart line = .panic unwrapPosOverflow :=
    complete_of_panic ((parseChunkStart_eq_panic_iff line _).mpr ⟨rfl, h⟩)
  have hcycle : b.readCycle n = .panic unwrapPosOverflow := by
    unfold readCycle
    rw [hs]
    dsimp only
    rw [hline]
    dsimp only
    rw [hparse]
  unfold read read.loop
  rw [hcycle]

end IncomingChunkedBody

/-- A chunk-size line of seventeen hex digits, `10000000000000000` (that is `2^64`), and its CRLF. -/
def overflowingChunkLine : List UInt8 := [0x31] ++ List.replicate 16 0x30 ++ [0x0d, 0x0a]

set_option maxRecDepth 10000 in
/-- A chunked body whose stream starts with that line panics on its first read, whatever the
buffer: `parse_chunk_size` unwraps `from_str_radix`'s `PosOverflow`. -/
theorem seventeen_digit_chunk_size_panics (n : Nat) :
    (IncomingChunkedBody.new (PatternReader.new [.data overflowingChunkLine]
      StreamBufferOptions.default)).read n = .panic unwrapPosOverflow :=
  @IncomingChunkedBody.read_panics_of_chunkSize_overflow _ overflowingChunkLine
    ⟨[], [], StreamBufferOptions.default⟩ rfl (by decide) (by decide) n

end Dacha.Http
