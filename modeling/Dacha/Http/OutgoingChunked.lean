import Dacha.Http.Chunked
import Dacha.Hpack.Codec

/-!
# `OutgoingChunkedBody` (`http/src/chunked.rs:208-329`)

| here | there |
| --- | --- |
| `InnerBody` | the `Box<dyn Body>` the encoder wraps, with the two calls it makes on it |
| `cursorBody` | `Cursor<T>` as a body (`body.rs:50-69`, `common/src/io.rs:620-625`): `BodyFromData`, `EmptyBody` |
| `BufferQueue`, `BufferQueue.copyTo` | `compression/src/buffer_queue.rs:7-41` |
| `serializeToken`, `Header.serialize`, `serializeHeaders` | `serialize_token` (`message_syntax.rs:392-401`), `Header::serialize` (`header.rs:78-82`), `Headers::serialize` (`header.rs:234-251`) |
| `OutgoingChunkState`, `OutgoingChunkedBody` | `:208-229` |
| `chunkSizeToString` | `chunk_size_to_string` (`:231-233`) |
| `OutgoingChunkedBody.encodeChunk` | the loop of `read` after the queue came back empty (`:279-326`) |
| `OutgoingChunkedBody.read` | `Readable::read` (`:253-329`) |

A `BufferQueue` keeps the offset of its first byte not yet copied out inside its buffer, and
clears the buffer once all of it is copied; the structure carries that as a field. The loop of
`read` copies out what is queued, or else queues one chunk of the inner body (with its size line
and CRLF) and goes round again. What it queues is never empty, so the second round copies
something out and the loop has fuel 2 (`read.loop_succ_succ`).

Nothing sets the state to `Done`. After the last chunk the state stays `Data`, and a later read
reads the inner body again. At its end it reads nothing, so `read` queues another last chunk and
its trailers and returns them. From any state but `Done` a read with a non-empty buffer returns
`Err` or some bytes, and never moves to `Done` (`read_cases`). So no sequence of reads with
non-empty buffers ever returns `Ok(0)` (`readAll_ne_ok_nil`). `write_body` (`spec.rs:22-35`)
reads until a read returns 0, and it never stops. Over `BodyFromData(b"abc")`, reads with
1024-byte buffers return `3\r\nabc\r\n`, then `0\r\n\r\n` again and again
(`cursor_body_repeats_last_chunk`).
-/

namespace Dacha.Http

open Dacha.Hpack (eqIgnoreAsciiCase ascii)

/-- The `Box<dyn Body>` under the encoder, with the two calls the encoder makes on it. -/
structure InnerBody (β : Type) where
  /-- `Readable::read` into a buffer of `n` bytes: the bytes it put there -/
  read : β → Nat → Except Error (List UInt8) × β
  /-- `Body::trailers` -/
  trailers : β → Except Error (Option (List Header)) × β

/-- `Cursor<T>` as a body, over the bytes after its position. -/
def cursorBody : InnerBody (List UInt8) where
  read rest n := (.ok (rest.take n), rest.drop n)
  trailers rest := (.ok none, rest)

structure BufferQueue where
  buffer : List UInt8
  bufferOffset : Nat
  /-- The offset is inside the buffer, which is cleared once all of it is copied out. -/
  offset_valid : bufferOffset < buffer.length ∨ (buffer = [] ∧ bufferOffset = 0)

namespace BufferQueue

theorem offset_le (q : BufferQueue) : q.bufferOffset ≤ q.buffer.length := by
  rcases q.offset_valid with h | ⟨h, h0⟩
  · exact h.le
  · rw [h0]; exact Nat.zero_le _

def new : BufferQueue := ⟨[], 0, .inr ⟨rfl, rfl⟩⟩

/-- `copy_to` into a buffer of `n` bytes: the bytes copied out. -/
def copyTo (q : BufferQueue) (n : Nat) : List UInt8 × BufferQueue :=
  let k := min (q.buffer.length - q.bufferOffset) n
  let out := (q.buffer.drop q.bufferOffset).take k
  if h : q.bufferOffset + k = q.buffer.length then (out, new)
  else (out, ⟨q.buffer, q.bufferOffset + k, .inl (by have := q.offset_le; omega)⟩)

/-- `buffer.extend_from_slice(bytes)` -/
def extend (q : BufferQueue) (bytes : List UInt8) : BufferQueue :=
  ⟨q.buffer ++ bytes, q.bufferOffset, by
    rcases q.offset_valid with h | ⟨h, h0⟩
    · exact .inl (by simp only [List.length_append]; omega)
    · rw [h, List.nil_append, h0]
      rcases bytes with _ | ⟨b, bytes⟩
      · exact .inr ⟨rfl, rfl⟩
      · exact .inl (by simp)⟩

/-- With bytes queued, a non-empty buffer gets some of them. -/
theorem copyTo_ne_nil {q : BufferQueue} (hq : q.bufferOffset < q.buffer.length) {n : Nat}
    (hn : 0 < n) : (q.copyTo n).1 ≠ [] := by
  have hk : 0 < min (q.buffer.length - q.bufferOffset) n := by omega
  unfold copyTo
  dsimp only
  split <;>
  · rw [Ne, List.take_eq_nil_iff]
    simp only [List.drop_eq_nil_iff, not_or]
    omega

/-- Queued bytes lie after the offset. -/
theorem offset_lt_extend (q : BufferQueue) {bytes : List UInt8} (h : bytes ≠ []) :
    (q.extend bytes).bufferOffset < (q.extend bytes).buffer.length := by
  have := q.offset_le
  have := List.length_pos_of_ne_nil h
  simp only [extend, List.length_append]
  omega

end BufferQueue

/-! ## Headers -/

def serializeToken (value : List UInt8) : Except Error (List UInt8) :=
  match value.find? fun b => !isTchar b with
  | some byte =>
    let digits := String.ofList (Nat.toDigits 16 byte.toNat)
    .error (.msg s!"Invalid character in token: 0x{digits}")
  | none => .ok value

/-- `Header::serialize`: `serialize_header_field`, then a CRLF. -/
def Header.serialize (h : Header) : Except Error (List UInt8) := do
  let name ← serializeToken h.name
  pure (name ++ [0x3a, 0x20] ++ serializeFieldValueInternal h.value ++ [0x0d, 0x0a])

def HOST : List UInt8 := ascii "Host"

/-- `Headers::serialize`: the `Host` headers first, then the others. -/
def serializeHeaders (headers : List Header) : Except Error (List UInt8) := do
  let hosts ← (headers.filter fun h => eqIgnoreAsciiCase h.name HOST).mapM Header.serialize
  let others ← (headers.filter fun h => !eqIgnoreAsciiCase h.name HOST).mapM Header.serialize
  pure (hosts.flatten ++ others.flatten)

/-! ## The encoder -/

inductive OutgoingChunkState where
  | Data
  | Error
  | Done
  deriving DecidableEq, Repr

structure OutgoingChunkedBody (β : Type) where
  innerBody : β
  buffer : BufferQueue
  state : OutgoingChunkState

def MIN_CHUNK_SIZE : Nat := 512

/-- `chunk_size_to_string`: `format!("{:x}", size)`. -/
def chunkSizeToString (size : Nat) : List UInt8 := ascii (String.ofList (Nat.toDigits 16 size))

theorem chunkSizeToString_ne_nil (size : Nat) : chunkSizeToString size ≠ [] := by
  simp [chunkSizeToString, ascii, Nat.toDigits_ne_nil]

namespace OutgoingChunkedBody

variable {β : Type} (inner : InnerBody β)

def new (body : β) : OutgoingChunkedBody β := ⟨body, BufferQueue.new, .Data⟩

/-- `b"\r\n"` -/
def crlf : List UInt8 := [0x0d, 0x0a]

/-- The loop of `read` once the queue came back empty: a chunk of the inner body is queued with
its size line and CRLF, and at the body's end the last chunk and the trailers. -/
def encodeChunk (b : OutgoingChunkedBody β) (bufLen : Nat) : Outcome (OutgoingChunkedBody β) Unit :=
  let chunkOverhead := (chunkSizeToString (max bufLen MIN_CHUNK_SIZE)).length + 4
  -- `checked_sub(..).unwrap_or(0)` is the truncated subtraction
  let targetChunkSize := max (bufLen - chunkOverhead) MIN_CHUNK_SIZE
  match inner.read b.innerBody targetChunkSize with
  | (.error e, innerBody) => .ret (.error e) { b with innerBody, state := .Error }
  | (.ok data, innerBody) =>
    let chunkSize := data.length
    if targetChunkSize < chunkSize then
      .panic s!"range end index {chunkSize} out of range for slice of length {targetChunkSize}"
    else
      let head := chunkSizeToString chunkSize ++ crlf
      if chunkSize = 0 then
        match inner.trailers innerBody with
        | (.error e, innerBody) =>
          .ret (.error e) { b with innerBody, buffer := b.buffer.extend head, state := .Error }
        | (.ok none, innerBody) =>
          .ret (.ok ()) { b with innerBody, buffer := b.buffer.extend (head ++ crlf) }
        | (.ok (some headers), innerBody) =>
          -- on an error, the headers serialized before it also stay queued, unread in `Error`
          match serializeHeaders headers with
          | .error e =>
            .ret (.error e) { b with innerBody, buffer := b.buffer.extend head, state := .Error }
          | .ok bytes =>
            .ret (.ok ()) { b with innerBody, buffer := b.buffer.extend (head ++ bytes ++ crlf) }
      else .ret (.ok ()) { b with innerBody, buffer := b.buffer.extend (head ++ data ++ crlf) }

/-- The loop of `read`, on fuel: copy out what is queued, or else queue the next chunk. -/
def read.loop (bufLen : Nat) :
    Nat → OutgoingChunkedBody β → Outcome (OutgoingChunkedBody β) (List UInt8)
  | 0, b => .ret (.ok []) b
  | fuel + 1, b =>
    let (out, buffer) := b.buffer.copyTo bufLen
    if out.length > 0 then .ret (.ok out) { b with buffer }
    else
      match encodeChunk inner { b with buffer } bufLen with
      | .ret (.ok ()) b => read.loop bufLen fuel b
      | .ret (.error e) b => .ret (.error e) b
      | .panic msg => .panic msg

/-- `Readable::read` with a buffer of `bufLen` bytes. -/
def read (b : OutgoingChunkedBody β) (bufLen : Nat) :
    Outcome (OutgoingChunkedBody β) (List UInt8) :=
  match b.state with
  | .Error => .ret (.error (.msg "An error previously occured while encodidng the body")) b
  | .Done =>
    let (out, buffer) := b.buffer.copyTo bufLen
    .ret (.ok out) { b with buffer }
  | .Data => if bufLen = 0 then .ret (.ok []) b else read.loop inner bufLen 2 b

/-- The results of successive reads with the buffer sizes `ns`, up to the first panic. -/
def readAll (b : OutgoingChunkedBody β) : List Nat → List (Except Error (List UInt8))
  | [] => []
  | n :: ns =>
    match read inner b n with
    | .ret r b => r :: readAll b ns
    | .panic _ => []

/-! ## Reads -/

variable {inner} {b b' : OutgoingChunkedBody β} {n : Nat}

/-- `encodeChunk` queues some bytes and keeps the state, or fails and leaves the state `Error`. -/
theorem encodeChunk_cases {r : Except Error Unit} (h : encodeChunk inner b n = .ret r b') :
    (r = .ok () ∧ b'.buffer.bufferOffset < b'.buffer.buffer.length ∧ b'.state = b.state) ∨
      (∃ e, r = .error e ∧ b'.state = .Error) := by
  have hhead (k : Nat) (rest : List UInt8) : chunkSizeToString k ++ rest ≠ [] := by
    simp [chunkSizeToString_ne_nil]
  unfold encodeChunk at h
  dsimp only at h
  split at h
  · cases h
    exact .inr ⟨_, rfl, rfl⟩
  · split at h
    · cases h
    · split at h
      · -- the inner body is at its end: the last chunk and the trailers
        split at h
        · cases h
          exact .inr ⟨_, rfl, rfl⟩
        · cases h
          exact .inl ⟨rfl, BufferQueue.offset_lt_extend _ (by simp [List.append_assoc, hhead]),
            rfl⟩
        · split at h
          · cases h
            exact .inr ⟨_, rfl, rfl⟩
          · cases h
            exact .inl ⟨rfl, BufferQueue.offset_lt_extend _ (by simp [List.append_assoc, hhead]),
              rfl⟩
      · cases h
        exact .inl ⟨rfl, BufferQueue.offset_lt_extend _ (by simp [List.append_assoc, hhead]), rfl⟩

/-- With bytes queued, the loop copies some out at once. -/
theorem read.loop_of_queued (hq : b.buffer.bufferOffset < b.buffer.buffer.length) (hn : 0 < n)
    (fuel : Nat) :
    read.loop inner n (fuel + 1) b =
      .ret (.ok (b.buffer.copyTo n).1) { b with buffer := (b.buffer.copyTo n).2 } := by
  have hout := BufferQueue.copyTo_ne_nil hq hn
  simp only [read.loop, List.length_pos_iff.mpr hout, if_true]

/-- The loop never needs more than two rounds. -/
theorem read.loop_succ_succ (hn : 0 < n) (fuel : Nat) :
    read.loop inner n (fuel + 2) b = read.loop inner n 2 b := by
  unfold read.loop
  dsimp only
  split
  · rfl
  · split
    · next b₁ hb₁ =>
      have hq := ((encodeChunk_cases hb₁).resolve_right (by simp)).2.1
      rw [read.loop_of_queued hq hn, read.loop_of_queued hq hn]
    · rfl
    · rfl

/-- A read with a non-empty buffer, from any state but `Done`, returns some bytes and stays in
`Data`, or returns `Err` and leaves the state `Error`. -/
theorem read_cases (hs : b.state ≠ .Done) (hn : 0 < n) {r : Except Error (List UInt8)}
    (h : read inner b n = .ret r b') :
    (∃ out, r = .ok out ∧ out ≠ [] ∧ b'.state = .Data) ∨
      (∃ e, r = .error e ∧ b'.state = .Error) := by
  unfold read at h
  split at h
  · next hstate =>
    cases h
    exact .inr ⟨_, rfl, hstate⟩
  · contradiction
  · next hstate =>
    rw [if_neg (by omega)] at h
    unfold read.loop at h
    dsimp only at h
    split at h
    · next hout =>
      cases h
      exact .inl ⟨_, rfl, List.ne_nil_of_length_pos hout, hstate⟩
    · split at h
      · next b₁ hb₁ =>
        obtain ⟨-, hq, hstate₁⟩ := (encodeChunk_cases hb₁).resolve_right (by simp)
        rw [read.loop_of_queued hq hn] at h
        cases h
        exact .inl ⟨_, rfl, BufferQueue.copyTo_ne_nil hq hn, hstate₁.trans hstate⟩
      · next e b₁ hb₁ =>
        cases h
        obtain ⟨_, he, hstate₁⟩ := (encodeChunk_cases hb₁).resolve_left (by simp)
        exact .inr ⟨_, rfl, hstate₁⟩
      · cases h

/-- No run of reads with non-empty buffers, from any state but `Done`, ever returns `Ok(0)`. -/
theorem readAll_ne_ok_nil : ∀ {b : OutgoingChunkedBody β} {ns : List Nat}, b.state ≠ .Done →
    (∀ n ∈ ns, 0 < n) → .ok [] ∉ readAll inner b ns
  | _, [], _, _ => by simp [readAll]
  | b, n :: ns, hs, hns => by
    unfold readAll
    split
    · next r b' hread =>
      have hcase := read_cases hs (hns n (by simp)) hread
      have hs' : b'.state ≠ .Done := by
        rcases hcase with ⟨_, _, _, h⟩ | ⟨_, _, h⟩ <;> rw [h] <;> decide
      have hr : r ≠ .ok [] := by
        rcases hcase with ⟨out, rfl, hout, _⟩ | ⟨e, rfl, _⟩
        · exact fun h => hout (Except.ok.inj h)
        · simp
      rw [List.mem_cons, not_or]
      exact ⟨Ne.symm hr, readAll_ne_ok_nil hs' fun m hm => hns m (List.mem_cons_of_mem _ hm)⟩
    · simp

/-- Over `BodyFromData(b"abc")`, reads with 1024-byte buffers give the chunk, then the last chunk
again and again. -/
theorem cursor_body_repeats_last_chunk :
    readAll cursorBody (new (ascii "abc")) [1024, 1024, 1024, 1024] =
      [.ok (ascii "3\r\nabc\r\n"), .ok (ascii "0\r\n\r\n"), .ok (ascii "0\r\n\r\n"),
        .ok (ascii "0\r\n\r\n")] := by
  decide

end OutgoingChunkedBody

end Dacha.Http
