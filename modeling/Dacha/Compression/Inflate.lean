import Mathlib
import Dacha.Compression.BitReader

/-!
# `Inflater` (`compression/src/deflate/inflate.rs`)

| here | there |
| --- | --- |
| `readLen`, `readDistance`, `fixedHuffmanLenlitTree`, `fixedHuffmanDistTree` | `shared.rs:45-100`, `:151-164` |
| `CyclicBuffer` | `cyclic_buffer.rs:12-92` |
| `State`, `LenDist`, `BlockHeader`, `OutputBuffer`, `ReadCodesResult`, `Inflater` | `:25-102` |
| `Machine`, `InflateM` | what `update_inner` works on: `self`, `strm` and `out` |
| `Inflater.isDone` | `is_done` (`:181-189`) |
| `updateInner` | `update_inner` (`:194-333`) |
| `readBlockHeader`, `readUncompressedHeader` | `read_block_header`, `read_uncompressed_header` (`:335-359`) |
| `readCodeLenCodeLens` | the `for i in 0..*hclen` loop (`:269-272`) |
| `readDynamicLensLoop`, `readDynamicLens` | `read_dynamic_lens` (`:361-405`) |
| `readBlockCodesLoop`, `readBlockCodes` | `read_block_codes` (`:408-446`) |
| `copyBack`, `readReference` | `read_reference` (`:451-500`) |
| `updateLoop`, `Inflater.update` | the loop of `update_impl`, `update_impl` (`:116-179`) |
| `Inflater.run` | successive `Transform::update` calls (`:503-512`) |

A step of the inflater is an `InflateM`: it panics (`none`), or it ends with a value or an error,
with the inflater, the reader and the output buffer as the step left them. The source mutates all
three through `&mut`, and an error does not undo what came before it: bytes a step wrote stay
written, and a reader that ran out of bits has pulled the whole input. `update_impl` treats
`NotEnoughBits` as the end of the call, keeps the state the failed step started from (a step
assigns `self.state` only at its end) and hands the unconsumed bits to the next call.

The output buffer is the bytes written so far and the room there is; the cyclic window is
everything ever written to it, of which its offsets `start_offset..end_offset` are what the array
holds and all that `read_reference` indexes. The loops run on fuel that cannot run out first: a
pass of `update_impl` reads a bit or writes a byte, and a pass of `read_dynamic_lens` pushes a
length or more.

`read_dynamic_lens` panics on repeat code 16 before any length (`lens.last().unwrap()`). A first
call reaches it on a dynamic header of four bytes, whatever follows them: the last section reads
the header step by step from the bits the reader gives.
-/

namespace Dacha.Compression

open BitReader

/-! ## `shared.rs` -/

def BTYPE_NO_COMPRESSION : Nat := 0

def BTYPE_FIXED_CODES : Nat := 1

def MAX_REFERENCE_DISTANCE : Nat := 32768

def END_OF_BLOCK : Nat := 256

def CODE_LEN_CODE_LEN_ORDERING : List Nat :=
  [16, 17, 18, 0, 8, 7, 9, 6, 10, 5, 11, 4, 12, 3, 13, 2, 14, 1, 15]

def fixedHuffmanLenlitTree : Option (Except String HuffmanTree) :=
  HuffmanTree.fromCanonicalLens
    (List.replicate 144 8 ++ List.replicate 112 9 ++ List.replicate 24 7 ++ List.replicate 8 8)

def fixedHuffmanDistTree : Option (Except String HuffmanTree) :=
  HuffmanTree.fromCanonicalLens (List.replicate 32 5)

/-- `read_len(code)`: a length code and its extra bits. -/
def readLen (code : Nat) : BitRead Nat :=
  if 257 ≤ code ∧ code ≤ 264 then pure (code - 257 + 3)
  else if 265 ≤ code ∧ code ≤ 268 then do
    let b ← readBitsExact 1
    pure (2 * (code - 265) + b + 11)
  else if 269 ≤ code ∧ code ≤ 272 then do
    let b ← readBitsExact 2
    pure (4 * (code - 269) + b + 19)
  else if 273 ≤ code ∧ code ≤ 276 then do
    let b ← readBitsExact 3
    pure (8 * (code - 273) + b + 35)
  else if 277 ≤ code ∧ code ≤ 280 then do
    let b ← readBitsExact 4
    pure (16 * (code - 277) + b + 67)
  else if 281 ≤ code ∧ code ≤ 284 then do
    let b ← readBitsExact 5
    pure (32 * (code - 281) + b + 131)
  else if code = 285 then pure 258
  else throw (.msg "Invalid length code")

/-- `read_distance(code)`: a distance code and its extra bits. -/
def readDistance (code : Nat) : BitRead Nat :=
  if code ≤ 3 then pure (code + 1)
  else if code ≤ 29 then do
    let nbits := (code - 4) / 2 + 1
    let mul := 2 ^ nbits
    let start := mul * 2 + 1
    let b ← readBitsExact nbits
    pure (mul * (code % 2) + start + b)
  else throw (.msg "Invalid distance code")

/-! ## The window -/

/-- `CyclicBuffer`: its size, and every byte ever written to it. -/
structure CyclicBuffer where
  size : Nat
  written : List UInt8
  deriving DecidableEq, Repr

namespace CyclicBuffer

def new (size : Nat) : CyclicBuffer := ⟨size, []⟩

def endOffset (w : CyclicBuffer) : Nat := w.written.length

def startOffset (w : CyclicBuffer) : Nat :=
  if w.endOffset > w.size then w.endOffset - w.size else 0

/-- `index`, at an offset from `start_offset` to `end_offset`. -/
def get (w : CyclicBuffer) (idx : Nat) : UInt8 := w.written.getD idx 0

def extendFromSlice (w : CyclicBuffer) (data : List UInt8) : CyclicBuffer :=
  { w with written := w.written ++ data }

end CyclicBuffer

/-! ## The inflater -/

structure LenDist where
  len : Nat
  dist : Nat
  deriving DecidableEq, Repr

/-- `State`: what the inflater reads next. -/
inductive State where
  | start
  | uncompressedHeader
  | uncompressedBlock (numRemaining : Nat)
  | dynamicBlockHeader
  | dynamicBlockCodeLenCodeLens (hlit hdist hclen : Nat)
  | dynamicBlockCodeLens (hlit hdist : Nat) (codeLenTree : HuffmanTree)
  | compressedBlockBody (litlenTree distTree : HuffmanTree) (pendingRef : Option LenDist)
  deriving DecidableEq, Repr

structure BlockHeader where
  bfinal : Bool
  btype : Nat
  deriving DecidableEq, Repr

/-- `OutputBuffer`: the bytes written, `out.buf[0..out.index]`, and the buffer's length. -/
structure OutputBuffer where
  cap : Nat
  data : List UInt8
  deriving DecidableEq, Repr

def OutputBuffer.index (out : OutputBuffer) : Nat := out.data.length

inductive ReadCodesResult where
  | done
  | notDone
  | reference (r : LenDist)
  deriving DecidableEq, Repr

structure Inflater where
  state : State
  finalSeen : Bool
  inputPrefix : Option BitReaderRawState
  outputWindow : CyclicBuffer
  deriving DecidableEq, Repr

def Inflater.new : Inflater := ⟨.start, false, none, CyclicBuffer.new MAX_REFERENCE_DISTANCE⟩

/-- `is_done`: the final block has been read to its end. -/
def Inflater.isDone (s : Inflater) : Bool :=
  match s.state with
  | .start => s.finalSeen
  | _ => false

/-- What a step of the inflater works on. -/
structure Machine where
  inflater : Inflater
  strm : BitReader
  out : OutputBuffer
  deriving DecidableEq, Repr

/-- A step of the inflater: a panic (`none`), or a value or an error, with the machine after it. -/
abbrev InflateM (α : Type) := ExceptT CodeError (StateT Machine Option) α

/-- A read of the reader, inside a step. -/
def readStrm {α : Type} (x : BitRead α) : InflateM α := fun m =>
  let (res, strm) := x.run.run m.strm
  some (res, { m with strm })

/-- A value the source unwraps or asserts: `none` panics. -/
def orPanic {α : Type} (x : Option α) : InflateM α := fun m => x.map fun a => (.ok a, m)

/-- `HuffmanTree::from_canonical_lens(lens)?`. -/
def treeFromLens (lens : List Nat) : InflateM HuffmanTree := do
  match ← orPanic (HuffmanTree.fromCanonicalLens lens) with
  | .ok t => pure t
  | .error e => throw (.msg e)

/-- The state `update_inner` stores. -/
def setState (s : State) : InflateM Unit :=
  modify fun m => { m with inflater := { m.inflater with state := s } }

def readBlockHeader : BitRead BlockHeader := do
  let bfinal ← readBitsExact 1
  let btype ← readBitsExact 2
  pure ⟨bfinal ≠ 0, btype⟩

/-- `read_uncompressed_header`: `LEN` and its complement `NLEN`, little endian. -/
def readUncompressedHeader : BitRead Nat := do
  modify alignToByte
  modify consume
  let data ← readBytesExact 4
  let len := (data.getD 0 0).toNat + (data.getD 1 0).toNat * 256
  let nlen := (data.getD 2 0).toNat + (data.getD 3 0).toNat * 256
  if len ≠ 65535 - nlen then throw (.msg "Uncompressed block lengths do not match")
  pure len

/-- The code length code lengths: `hclen` of three bits, in the order of
`CODE_LEN_CODE_LEN_ORDERING`, the others zero. -/
def readCodeLenCodeLens (hclen : Nat) : BitRead (List Nat) :=
  (List.range hclen).foldlM (fun lens i => do
    let l ← readBitsExact 3
    pure (lens.set (CODE_LEN_CODE_LEN_ORDERING.getD i 0) l)) (List.replicate 19 0)

/-- The loop of `read_dynamic_lens`, for at most `fuel` more passes. -/
def readDynamicLensLoop (codeLenTree : HuffmanTree) (nsymbols : Nat) :
    Nat → List Nat → InflateM (List Nat)
  | 0, lens => pure lens
  | fuel + 1, lens =>
    if lens.length < nsymbols then do
      let c ← readStrm codeLenTree.readCodeFrom
      let lens ←
        if c ≤ 15 then pure (lens ++ [c])
        else if c = 16 then do
          let n := 3 + (← readStrm (readBitsExact 2))
          -- `lens.last().unwrap()`
          let l ← orPanic lens.getLast?
          pure (lens ++ List.replicate n l)
        else if c = 17 then do
          let n := 3 + (← readStrm (readBitsExact 3))
          pure (lens ++ List.replicate n 0)
        else if c = 18 then do
          let n := 11 + (← readStrm (readBitsExact 7))
          pure (lens ++ List.replicate n 0)
        else throw (.msg ("Invalid code len code " ++ toString c))
      readDynamicLensLoop codeLenTree nsymbols fuel lens
    else pure lens

/-- `read_dynamic_lens`: `nsymbols` code lengths; a repetition past them fails the assert. -/
def readDynamicLens (codeLenTree : HuffmanTree) (nsymbols : Nat) : InflateM (List Nat) := do
  let lens ← readDynamicLensLoop codeLenTree nsymbols nsymbols []
  -- `assert_eq!(nsymbols, lens.len())`
  orPanic (if nsymbols = lens.length then some () else none)
  pure lens

/-- The loop of `read_block_codes`, for at most `fuel` more passes. -/
def readBlockCodesLoop (litlenTree distTree : HuffmanTree) : Nat → InflateM ReadCodesResult
  | 0 => pure .notDone
  | fuel + 1 => do
    let m ← get
    if m.out.index < m.out.cap then
      let code ← readStrm litlenTree.readCodeFrom
      if code < END_OF_BLOCK then
        modify fun m => { m with out := { m.out with data := m.out.data ++ [UInt8.ofNat code] },
                                 strm := m.strm.consume }
        readBlockCodesLoop litlenTree distTree fuel
      else if code = END_OF_BLOCK then
        modify fun m => { m with strm := m.strm.consume }
        pure .done
      else
        let len ← readStrm (readLen code)
        let distCode ← readStrm distTree.readCodeFrom
        let dist ← readStrm (readDistance distCode)
        modify fun m => { m with strm := m.strm.consume }
        if dist > MAX_REFERENCE_DISTANCE then throw (.msg "Distance larger than window size")
        pure (.reference ⟨len, dist⟩)
    else pure .notDone

/-- `read_block_codes`: literals until the block ends, a reference, or the output is full. -/
def readBlockCodes (litlenTree distTree : HuffmanTree) : InflateM ReadCodesResult := do
  let m ← get
  readBlockCodesLoop litlenTree distTree (m.out.cap - m.out.index)

/-- The copy loop `out.buf[out.index] = out.buf[i]` for `n` values of `i` from `i`: a byte it
writes may be read again further on. -/
def copyBack : Nat → Nat → List UInt8 → List UInt8
  | 0, _, data => data
  | n + 1, i, data => copyBack n (i + 1) (data ++ [data.getD i 0])

/-- `read_reference`: the bytes `dist` back, first those of the window, then those of the output;
what does not fit in the output stays pending. -/
def readReference (ld : LenDist) (window : CyclicBuffer) (out : OutputBuffer) :
    Except CodeError (Option LenDist × OutputBuffer) := do
  let mut len := ld.len
  let dist := ld.dist
  let mut out := out
  if dist > out.index then
    let r := dist - out.index
    if window.endOffset - window.startOffset < r then throw (.msg "Not enough bytes in window")
    let n := min (out.cap - out.index) (min r len)
    out := { out with
      data := out.data ++ (List.range n).map fun i => window.get (window.endOffset - r + i) }
    len := len - n
  if dist ≤ out.index then
    let n := min len (out.cap - out.index)
    out := { out with data := copyBack n (out.index - dist) out.data }
    len := len - n
  pure (if len = 0 then none else some ⟨len, dist⟩, out)

/-- `update_inner`: one step of the state machine. -/
def updateInner : InflateM Unit := do
  let m ← get
  match m.inflater.state with
  | .start =>
    let header ← readStrm readBlockHeader
    modify fun m => { m with inflater := { m.inflater with finalSeen := header.bfinal } }
    if header.btype = BTYPE_NO_COMPRESSION then setState .uncompressedHeader
    else if header.btype = BTYPE_FIXED_CODES then
      let litlenTree ← match ← orPanic fixedHuffmanLenlitTree with
        | .ok t => pure t
        | .error e => throw (.msg e)
      let distTree ← match ← orPanic fixedHuffmanDistTree with
        | .ok t => pure t
        | .error e => throw (.msg e)
      setState (.compressedBlockBody litlenTree distTree none)
    else if header.btype = BTYPE_DYNAMIC_CODES then setState .dynamicBlockHeader
    else throw (.msg ("Invalid BTYPE " ++ toString header.btype))
  | .uncompressedHeader =>
    let len ← readStrm readUncompressedHeader
    setState (if len = 0 then .start else .uncompressedBlock len)
  | .uncompressedBlock numRemaining =>
    let n := min (m.out.cap - m.out.index) numRemaining
    let bytes ← readStrm (readBytesAndConsume n)
    modify fun m => { m with out := { m.out with data := m.out.data ++ bytes } }
    if bytes.length = 0 then throw .notEnoughBits
    let newRemaining := numRemaining - bytes.length
    setState (if newRemaining = 0 then .start else .uncompressedBlock newRemaining)
  | .dynamicBlockHeader =>
    let hlit := (← readStrm (readBitsExact 5)) + 257
    let hdist := (← readStrm (readBitsExact 5)) + 1
    let hclen := (← readStrm (readBitsExact 4)) + 4
    if hlit > 286 then throw (.msg "hlit too large")
    setState (.dynamicBlockCodeLenCodeLens hlit hdist hclen)
  | .dynamicBlockCodeLenCodeLens hlit hdist hclen =>
    let codeLenCodeLens ← readStrm (readCodeLenCodeLens hclen)
    let codeLenTree ← treeFromLens codeLenCodeLens
    setState (.dynamicBlockCodeLens hlit hdist codeLenTree)
  | .dynamicBlockCodeLens hlit hdist codeLenTree =>
    let allLens ← readDynamicLens codeLenTree (hlit + hdist)
    let litlenTree ← treeFromLens (allLens.take hlit)
    let distTree ← treeFromLens (allLens.drop hlit)
    setState (.compressedBlockBody litlenTree distTree none)
  | .compressedBlockBody litlenTree distTree pendingRef =>
    match pendingRef with
    | some ld =>
      match readReference ld m.inflater.outputWindow m.out with
      | .ok (pending, out) =>
        modify fun m => { m with out }
        setState (.compressedBlockBody litlenTree distTree pending)
      | .error e => throw e
    | none =>
      match ← readBlockCodes litlenTree distTree with
      | .done => setState .start
      | .notDone => pure ()
      | .reference r => setState (.compressedBlockBody litlenTree distTree (some r))

/-- The `while out.index < out.buf.len()` loop of `update_impl`, for at most `fuel` more passes:
`NotEnoughBits` ends it with the machine the failed step left, any other error ends the call. -/
def updateLoop : Nat → Machine → Option (Except CodeError Machine)
  | 0, m => some (.ok m)
  | fuel + 1, m =>
    if m.out.index < m.out.cap then
      match updateInner.run.run m with
      | none => none
      | some (.ok (), m') =>
        let m' := { m' with strm := m'.strm.consume }
        if m'.inflater.isDone then some (.ok m') else updateLoop fuel m'
      | some (.error .notEnoughBits, m') => some (.ok m')
      | some (.error e, _) => some (.error e)
    else some (.ok m)

/-- `Inflater::update` (`update_impl`) with an output buffer of `outLen` bytes: the progress,
the bytes written, and the inflater after the call. -/
def Inflater.update (self : Inflater) (input : List UInt8) (_endOfInput : Bool) (outLen : Nat) :
    Option (Except CodeError (TransformProgress × List UInt8 × Inflater)) :=
  let strm := BitReader.new input
  let loaded := match self.inputPrefix with
    | some raw => strm.loadRaw raw
    | none => .ok strm
  match loaded with
  | .error e => some (.error e)
  | .ok strm =>
    let self := { self with inputPrefix := none }
    if self.isDone then some (.error (.msg "Already done"))
    else
      let fuel := strm.buffer.length + 8 * input.length + outLen + 1
      match updateLoop fuel ⟨self, strm, ⟨outLen, []⟩⟩ with
      | none => none
      | some (.error e) => some (.error e)
      | some (.ok m) =>
        let done := m.inflater.isDone
        let inflater := if done then m.inflater else
          { m.inflater with outputWindow := m.inflater.outputWindow.extendFromSlice m.out.data,
                            inputPrefix := some m.strm.intoUnconsumedRaw }
        some (.ok (⟨input.length - m.strm.input.length, m.out.index, done⟩, m.out.data, inflater))

/-- Successive `update` calls, each with its input, its `end_of_input` and the length of its
output buffer: the bytes written, in order, and the inflater after. -/
def Inflater.run : Inflater → List (List UInt8 × Bool × Nat) →
    Option (Except CodeError (List UInt8 × Inflater))
  | s, [] => some (.ok ([], s))
  | s, (input, endOfInput, outLen) :: calls =>
    match s.update input endOfInput outLen with
    | none => none
    | some (.error e) => some (.error e)
    | some (.ok (_, written, s)) =>
      match Inflater.run s calls with
      | none => none
      | some (.error e) => some (.error e)
      | some (.ok (more, s)) => some (.ok (written ++ more, s))

/-! ## Steps from the bits the reader gives

A step lemma takes a machine whose reader gives the bits of the step and then any others: it says
what the step does, and that the reader after it gives the others (`readStrm_of_reads`). The
dynamic header is read state by state this way; a repeat code before any length then panics in
`read_dynamic_lens`, whatever the bits after it. -/

theorem InflateM.run_bind_of_ok {α β : Type} {x : InflateM α} {f : α → InflateM β}
    {m m' : Machine} {a : α} (h : x.run.run m = some (.ok a, m')) :
    (x >>= f).run.run m = (f a).run.run m' := by
  simp only [ExceptT.run_bind, StateT.run_bind, h]
  rfl

theorem InflateM.run_bind_of_panic {α β : Type} {x : InflateM α} {f : α → InflateM β}
    {m : Machine} (h : x.run.run m = none) : (x >>= f).run.run m = none := by
  simp only [ExceptT.run_bind, StateT.run_bind, h]
  rfl

-- Proved as rewrites, not by `rfl`: used definitionally, simp leaves the kernel to unfold the
-- whole of `updateInner` again at every use.
theorem InflateM.run_get_bind {α : Type} {f : Machine → InflateM α} {m : Machine} :
    (get >>= f).run.run m = (f m).run.run m :=
  InflateM.run_bind_of_ok rfl

theorem InflateM.run_modify_bind {α : Type} {g : Machine → Machine} {f : Unit → InflateM α}
    {m : Machine} : (modify g >>= f).run.run m = (f ()).run.run (g m) :=
  InflateM.run_bind_of_ok rfl

/-- A read inside a step takes the bits it reads from the machine's reader. -/
theorem readStrm_of_reads {α : Type} {x : BitRead α} {u : List Bool} {a : α} (hx : Reads x u a)
    {m : Machine} {v : List Bool} (hwf : m.strm.WF) (hu : m.strm.upcoming = u ++ v) :
    ∃ strm', strm'.WF ∧ strm'.upcoming = v ∧
      (readStrm x).run.run m = some (.ok a, { m with strm := strm' }) := by
  obtain ⟨r', hrun, hwf', hu'⟩ := hx m.strm v hwf hu
  refine ⟨r', hwf', hu', ?_⟩
  show (let (res, strm) := x.run.run m.strm; some (res, { m with strm })) = _
  rw [hrun]

theorem treeFromLens_of_ok {lens : List Nat} {t : HuffmanTree}
    (ht : HuffmanTree.fromCanonicalLens lens = some (.ok t)) {m : Machine} :
    (treeFromLens lens).run.run m = some (.ok t, m) := by
  have hpanic : (orPanic (HuffmanTree.fromCanonicalLens lens)).run.run m = some (.ok (.ok t), m) := by
    rw [ht]
    rfl
  rw [treeFromLens, InflateM.run_bind_of_ok hpanic]
  rfl

theorem reads_readBitsExact_of (u : List Bool) {n a : Nat} (hn : u.length = n)
    (ha : bitsValue 0 0 u = a) : Reads (readBitsExact n) u a :=
  hn ▸ ha ▸ reads_readBitsExact u

theorem reads_readBlockHeader {u w : List Bool} (hu : u.length = 1) (hw : w.length = 2) :
    Reads readBlockHeader (u ++ w) ⟨bitsValue 0 0 u ≠ 0, bitsValue 0 0 w⟩ :=
  (reads_readBitsExact_of u hu rfl).bind ((reads_readBitsExact_of w hw rfl).map _)

/-- The loop of the code length code lengths reads three bits for each position it is given. -/
theorem reads_codeLenCodeLensLoop : ∀ (is : List Nat) (us : List (List Bool)) (lens : List Nat),
    is.length = us.length → (∀ u ∈ us, u.length = 3) →
      Reads (is.foldlM (fun lens i => do
          let l ← readBitsExact 3
          pure (lens.set (CODE_LEN_CODE_LEN_ORDERING.getD i 0) l)) lens) us.flatten
        ((is.zip us).foldl
          (fun lens p => lens.set (CODE_LEN_CODE_LEN_ORDERING.getD p.1 0) (bitsValue 0 0 p.2)) lens)
  | [], [], lens, _, _ => Reads.pure lens
  | i :: is, u :: us, lens, hlen, hus => by
    have hu : u.length = 3 := hus u List.mem_cons_self
    rw [List.flatten_cons]
    exact Reads.foldlM_cons ((reads_readBitsExact_of u hu rfl).map _)
      (reads_codeLenCodeLensLoop is us _ (Nat.succ_inj.mp hlen)
        fun u' h' => hus u' (List.mem_cons_of_mem u h'))

/-- `hclen` groups of three bits are the code length code lengths, in the order of
`CODE_LEN_CODE_LEN_ORDERING`; the others are zero. -/
theorem reads_readCodeLenCodeLens (us : List (List Bool)) (hus : ∀ u ∈ us, u.length = 3) :
    Reads (readCodeLenCodeLens us.length) us.flatten
      (((List.range us.length).zip us).foldl
        (fun lens p => lens.set (CODE_LEN_CODE_LEN_ORDERING.getD p.1 0) (bitsValue 0 0 p.2))
        (List.replicate 19 0)) :=
  reads_codeLenCodeLensLoop _ _ _ List.length_range hus

/-- From `Start`, the header of a block of dynamic codes is read and the dynamic header is next. -/
theorem updateInner_start_dynamic {m : Machine} (hs : m.inflater.state = .start) {u v : List Bool}
    {h : BlockHeader} (hh : Reads readBlockHeader u h) (hbtype : h.btype = BTYPE_DYNAMIC_CODES)
    (hwf : m.strm.WF) (hu : m.strm.upcoming = u ++ v) :
    ∃ strm', strm'.WF ∧ strm'.upcoming = v ∧ updateInner.run.run m = some (.ok (), { m with
      inflater := { m.inflater with finalSeen := h.bfinal, state := .dynamicBlockHeader },
      strm := strm' }) := by
  obtain ⟨strm', hwf', hu', hread⟩ := readStrm_of_reads hh hwf hu
  refine ⟨strm', hwf', hu', ?_⟩
  simp only [updateInner, InflateM.run_get_bind, hs, InflateM.run_bind_of_ok hread,
    InflateM.run_modify_bind, hbtype, BTYPE_DYNAMIC_CODES, BTYPE_NO_COMPRESSION, BTYPE_FIXED_CODES]
  rfl

/-- `HLIT`, `HDIST` and `HCLEN` are read, and the code length code lengths are next. -/
theorem updateInner_dynamicBlockHeader {m : Machine} (hs : m.inflater.state = .dynamicBlockHeader)
    {a b c v : List Bool} {lit dist clen : Nat} (ha : Reads (readBitsExact 5) a lit)
    (hb : Reads (readBitsExact 5) b dist) (hc : Reads (readBitsExact 4) c clen)
    (hlit : lit + 257 ≤ 286) (hwf : m.strm.WF) (hu : m.strm.upcoming = a ++ b ++ c ++ v) :
    ∃ strm', strm'.WF ∧ strm'.upcoming = v ∧ updateInner.run.run m =
      some (.ok (), { m with inflater := { m.inflater with
        state := .dynamicBlockCodeLenCodeLens (lit + 257) (dist + 1) (clen + 4) }, strm := strm' }) := by
  obtain ⟨s1, hwf1, hu1, h1⟩ := readStrm_of_reads ha (v := b ++ (c ++ v)) hwf
    (by rw [hu]; simp only [List.append_assoc])
  obtain ⟨s2, hwf2, hu2, h2⟩ := readStrm_of_reads hb (m := { m with strm := s1 }) hwf1 hu1
  obtain ⟨s3, hwf3, hu3, h3⟩ := readStrm_of_reads hc (m := { m with strm := s2 }) hwf2 hu2
  refine ⟨s3, hwf3, hu3, ?_⟩
  have hle : ¬ lit + 257 > 286 := by omega
  simp only [updateInner, InflateM.run_get_bind, hs, InflateM.run_bind_of_ok h1,
    InflateM.run_bind_of_ok h2, InflateM.run_bind_of_ok h3, hle, if_false, pure_bind]
  rfl

/-- The code length code lengths are read and the tree built from them; the code lengths are
next. -/
theorem updateInner_dynamicBlockCodeLenCodeLens {m : Machine} {hlit hdist hclen : Nat}
    (hs : m.inflater.state = .dynamicBlockCodeLenCodeLens hlit hdist hclen) {u v : List Bool}
    {lens : List Nat} (hr : Reads (readCodeLenCodeLens hclen) u lens) {t : HuffmanTree}
    (ht : HuffmanTree.fromCanonicalLens lens = some (.ok t)) (hwf : m.strm.WF)
    (hu : m.strm.upcoming = u ++ v) :
    ∃ strm', strm'.WF ∧ strm'.upcoming = v ∧ updateInner.run.run m =
      some (.ok (), { m with inflater := { m.inflater with state := .dynamicBlockCodeLens hlit hdist t },
                             strm := strm' }) := by
  obtain ⟨strm', hwf', hu', hread⟩ := readStrm_of_reads hr hwf hu
  refine ⟨strm', hwf', hu', ?_⟩
  simp only [updateInner, InflateM.run_get_bind, hs, InflateM.run_bind_of_ok hread,
    InflateM.run_bind_of_ok (treeFromLens_of_ok ht)]
  rfl

/-- A repeat code (16) before any code length: `lens.last().unwrap()` panics. -/
theorem readDynamicLens_panics_of_leading_repeat {t : HuffmanTree} {nsymbols : Nat}
    (hn : 0 < nsymbols) {p w v : List Bool} {n : Nat} (hcode : Reads t.readCodeFrom p 16)
    (hrep : Reads (readBitsExact 2) w n) {m : Machine} (hwf : m.strm.WF)
    (hu : m.strm.upcoming = p ++ w ++ v) : (readDynamicLens t nsymbols).run.run m = none := by
  obtain ⟨k, rfl⟩ := Nat.exists_eq_succ_of_ne_zero hn.ne'
  obtain ⟨s1, hwf1, hu1, h1⟩ := readStrm_of_reads hcode hwf (by rw [hu, List.append_assoc])
  obtain ⟨s2, -, -, h2⟩ := readStrm_of_reads hrep (m := { m with strm := s1 }) hwf1 hu1
  have hpass : (readDynamicLensLoop t (k + 1) (k + 1) []).run.run m = none := by
    have hrepeat : ¬ (16 ≤ 15) := by decide
    simp only [readDynamicLensLoop, List.length_nil, Nat.zero_lt_succ, ↓reduceIte,
      InflateM.run_bind_of_ok h1, hrepeat, InflateM.run_bind_of_ok h2]
    rfl
  exact InflateM.run_bind_of_panic hpass

/-- At the code lengths, a code length code 16 first panics. -/
theorem updateInner_panics_of_leading_repeat {m : Machine} {hlit hdist : Nat} {t : HuffmanTree}
    (hs : m.inflater.state = .dynamicBlockCodeLens hlit hdist t) (hn : 0 < hlit + hdist)
    {p w v : List Bool} {n : Nat} (hcode : Reads t.readCodeFrom p 16)
    (hrep : Reads (readBitsExact 2) w n) (hwf : m.strm.WF) (hu : m.strm.upcoming = p ++ w ++ v) :
    updateInner.run.run m = none := by
  simp only [updateInner, InflateM.run_get_bind, hs]
  exact InflateM.run_bind_of_panic (readDynamicLens_panics_of_leading_repeat hn hcode hrep hwf hu)

/-- A step that ends well, short of the end, is followed by the next on the consumed reader. -/
theorem updateLoop_succ_of_ok {fuel : Nat} {m m' : Machine} (hroom : m.out.index < m.out.cap)
    (h : updateInner.run.run m = some (.ok (), m')) (hdone : m'.inflater.isDone = false) :
    updateLoop (fuel + 1) m = updateLoop fuel { m' with strm := m'.strm.consume } := by
  simp only [updateLoop, if_pos hroom, h, hdone, Bool.false_eq_true, if_false]

theorem updateLoop_succ_of_panic {fuel : Nat} {m : Machine} (hroom : m.out.index < m.out.cap)
    (h : updateInner.run.run m = none) : updateLoop (fuel + 1) m = none := by
  simp only [updateLoop, if_pos hroom, h]

/-- A step that ends well, short of the end, then the run from the machine it leaves. -/
theorem updateLoop_of_step {fuel : Nat} {m : Machine} {i' : Inflater} {v : List Bool}
    {res : Option (Except CodeError Machine)} (hroom : m.out.index < m.out.cap)
    (hstep : ∃ strm', strm'.WF ∧ strm'.upcoming = v ∧
      updateInner.run.run m = some (.ok (), { m with inflater := i', strm := strm' }))
    (hdone : i'.isDone = false)
    (hnext : ∀ strm', strm'.WF → strm'.upcoming = v →
      updateLoop fuel { m with inflater := i', strm := strm' } = res) :
    updateLoop (fuel + 1) m = res := by
  obtain ⟨strm', hwf, hu, h⟩ := hstep
  obtain ⟨hwf', hu'⟩ := consume_spec hwf
  rw [updateLoop_succ_of_ok hroom h hdone]
  exact hnext _ hwf' (hu'.trans hu)

theorem update_panics_on_leading_repeat (rest : List UInt8) (endOfInput : Bool) {outLen : Nat}
    (hout : 0 < outLen) :
    Inflater.new.update ([0x05, 0x00, 0x12, 0x00] ++ rest) endOfInput outLen = none := by
  -- least significant bit first: BFINAL 1, BTYPE 2, HLIT = HDIST = HCLEN = 0, code length code
  -- lengths 1 for 16 and 17 and 0 for 18 and 0, then code 0 (symbol 16) and its two extra bits
  have hbits : (BitReader.new ([0x05, 0x00, 0x12, 0x00] ++ rest)).upcoming =
      ([true] ++ [false, true]) ++ (List.replicate 5 false ++ List.replicate 5 false ++
        List.replicate 4 false ++ ([[true, false, false], [true, false, false], [false, false, false],
          [false, false, false]].flatten ++
            ([false] ++ [false, false] ++ rest.flatMap fun b => bitsOf b.toNat 8))) := by
    rw [upcoming_new, List.flatMap_append]
    rfl
  have hcl := reads_readCodeLenCodeLens
    [[true, false, false], [true, false, false], [false, false, false], [false, false, false]]
    (by decide)
  have htree : HuffmanTree.fromCanonicalLens
      (([0, 1, 2, 3].zip [[true, false, false], [true, false, false], [false, false, false],
        [false, false, false]]).foldl
        (fun lens p => lens.set (CODE_LEN_CODE_LEN_ORDERING.getD p.1 0) (bitsValue 0 0 p.2))
        (List.replicate 19 0)) = some (.ok ⟨.inner (.leaf 16) (.leaf 17)⟩) := by
    decide +kernel
  have hcode : Reads (⟨.inner (.leaf 16) (.leaf 17)⟩ : HuffmanTree).readCodeFrom [false] 16 :=
    reads_readCodeFrom trivial rfl
  have hloop : ∀ fuel, 4 ≤ fuel → updateLoop fuel
      ⟨{ Inflater.new with inputPrefix := none }, BitReader.new ([0x05, 0x00, 0x12, 0x00] ++ rest),
        ⟨outLen, []⟩⟩ = none := by
    intro fuel hfuel
    obtain ⟨k, rfl⟩ := Nat.exists_eq_add_of_le' hfuel
    refine updateLoop_of_step hout (updateInner_start_dynamic rfl
      (reads_readBlockHeader (u := [true]) (w := [false, true]) rfl rfl) rfl (wf_new _) hbits) rfl ?_
    intro s1 hwf1 hu1
    refine updateLoop_of_step hout (updateInner_dynamicBlockHeader rfl
      (reads_readBitsExact_of _ rfl (a := 0) rfl) (reads_readBitsExact_of _ rfl (a := 0) rfl)
      (reads_readBitsExact_of _ rfl (a := 0) rfl) (by norm_num) hwf1 hu1) rfl ?_
    intro s2 hwf2 hu2
    refine updateLoop_of_step hout (updateInner_dynamicBlockCodeLenCodeLens rfl hcl htree hwf2 hu2)
      rfl ?_
    intro s3 hwf3 hu3
    exact updateLoop_succ_of_panic hout (updateInner_panics_of_leading_repeat rfl (by norm_num)
      hcode (reads_readBitsExact_of [false, false] rfl rfl) hwf3 hu3)
  have hprefix : Inflater.new.inputPrefix = none := rfl
  have hnew : { Inflater.new with inputPrefix := none }.isDone = false := rfl
  simp only [Inflater.update, hprefix, hnew, Bool.false_eq_true, if_false]
  rw [hloop _ (by simp [BitReader.new]; omega)]

theorem update_panics_on_four_bytes :
    0 < 1 ∧ Inflater.new.update ([0x05, 0x00, 0x12, 0x00] ++ []) false 1 = none :=
  ⟨Nat.one_pos, update_panics_on_leading_repeat [] false Nat.one_pos⟩

end Dacha.Compression
