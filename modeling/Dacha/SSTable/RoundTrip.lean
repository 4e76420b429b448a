import Dacha.SSTable.RecordLog

/-!
# The record log round trip (`record_log.rs`)

Whatever records `RecordWriter::append` writes, one after another from an empty file, a new
`RecordReader` reads back exactly, and then finds the end of the file (`None`). A crash may cut
the file at any byte; every such prefix reads as the records it holds whole, then `None`: never
an error and never part of a record (`appendAll_read_round_trip`).

The proof goes up the levels of the format.

* **Fragments.** A fragment the writer produced parses back to its type and data
  (`parse_fragBytes`); cut short, it parses as incomplete or as the end of the file.
* **The reader at a position.** `ReaderAt file r x` says that `r` has consumed the file up to
  `x` with no corruption seen, its block being the file's block at `fileOffset` or not read yet.
  From there `read_fragment` parses at `x` (`readFragment_of_fits`), or skips the zero padding
  at a block's end (`readFragment_of_padding`). A fragment that a longer file `W` holds at `x`,
  read from a prefix of `W`, comes back whole or reads as truncated (`readFragment_fragBytes`).
* **The writer's loop.** One iteration of `append`'s loop writes `writeFragment`
  (`appendLoop_step`); a successful run only appends (`appendLoop_output`) and the writer never
  fails (`appendAll_isSome`).
* **`read_inner` follows `append`.** By induction along the writer's loop, `read_inner` reads
  one fragment per iteration and assembles the record (`readInner_appendLoop`,
  `readInner_append`); `read` then gives it, or `None` on a prefix that ends inside it
  (`read_append`). By induction on the records, `readRecords_appendAll`.
-/

namespace Dacha.SSTable

open Dacha.Bytes Dacha.Crypto

theorem BLOCK_SIZE_eq : BLOCK_SIZE = 32768 := rfl

theorem FRAGMENT_HEADER_SIZE_eq : FRAGMENT_HEADER_SIZE = 7 := rfl


theorem BLOCK_SIZE_ne_zero : BLOCK_SIZE ≠ 0 := by decide

theorem mod_BLOCK_SIZE_lt (y : Nat) : y % BLOCK_SIZE < BLOCK_SIZE :=
  Nat.mod_lt y (Nat.pos_of_ne_zero BLOCK_SIZE_ne_zero)

/-! ## Fragments -/

/-- The bytes of one fragment. -/
def fragBytes (typ : FragmentType) (chunk : List UInt8) : List UInt8 :=
  fragmentHeader typ.toValue chunk ++ chunk

@[simp] theorem length_fragmentHeader (typ : UInt8) (data : List UInt8) :
    (fragmentHeader typ data).length = FRAGMENT_HEADER_SIZE := by
  simp [fragmentHeader, FRAGMENT_HEADER_SIZE]

@[simp] theorem length_fragBytes (typ : FragmentType) (chunk : List UInt8) :
    (fragBytes typ chunk).length = FRAGMENT_HEADER_SIZE + chunk.length := by
  simp [fragBytes]

section Parse

variable (typ : FragmentType) (chunk tail : List UInt8)

theorem header_take_four :
    (fragmentHeader typ.toValue chunk ++ tail).take 4 =
      toLe ((CRC32CHasher.new.update [typ.toValue]).update chunk).masked.toNat 4 := by
  simp [fragmentHeader]

theorem header_length_field :
    ((fragmentHeader typ.toValue chunk ++ tail).drop 4).take 2 = toLe chunk.length 2 := by
  simp [fragmentHeader]

theorem header_get_six (h : 6 < (fragmentHeader typ.toValue chunk ++ tail).length) :
    (fragmentHeader typ.toValue chunk ++ tail)[6] = typ.toValue := by
  simp [fragmentHeader]

theorem header_checksum :
    fromLe (toLe ((CRC32CHasher.new.update [typ.toValue]).update chunk).masked.toNat 4) =
      (CRC32CHasher.new.update ((fragBytes typ chunk).drop 6)).masked.toNat := by
  rw [fromLe_toLe_of_lt (UInt32.toNat_lt _), CRC32CHasher.update_append]
  simp [fragBytes, fragmentHeader, List.drop_append, List.drop_of_length_le]

theorem fragBytes_append_eq (more : List UInt8) :
    fragBytes typ chunk ++ more = fragmentHeader typ.toValue chunk ++ (chunk ++ more) := by
  simp [fragBytes]

variable {typ chunk tail} {rem : Nat}

/-- A whole fragment parses back to its type and data. -/
theorem parse_fragBytes (more : List UInt8) (htyp : typ ≠ .ZERO)
    (hfit : FRAGMENT_HEADER_SIZE + chunk.length ≤ rem) (hshort : chunk.length < 256 ^ 2) :
    Fragment.parse (fragBytes typ chunk ++ more) rem =
      .ok (⟨typ, chunk⟩, FRAGMENT_HEADER_SIZE + chunk.length) := by
  have h4 := header_take_four typ chunk (chunk ++ more)
  have h42 := header_length_field typ chunk (chunk ++ more)
  have h6 := header_get_six typ chunk (chunk ++ more)
  rw [← fragBytes_append_eq] at h4 h42 h6
  have htake : (fragBytes typ chunk ++ more).take (FRAGMENT_HEADER_SIZE + chunk.length) =
      fragBytes typ chunk := by
    rw [← length_fragBytes typ chunk, List.take_left]
  have hdrop : (fragBytes typ chunk).drop FRAGMENT_HEADER_SIZE = chunk := by
    simp [fragBytes, FRAGMENT_HEADER_SIZE]
  have hne : FRAGMENT_HEADER_SIZE ≠ 0 := by decide
  have hrem : ¬ rem < FRAGMENT_HEADER_SIZE := by omega
  have hdataEnd : ¬ rem < FRAGMENT_HEADER_SIZE + chunk.length := by omega
  have hinput : FRAGMENT_HEADER_SIZE ≤ FRAGMENT_HEADER_SIZE + chunk.length + more.length := by omega
  unfold Fragment.parse
  simp [h4, h42, h6, header_checksum, fromLe_toLe_of_lt hshort, htyp, htake, hdrop, hrem, hdataEnd,
    hne, hinput]

theorem parse_nil (h : FRAGMENT_HEADER_SIZE ≤ rem) : Fragment.parse [] rem = .error .EndOfFile := by
  unfold Fragment.parse
  simp [Nat.not_lt.mpr h]

/-- A fragment cut short, in its header or in its data, parses as incomplete. -/
theorem parse_fragBytes_take (htyp : typ ≠ .ZERO)
    (hfit : FRAGMENT_HEADER_SIZE + chunk.length ≤ rem) (hshort : chunk.length < 256 ^ 2) {k : Nat}
    (hk0 : 0 < k) (hk : k < FRAGMENT_HEADER_SIZE + chunk.length) :
    Fragment.parse ((fragBytes typ chunk).take k) rem = .error .Incomplete := by
  have hrem : ¬ rem < FRAGMENT_HEADER_SIZE := by omega
  have hlen : ((fragBytes typ chunk).take k).length = k := by simp; omega
  by_cases hhdr : k < FRAGMENT_HEADER_SIZE
  · -- The header itself is cut.
    unfold Fragment.parse
    simp [hrem, hlen, hhdr]
    omega
  · -- The header is whole and the data is cut.
    have hk7 : FRAGMENT_HEADER_SIZE ≤ k := by omega
    have hcut : (fragBytes typ chunk).take k =
        fragmentHeader typ.toValue chunk ++ chunk.take (k - FRAGMENT_HEADER_SIZE) := by
      simp [fragBytes, List.take_append, hk7]
    have h42 := header_length_field typ chunk (chunk.take (k - FRAGMENT_HEADER_SIZE))
    have h6 := header_get_six typ chunk (chunk.take (k - FRAGMENT_HEADER_SIZE))
    rw [← hcut] at h42 h6
    have hdataEnd : ¬ rem < FRAGMENT_HEADER_SIZE + chunk.length := by omega
    unfold Fragment.parse
    simp [hrem, hlen, hhdr, h42, h6, fromLe_toLe_of_lt hshort, htyp, hdataEnd, hk]
    omega

end Parse

/-! ## The reader at a position -/

/-- The reader has read the file up to `x`, its block is the file's block at `fileOffset` (or
still to be read), and no corruption has been seen. -/
structure ReaderAt (file : List UInt8) (r : RecordReader) (x : Nat) : Prop where
  aligned : r.fileOffset % BLOCK_SIZE = 0
  pos : r.fileOffset + r.blockOffset = x
  offset_le : r.blockOffset ≤ BLOCK_SIZE
  block : r.block = (file.drop r.fileOffset).take BLOCK_SIZE ∨ (r.block = [] ∧ r.blockOffset = 0)
  clean : r.blockCorrupt = false
  within : x ≤ file.length

/-- `r` moved to `y`, with the block of `y` read, as `read_block` leaves it. -/
def RecordReader.at (r : RecordReader) (file : List UInt8) (y : Nat) : RecordReader :=
  { r with
    fileOffset := y - y % BLOCK_SIZE
    block := (file.drop (y - y % BLOCK_SIZE)).take BLOCK_SIZE
    blockOffset := y % BLOCK_SIZE }

variable {file : List UInt8} {r : RecordReader} {x : Nat}

theorem readBlockRemainder_of_readerAt (h : ReaderAt file r x) :
    readBlockRemainder file r = { r with block := (file.drop r.fileOffset).take BLOCK_SIZE } := by
  unfold readBlockRemainder
  rcases h.block with hb | ⟨hb, -⟩
  · split
    · rename_i hfull
      rw [← hb]
    · rename_i hshort
      have hrest : (file.drop r.fileOffset).length = r.block.length := by
        rw [hb, List.length_take]; rw [hb, List.length_take] at hshort; omega
      have hnil : file.drop (r.fileOffset + r.block.length) = [] := by
        rw [← List.drop_drop, ← hrest, List.drop_length]
      simp [hnil, ← hb]
  · simp [hb, BLOCK_SIZE]

theorem blockOffset_eq_mod (h : ReaderAt file r x) (hlt : r.blockOffset < BLOCK_SIZE) :
    r.blockOffset = x % BLOCK_SIZE := by
  have := h.aligned
  have := h.pos
  rw [BLOCK_SIZE_eq] at *
  omega

/-- `read_block` at a block boundary leaves the reader at that position. -/
theorem readBlock_eq_at (file : List UInt8) (r : RecordReader) {y : Nat} (hy : y % BLOCK_SIZE = 0) :
    readBlock file r y = r.at file y := by
  simp [readBlock, readBlockRemainder, RecordReader.at, hy, Ne.symm BLOCK_SIZE_ne_zero]

/-- Where a header fits, `read_fragment` parses at the reader's position; a reader at the end
of a block reads the next block first. -/
theorem readFragment_of_fits (h : ReaderAt file r x)
    (hfits : x % BLOCK_SIZE ≤ BLOCK_SIZE - FRAGMENT_HEADER_SIZE) :
    readFragment file r = parseFragment (r.at file x) := by
  have hfo := h.aligned
  have hpos := h.pos
  unfold readFragment
  simp only [h.clean, Bool.false_eq_true, if_false, readBlockRemainder_of_readerAt h]
  by_cases hend : r.blockOffset = BLOCK_SIZE
  · -- At the end of a block: the padding check sees nothing, and the next block is read.
    have hlen : ((file.drop r.fileOffset).take BLOCK_SIZE).length = BLOCK_SIZE := by
      have := h.within
      simp only [List.length_take, List.length_drop]
      omega
    have hx : x % BLOCK_SIZE = 0 := by rw [BLOCK_SIZE_eq] at *; omega
    have hnext : r.fileOffset + BLOCK_SIZE = x := by omega
    have hpad : BLOCK_SIZE - r.blockOffset < FRAGMENT_HEADER_SIZE := by
      rw [hend, Nat.sub_self, FRAGMENT_HEADER_SIZE_eq]; decide
    have hrest : ((file.drop r.fileOffset).take BLOCK_SIZE).drop r.blockOffset = [] := by
      rw [hend]; exact List.drop_of_length_le (le_of_eq hlen)
    simp [hpad, hrest, checkZeroPadding, hlen, hnext, readBlock_eq_at _ _ hx, RecordReader.at,
      h.clean]
  · have hlt : r.blockOffset < BLOCK_SIZE := by have := h.offset_le; omega
    have hmod := blockOffset_eq_mod h hlt
    have hfo' : x - r.blockOffset = r.fileOffset := by omega
    have hnot : ¬ BLOCK_SIZE - r.blockOffset < FRAGMENT_HEADER_SIZE := by
      rw [hmod]
      rw [BLOCK_SIZE_eq, FRAGMENT_HEADER_SIZE_eq] at hfits ⊢
      omega
    simp only [hnot, if_false, RecordReader.at, ← hmod, hfo', h.clean]

/-- A block tail too short for a header holds zero padding; past it the next fragment is parsed
at the start of the next block. -/
theorem readFragment_of_padding (h : ReaderAt file r x)
    (hpad : BLOCK_SIZE - x % BLOCK_SIZE < FRAGMENT_HEADER_SIZE)
    (hzero : checkZeroPadding ((file.drop x).take (BLOCK_SIZE - x % BLOCK_SIZE)) = true) :
    readFragment file r =
      if x + (BLOCK_SIZE - x % BLOCK_SIZE) ≤ file.length then
        parseFragment (r.at file (x + (BLOCK_SIZE - x % BLOCK_SIZE)))
      else (.error .EndOfFile, { r with block := (file.drop r.fileOffset).take BLOCK_SIZE }) := by
  have hfo := h.aligned
  have hpos := h.pos
  have hlt : r.blockOffset < BLOCK_SIZE := by
    have := h.offset_le
    rcases Nat.lt_or_eq_of_le this with hlt | heq
    · exact hlt
    · exfalso
      rw [heq, BLOCK_SIZE_eq] at hpos
      rw [BLOCK_SIZE_eq, FRAGMENT_HEADER_SIZE_eq] at *
      omega
  have hmod := blockOffset_eq_mod h hlt
  have hrest : ((file.drop r.fileOffset).take BLOCK_SIZE).drop (x % BLOCK_SIZE) =
      (file.drop x).take (BLOCK_SIZE - x % BLOCK_SIZE) := by
    rw [List.drop_take, List.drop_drop, ← hmod, hpos]
  have hfull : ((file.drop r.fileOffset).take BLOCK_SIZE).length = BLOCK_SIZE ↔
      x + (BLOCK_SIZE - x % BLOCK_SIZE) ≤ file.length := by
    simp only [List.length_take, List.length_drop]
    omega
  have hnext : r.fileOffset + BLOCK_SIZE = x + (BLOCK_SIZE - x % BLOCK_SIZE) := by omega
  have hy : (x + (BLOCK_SIZE - x % BLOCK_SIZE)) % BLOCK_SIZE = 0 := by
    rw [BLOCK_SIZE_eq] at *; omega
  unfold readFragment
  simp only [h.clean, Bool.false_eq_true, if_false, readBlockRemainder_of_readerAt h]
  rw [hmod]
  simp only [hpad, if_true, hrest, hzero, not_true_eq_false, if_false]
  by_cases hend : x + (BLOCK_SIZE - x % BLOCK_SIZE) ≤ file.length
  · rw [if_pos (hfull.mpr hend), if_pos hend, hnext, readBlock_eq_at _ _ hy]
    simp [RecordReader.at, h.clean]
  · rw [if_neg (fun h' => hend (hfull.mp h')), if_neg hend]

theorem at_input (r : RecordReader) (file : List UInt8) (x : Nat) :
    (r.at file x).block.drop (r.at file x).blockOffset = (file.drop x).take (BLOCK_SIZE - x % BLOCK_SIZE) := by
  simp only [RecordReader.at]
  rw [List.drop_take, List.drop_drop, Nat.sub_add_cancel (Nat.mod_le x BLOCK_SIZE)]

theorem readerAt_at (hclean : r.blockCorrupt = false) {y : Nat} (hy : y ≤ file.length) :
    ReaderAt file (r.at file y) y where
  aligned := by simp only [RecordReader.at]; rw [BLOCK_SIZE_eq]; omega
  pos := Nat.sub_add_cancel (Nat.mod_le y BLOCK_SIZE)
  offset_le := (mod_BLOCK_SIZE_lt y).le
  block := .inl rfl
  clean := hclean
  within := hy

theorem at_at (r : RecordReader) (file : List UInt8) (y : Nat) : (r.at file y).at file y = r.at file y :=
  rfl

/-- After a fragment of `k` bytes at `y`, within `y`'s block. -/
theorem readerAt_at_add (hclean : r.blockCorrupt = false) {y k : Nat}
    (hk : y % BLOCK_SIZE + k ≤ BLOCK_SIZE) (hy : y + k ≤ file.length) :
    ReaderAt file { r.at file y with blockOffset := y % BLOCK_SIZE + k } (y + k) where
  aligned := by simp only [RecordReader.at]; rw [BLOCK_SIZE_eq]; omega
  pos := by simp only [RecordReader.at]; have := Nat.mod_le y BLOCK_SIZE; omega
  offset_le := hk
  block := .inl rfl
  clean := hclean
  within := hy

theorem readerAt_open (file : List UInt8) : ReaderAt file RecordReader.open 0 where
  aligned := rfl
  pos := rfl
  offset_le := Nat.zero_le _
  block := .inr ⟨rfl, rfl⟩
  clean := rfl
  within := Nat.zero_le _

@[simp] theorem readBlockRemainder_recoveryMode :
    (readBlockRemainder file r).recoveryMode = r.recoveryMode := by
  unfold readBlockRemainder; split <;> rfl

@[simp] theorem readBlockRemainder_outputBuffer :
    (readBlockRemainder file r).outputBuffer = r.outputBuffer := by
  unfold readBlockRemainder; split <;> rfl

@[simp] theorem parseFragment_recoveryMode : (parseFragment r).2.recoveryMode = r.recoveryMode := by
  unfold parseFragment; split <;> (try split_ifs) <;> rfl

@[simp] theorem parseFragment_outputBuffer : (parseFragment r).2.outputBuffer = r.outputBuffer := by
  unfold parseFragment; split <;> (try split_ifs) <;> rfl

/-- `read_fragment` moves through the file and nothing else: the recovery mode and the partial
record stay. -/
theorem readFragment_session (file : List UInt8) (r : RecordReader) :
    (readFragment file r).2.recoveryMode = r.recoveryMode ∧
      (readFragment file r).2.outputBuffer = r.outputBuffer := by
  unfold readFragment
  dsimp only
  split_ifs <;> simp [readBlock]

/-! ## Fragments read from a prefix of the file -/

theorem parseFragment_of_ok {f : Fragment} {n : Nat}
    (h : Fragment.parse (r.block.drop r.blockOffset) (BLOCK_SIZE - r.blockOffset) = .ok (f, n)) :
    parseFragment r = (.ok f, { r with blockOffset := r.blockOffset + n }) := by
  simp [parseFragment, h]

theorem parseFragment_of_error {e : RecordReadError}
    (h : Fragment.parse (r.block.drop r.blockOffset) (BLOCK_SIZE - r.blockOffset) = .error e) :
    (parseFragment r).1 = .error e := by
  simp [parseFragment, h]

/-- The errors of a read that ran into the end of the file; in `AllowIncomplete` mode `read`
gives `None` for both. -/
def RecordReadError.IsTruncation (e : RecordReadError) : Prop :=
  e = .EndOfFile ∨ e = .Incomplete

/-- A fragment that `W` holds at `x`, read from a prefix of `W`: whole if the prefix reaches its
end, else cut short, which reads as the end of the file or as an incomplete fragment. -/
theorem readFragment_fragBytes {W more : List UInt8} {typ : FragmentType} {c : List UInt8}
    (hpre : file <+: W) (hW : W.drop x = fragBytes typ c ++ more) (hr : ReaderAt file r x)
    (htyp : typ ≠ .ZERO) (hfit : x % BLOCK_SIZE + (FRAGMENT_HEADER_SIZE + c.length) ≤ BLOCK_SIZE) :
    (x + (FRAGMENT_HEADER_SIZE + c.length) ≤ file.length →
      ∃ r', readFragment file r = (.ok ⟨typ, c⟩, r') ∧
        ReaderAt file r' (x + (FRAGMENT_HEADER_SIZE + c.length))) ∧
    (file.length < x + (FRAGMENT_HEADER_SIZE + c.length) →
      ∃ e, (readFragment file r).1 = .error e ∧ e.IsTruncation) := by
  have hshort : c.length < 256 ^ 2 := by
    rw [BLOCK_SIZE_eq] at hfit
    have : (256 : Nat) ^ 2 = 65536 := by norm_num
    omega
  have hrem : FRAGMENT_HEADER_SIZE + c.length ≤ BLOCK_SIZE - x % BLOCK_SIZE := by omega
  have hinput : Fragment.parse ((r.at file x).block.drop (r.at file x).blockOffset)
      (BLOCK_SIZE - (r.at file x).blockOffset) =
      Fragment.parse ((fragBytes typ c ++ more).take
        (min (BLOCK_SIZE - x % BLOCK_SIZE) (file.length - x))) (BLOCK_SIZE - x % BLOCK_SIZE) := by
    rw [at_input, prefix_drop_take hpre, hW]
    rfl
  rw [readFragment_of_fits hr (by omega)]
  constructor
  · -- The whole fragment is in the file.
    intro hend
    have htake : (fragBytes typ c ++ more).take (min (BLOCK_SIZE - x % BLOCK_SIZE) (file.length - x)) =
        fragBytes typ c ++ more.take
          (min (BLOCK_SIZE - x % BLOCK_SIZE) (file.length - x) - (FRAGMENT_HEADER_SIZE + c.length)) := by
      rw [List.take_append, List.take_of_length_le (by simp; omega), length_fragBytes]
    rw [htake, parse_fragBytes _ htyp hrem hshort] at hinput
    exact ⟨_, parseFragment_of_ok hinput, readerAt_at_add hr.clean hfit hend⟩
  · -- The file ends inside the fragment, or where it starts.
    intro hend
    have htake : (fragBytes typ c ++ more).take (min (BLOCK_SIZE - x % BLOCK_SIZE) (file.length - x)) =
        (fragBytes typ c).take (file.length - x) := by
      rw [List.take_append_of_le_length (by simp; omega)]
      congr 1
      omega
    rw [htake] at hinput
    by_cases hx : file.length - x = 0
    · rw [hx, List.take_zero, parse_nil (by omega)] at hinput
      exact ⟨_, parseFragment_of_error hinput, .inl rfl⟩
    · rw [parse_fragBytes_take htyp hrem hshort (by omega) (by omega)] at hinput
      exact ⟨_, parseFragment_of_error hinput, .inr rfl⟩

/-- A reader that has read the whole file finds no further record. -/
theorem readFragment_at_end (hr : ReaderAt file r file.length) :
    (readFragment file r).1 = .error .EndOfFile := by
  have hlt := mod_BLOCK_SIZE_lt file.length
  have hF : 0 < FRAGMENT_HEADER_SIZE ∧ FRAGMENT_HEADER_SIZE ≤ BLOCK_SIZE := by decide
  by_cases hfits : file.length % BLOCK_SIZE ≤ BLOCK_SIZE - FRAGMENT_HEADER_SIZE
  · rw [readFragment_of_fits hr hfits]
    apply parseFragment_of_error
    rw [at_input, List.drop_length, List.take_nil]
    exact parse_nil (by show FRAGMENT_HEADER_SIZE ≤ BLOCK_SIZE - file.length % BLOCK_SIZE; omega)
  · have h := readFragment_of_padding hr (by omega) (by simp [checkZeroPadding])
    rw [if_neg (by omega)] at h
    rw [h]

/-! ## The writer's loop -/

/-- The type `append` gives a fragment: whether it is the record's first, and whether it holds
the rest of the record. -/
def writtenType (first done : Bool) : FragmentType :=
  if first then (if done then .FULL else .FIRST) else (if done then .LAST else .MIDDLE)

theorem writtenType_ne_ZERO (first done : Bool) : writtenType first done ≠ .ZERO := by
  cases first <;> cases done <;> decide

/-- How much of `rest` one iteration of `append`'s loop writes: what the block has room for. -/
def RecordWriter.nextTake (w : RecordWriter) (rest : List UInt8) : Nat :=
  min (BLOCK_SIZE - w.extent % BLOCK_SIZE - FRAGMENT_HEADER_SIZE) rest.length

/-- The writer after one iteration of `append`'s loop. -/
def RecordWriter.writeFragment (w : RecordWriter) (rest : List UInt8) (first : Bool) : RecordWriter :=
  ⟨w.output ++ fragBytes (writtenType first (w.nextTake rest == rest.length)) (rest.take (w.nextTake rest)),
    w.extent + (FRAGMENT_HEADER_SIZE + w.nextTake rest)⟩

section Writer

variable {fuel : Nat} {w w' : RecordWriter} {rest : List UInt8} {first : Bool} {data : List UInt8}

theorem appendLoop_step (hexit : ¬(rest = [] ∧ first = false))
    (hroom : ¬ BLOCK_SIZE - w.extent % BLOCK_SIZE < FRAGMENT_HEADER_SIZE) :
    appendLoop (fuel + 1) w rest first =
      appendLoop fuel (w.writeFragment rest first) (rest.drop (w.nextTake rest)) false := by
  have hx : ¬(rest = [] ∧ ¬first = true) := by simpa using hexit
  rw [appendLoop, if_neg hx, if_neg hroom]
  cases first <;>
    simp [RecordWriter.writeFragment, RecordWriter.nextTake, writtenType, fragBytes]

/-- What a successful iteration of `append`'s loop did: stop at the end of the record, or write
the next fragment into a block with room for its header. -/
theorem appendLoop_succ_eq_some (h : appendLoop (fuel + 1) w rest first = some w') :
    (rest = [] ∧ first = false ∧ w' = w) ∨
    (¬(rest = [] ∧ first = false) ∧ ¬ BLOCK_SIZE - w.extent % BLOCK_SIZE < FRAGMENT_HEADER_SIZE ∧
      appendLoop fuel (w.writeFragment rest first) (rest.drop (w.nextTake rest)) false = some w') := by
  by_cases hexit : rest = [] ∧ first = false
  · obtain ⟨rfl, rfl⟩ := hexit
    rw [appendLoop_exit] at h
    exact .inl ⟨rfl, rfl, (Option.some.inj h).symm⟩
  · by_cases hroom : BLOCK_SIZE - w.extent % BLOCK_SIZE < FRAGMENT_HEADER_SIZE
    · have hx : ¬(rest = [] ∧ ¬first = true) := by simpa using hexit
      rw [appendLoop, if_neg hx, if_pos hroom] at h
      cases h
    · exact .inr ⟨hexit, hroom, by rwa [appendLoop_step hexit hroom] at h⟩

/-- The writer only appends, and keeps `extent` at the length of what it has written. -/
theorem appendLoop_output : ∀ {fuel : Nat} {w w' : RecordWriter} {rest : List UInt8} {first : Bool},
    appendLoop fuel w rest first = some w' → w.extent = w.output.length →
      w'.extent = w'.output.length ∧ w.output <+: w'.output
  | 0, _, _, _, _, h, _ => by simp [appendLoop] at h
  | fuel + 1, w, w', rest, first, h, hext => by
    rcases appendLoop_succ_eq_some h with ⟨-, -, rfl⟩ | ⟨-, -, h⟩
    · exact ⟨hext, List.prefix_refl _⟩
    · have hlen : (rest.take (w.nextTake rest)).length = w.nextTake rest := by
        simp [RecordWriter.nextTake]
      obtain ⟨hext', hpre⟩ := appendLoop_output h (by simp [RecordWriter.writeFragment, hext, hlen])
      exact (⟨hext', (List.prefix_append _ _).trans hpre⟩)

theorem append_output (happ : w.append data = some w') (hext : w.extent = w.output.length) :
    w'.extent = w'.output.length ∧ w.output <+: w'.output := by
  unfold RecordWriter.append at happ
  dsimp only at happ
  split_ifs at happ
  · obtain ⟨hext', hpre⟩ := appendLoop_output happ (by simp [hext])
    exact ⟨hext', (List.prefix_append _ _).trans hpre⟩
  · exact appendLoop_output happ hext

theorem appendAll_output : ∀ {rs : List (List UInt8)} {w wf : RecordWriter},
    w.appendAll rs = some wf → w.extent = w.output.length →
      wf.extent = wf.output.length ∧ w.output <+: wf.output
  | [], w, wf, h, hext => by
    cases Option.some.inj h
    exact ⟨hext, List.prefix_refl _⟩
  | d :: rs, w, wf, h, hext => by
    obtain ⟨w₁, h₁, h₂⟩ := Option.bind_eq_some_iff.mp h
    obtain ⟨hext₁, hpre₁⟩ := append_output h₁ hext
    obtain ⟨hextf, hpref⟩ := appendAll_output h₂ hext₁
    exact ⟨hextf, hpre₁.trans hpref⟩

/-- A fragment either takes the rest of the record or fills its block to the end. -/
theorem writeFragment_done_or_aligned
    (hroom : ¬ BLOCK_SIZE - w.extent % BLOCK_SIZE < FRAGMENT_HEADER_SIZE) :
    rest.drop (w.nextTake rest) = [] ∨ (w.writeFragment rest first).extent % BLOCK_SIZE = 0 := by
  simp only [RecordWriter.writeFragment, RecordWriter.nextTake, List.drop_eq_nil_iff]
  rw [BLOCK_SIZE_eq, FRAGMENT_HEADER_SIZE_eq] at *
  omega

/-- Past the first fragment, the loop runs at block starts and takes at least a byte a turn. -/
theorem appendLoop_isSome_of_aligned : ∀ {fuel : Nat} {w : RecordWriter} {rest : List UInt8},
    (rest = [] ∨ w.extent % BLOCK_SIZE = 0) → rest.length + 1 ≤ fuel →
      ∃ w', appendLoop fuel w rest false = some w'
  | 0, _, _, _, hf => by omega
  | fuel + 1, w, rest, h, hf => by
    by_cases hnil : rest = []
    · subst hnil
      exact ⟨w, appendLoop_exit⟩
    · have hx := h.resolve_left hnil
      have hroom : ¬ BLOCK_SIZE - w.extent % BLOCK_SIZE < FRAGMENT_HEADER_SIZE := by rw [hx]; decide
      have hpos : 0 < rest.length := List.length_pos_iff.mpr hnil
      have htake : 0 < w.nextTake rest := by
        simp only [RecordWriter.nextTake, hx]
        rw [BLOCK_SIZE_eq, FRAGMENT_HEADER_SIZE_eq]
        omega
      rw [appendLoop_step (by simp [hnil]) hroom]
      exact appendLoop_isSome_of_aligned (writeFragment_done_or_aligned hroom)
        (by simp only [List.length_drop]; omega)

/-- The first fragment needs a block with room for a header, which `append`'s padding ensures. -/
theorem appendLoop_isSome_first
    (hroom : ¬ BLOCK_SIZE - w.extent % BLOCK_SIZE < FRAGMENT_HEADER_SIZE)
    (hf : rest.length + 2 ≤ fuel) : ∃ w', appendLoop fuel w rest true = some w' := by
  obtain ⟨fuel, rfl⟩ : ∃ f, fuel = f + 1 := ⟨fuel - 1, by omega⟩
  rw [appendLoop_step (by simp) hroom]
  exact appendLoop_isSome_of_aligned (writeFragment_done_or_aligned hroom)
    (by simp only [List.length_drop]; omega)

theorem append_isSome (w : RecordWriter) (data : List UInt8) : ∃ w', w.append data = some w' := by
  unfold RecordWriter.append
  dsimp only
  split_ifs with hpad
  · apply appendLoop_isSome_first _ le_rfl
    simp only
    rw [BLOCK_SIZE_eq, FRAGMENT_HEADER_SIZE_eq]
    omega
  · exact appendLoop_isSome_first hpad le_rfl

theorem appendAll_isSome : ∀ (rs : List (List UInt8)) (w : RecordWriter),
    ∃ wf, w.appendAll rs = some wf
  | [], w => ⟨w, rfl⟩
  | d :: rs, w => by
    obtain ⟨w₁, h₁⟩ := append_isSome w d
    obtain ⟨wf, hf⟩ := appendAll_isSome rs w₁
    exact ⟨wf, by simp [RecordWriter.appendAll, h₁, hf]⟩

end Writer

/-! ## `read_inner` over the writer's fragments -/

/-- `read_inner` keeps the recovery mode and the partial record of the reader it is given. -/
theorem readInner_session (file : List UInt8) (g : Nat) (out : RecordBuffer) (r : RecordReader) :
    (readInner file g out r).2.2.recoveryMode = r.recoveryMode ∧
      (readInner file g out r).2.2.outputBuffer = r.outputBuffer := by
  induction g generalizing out r with
  | zero => simp [readInner_zero]
  | succ g ih =>
    have hs := readFragment_session file r
    rcases hrf : readFragment file r with ⟨res, r₁⟩
    rw [hrf] at hs
    simp only at hs
    rcases res with e | ⟨typ, c⟩
    · simp only [readInner, hrf]
      split <;> simp [hs]
    · simp only [readInner, hrf]
      split
      · simp
      · cases typ <;> simp only <;> split_ifs <;> simp [ih, hs]

/-- Until the record is whole, `read_inner` sees the reader only through `read_fragment`. -/
theorem readInner_congr {r' : RecordReader} (g : Nat) {out : RecordBuffer} (he : out.ended = false)
    (h : readFragment file r = readFragment file r') :
    readInner file (g + 1) out r = readInner file (g + 1) out r' := by
  simp only [readInner, h, he, Bool.false_eq_true, if_false]

theorem readInner_of_error {g : Nat} {out : RecordBuffer} {e : RecordReadError}
    (hf : (readFragment file r).1 = .error e) (he : out.ended = false) :
    readInner file (g + 1) out r = (.error e, out, (readFragment file r).2) := by
  rcases hrf : readFragment file r with ⟨res, r₁⟩
  rw [hrf] at hf
  subst hf
  simp [readInner, he, hrf]

/-- One fragment of the type the writer gives it, read into the record being assembled. -/
theorem readInner_of_fragment {g : Nat} {out : RecordBuffer} {first done : Bool}
    {c : List UInt8} {r₁ : RecordReader}
    (hf : readFragment file r = (.ok ⟨writtenType first done, c⟩, r₁))
    (hs : out.started = !first) (he : out.ended = false) :
    readInner file (g + 1) out r =
      readInner file g { out with data := out.data ++ c, started := true, ended := done } r₁ := by
  obtain ⟨started, ended, start, data⟩ := out
  simp only at hs he
  subst hs he
  cases first <;> cases done <;> simp [readInner, hf, writtenType]

/-- `read_inner` over what one run of `append`'s loop wrote, from a prefix of the file. If the
prefix holds all of it, the reader assembles the rest of the record and stops where the writer
stopped; if the prefix ends inside it, the read fails as truncated. The induction follows the
writer's loop, one fragment an iteration, and the reader's `read_inner` reads that fragment. -/
theorem readInner_appendLoop {W : List UInt8} (hpre : file <+: W) :
    ∀ {fuel : Nat} {w w' : RecordWriter} {rest : List UInt8} {first : Bool},
    appendLoop fuel w rest first = some w' → w.extent = w.output.length → w'.output <+: W →
    ∀ {r : RecordReader} (g : Nat) (out : RecordBuffer), ReaderAt file r w.extent →
    file.length - w.extent < g → out.started = !first →
    out.ended = decide (rest = [] ∧ first = false) →
    (w'.extent ≤ file.length → ∃ out' r', readInner file g out r = (.ok (), out', r') ∧
        out'.data = out.data ++ rest ∧ ReaderAt file r' w'.extent) ∧
    (file.length < w'.extent → ∃ e, (readInner file g out r).1 = .error e ∧ e.IsTruncation)
  | 0, _, _, _, _, h, _, _, _, _, _, _, _, _, _ => by simp [appendLoop] at h
  | fuel + 1, w, w', rest, first, h, hext, hW, r, g, out, hr, hg, hs, he => by
    obtain ⟨g, rfl⟩ : ∃ g', g = g' + 1 := ⟨g - 1, by omega⟩
    rcases appendLoop_succ_eq_some h with ⟨hnil, hfirst, rfl⟩ | ⟨hexit, hroom, h⟩
    · -- The record is complete: `read_inner` returns it.
      have hended : out.ended = true := by simp [he, hnil, hfirst]
      exact ⟨fun _ => ⟨out, r, readInner_of_ended file hended _ _, by simp [hnil], hr⟩,
        fun hlt => absurd hr.within (by omega)⟩
    · -- The writer wrote one more fragment, of `w.nextTake rest` bytes of the record.
      have htle : w.nextTake rest ≤ rest.length := min_le_right _ _
      have hlen : (rest.take (w.nextTake rest)).length = w.nextTake rest := by simp [htle]
      have hfit : w.extent % BLOCK_SIZE + (FRAGMENT_HEADER_SIZE + (rest.take (w.nextTake rest)).length) ≤
          BLOCK_SIZE := by
        have : w.nextTake rest ≤ BLOCK_SIZE - w.extent % BLOCK_SIZE - FRAGMENT_HEADER_SIZE :=
          min_le_left _ _
        have := mod_BLOCK_SIZE_lt w.extent
        rw [hlen]
        omega
      have hended : out.ended = false := he.trans (decide_eq_false hexit)
      have hext₀ : (w.writeFragment rest first).extent = (w.writeFragment rest first).output.length := by
        simp [RecordWriter.writeFragment, hext, hlen]
      obtain ⟨hext₁, hpre₁⟩ := appendLoop_output h hext₀
      have hW₁ := prefix_drop_of_append (hpre₁.trans hW)
      rw [← hext] at hW₁
      obtain ⟨hok, htrunc⟩ := readFragment_fragBytes hpre hW₁ hr (writtenType_ne_ZERO _ _) hfit
      rw [hlen] at hok htrunc
      have hgrow : w.extent + (FRAGMENT_HEADER_SIZE + w.nextTake rest) ≤ w'.extent := by
        have := hpre₁.length_le
        simp only [RecordWriter.writeFragment, List.length_append, length_fragBytes] at this
        rw [hext₁, hext, ← hlen]
        omega
      by_cases hend : w.extent + (FRAGMENT_HEADER_SIZE + w.nextTake rest) ≤ file.length
      · obtain ⟨r₁, hf, hr₁⟩ := hok hend
        have hdone : (w.nextTake rest == rest.length) =
            decide (rest.drop (w.nextTake rest) = [] ∧ false = false) := by
          rw [Bool.eq_iff_iff]
          simp only [beq_iff_eq, List.drop_eq_nil_iff, and_true, decide_eq_true_eq]
          omega
        obtain ⟨ihok, ihtr⟩ := readInner_appendLoop hpre h hext₀ hW g
          { out with
            data := out.data ++ rest.take (w.nextTake rest)
            started := true
            ended := w.nextTake rest == rest.length }
          hr₁ (by simp only [RecordWriter.writeFragment, FRAGMENT_HEADER_SIZE_eq] at hend ⊢; omega)
          rfl hdone
        rw [readInner_of_fragment hf hs hended]
        refine ⟨fun hle => ?_, ihtr⟩
        obtain ⟨out', r', hrun, hdata, hr'⟩ := ihok hle
        exact ⟨out', r', hrun, by rw [hdata, List.append_assoc, List.take_append_drop], hr'⟩
      · obtain ⟨e, hf, he'⟩ := htrunc (by omega)
        exact ⟨fun hle => absurd hle (by omega), fun _ => ⟨e, by rw [readInner_of_error hf hended], he'⟩⟩

section Record

variable {W : List UInt8} {w w' : RecordWriter} {data : List UInt8}

/-- `read_inner` over one record that `append` wrote, from a prefix of the file: the zero
padding first, if the writer put any, then the record's fragments. -/
theorem readInner_append (hpre : file <+: W) (happ : w.append data = some w')
    (hext : w.extent = w.output.length) (hW : w'.output <+: W) (hr : ReaderAt file r w.extent)
    (g : Nat) (out : RecordBuffer) (hg : file.length - w.extent < g) (hs : out.started = false)
    (he : out.ended = false) :
    (w'.extent ≤ file.length → ∃ out' r', readInner file g out r = (.ok (), out', r') ∧
        out'.data = out.data ++ data ∧ ReaderAt file r' w'.extent) ∧
    (file.length < w'.extent → ∃ e, (readInner file g out r).1 = .error e ∧ e.IsTruncation) := by
  have he' : out.ended = decide (data = [] ∧ true = false) := by simp [he]
  unfold RecordWriter.append at happ
  dsimp only at happ
  split_ifs at happ with hpad
  · -- The writer padded the block with zeros and started the record in the next one.
    have hext₀ : w.extent + (BLOCK_SIZE - w.extent % BLOCK_SIZE) =
        (w.output ++ List.replicate (BLOCK_SIZE - w.extent % BLOCK_SIZE) 0).length := by
      simp [hext]
    obtain ⟨-, hpre₀⟩ := appendLoop_output happ hext₀
    have hW₀ := prefix_drop_of_append (hpre₀.trans hW)
    rw [← hext] at hW₀
    have hzero : checkZeroPadding ((file.drop w.extent).take (BLOCK_SIZE - w.extent % BLOCK_SIZE)) =
        true := by
      rw [prefix_drop_take hpre, hW₀, List.take_append_of_le_length (by simp)]
      simp [checkZeroPadding, List.take_replicate]
    have hpadding := readFragment_of_padding hr hpad hzero
    have hgrow : w.extent + (BLOCK_SIZE - w.extent % BLOCK_SIZE) ≤ w'.extent := by
      have := hpre₀.length_le
      rw [← hext₀, ← (appendLoop_output happ hext₀).1] at this
      exact this
    obtain ⟨g, rfl⟩ : ∃ g', g = g' + 1 := ⟨g - 1, by omega⟩
    by_cases hend : w.extent + (BLOCK_SIZE - w.extent % BLOCK_SIZE) ≤ file.length
    · rw [if_pos hend] at hpadding
      have hr₀ := readerAt_at hr.clean hend
      have hy : (w.extent + (BLOCK_SIZE - w.extent % BLOCK_SIZE)) % BLOCK_SIZE = 0 := by
        rw [BLOCK_SIZE_eq]; omega
      have hfits := readFragment_of_fits hr₀ (by rw [hy]; decide)
      rw [at_at] at hfits
      rw [readInner_congr g he (hpadding.trans hfits.symm)]
      exact readInner_appendLoop hpre happ hext₀ hW _ _ hr₀ (by dsimp only; omega) hs he'
    · rw [if_neg hend] at hpadding
      have hf : (readFragment file r).1 = .error .EndOfFile := by rw [hpadding]
      exact ⟨fun hle => absurd hle (by omega),
        fun _ => ⟨_, by rw [readInner_of_error hf he], .inl rfl⟩⟩
  · exact readInner_appendLoop hpre happ hext hW _ _ hr hg hs he'

theorem update_outputBuffer_of_none (hbuf : r.outputBuffer = none) :
    { r with outputBuffer := none } = r := by
  cases r
  subst hbuf
  rfl

/-- `read` of one record that `append` wrote, from a prefix of the file: the record, if the
prefix holds all of it; else `None`. -/
theorem read_append (hpre : file <+: W) (happ : w.append data = some w')
    (hext : w.extent = w.output.length) (hW : w'.output <+: W) (hr : ReaderAt file r w.extent)
    (hbuf : r.outputBuffer = none) :
    (w'.extent ≤ file.length → ∃ r', read file r = (.ok (some data), r') ∧ ReaderAt file r' w'.extent ∧
        r'.recoveryMode = r.recoveryMode ∧ r'.outputBuffer = none) ∧
    (file.length < w'.extent → r.recoveryMode = .AllowIncomplete → (read file r).1 = .ok none) := by
  obtain ⟨hok, htr⟩ := readInner_append hpre happ hext hW hr (file.length + 1)
    ⟨false, false, r.fileOffset + r.blockOffset, []⟩ (by omega) rfl rfl
  have hsess := readInner_session file (file.length + 1)
    ⟨false, false, r.fileOffset + r.blockOffset, []⟩ r
  simp only [read, readRaw, hbuf, Option.getD_none, update_outputBuffer_of_none hbuf]
  constructor
  · intro hle
    obtain ⟨out', r', hrun, hdata, hr'⟩ := hok hle
    rw [hrun] at hsess ⊢
    exact ⟨r', by simp [hdata], hr', hsess.1, hsess.2.trans hbuf⟩
  · intro hlt hmode
    obtain ⟨e, hrun, htrunc⟩ := htr hlt
    rcases hres : readInner file (file.length + 1) ⟨false, false, r.fileOffset + r.blockOffset, []⟩ r
      with ⟨res, out', r'⟩
    rw [hres] at hrun hsess
    simp only at hrun hsess
    subst hrun
    rcases htrunc with rfl | rfl <;> by_cases hst : out'.started <;> simp [hst, hsess.1, hmode]

theorem read_at_end (hr : ReaderAt file r file.length) (hbuf : r.outputBuffer = none) :
    (read file r).1 = .ok none := by
  have hrun : readInner file (file.length + 1) ⟨false, false, r.fileOffset + r.blockOffset, []⟩ r =
      (.error .EndOfFile, ⟨false, false, r.fileOffset + r.blockOffset, []⟩, (readFragment file r).2) :=
    readInner_of_error (readFragment_at_end hr) rfl
  simp [read, readRaw, hbuf, update_outputBuffer_of_none hbuf, hrun]

end Record

/-! ## All records -/

/-- Reading a prefix of what `appendAll` wrote, from where the writer started: the records the
prefix holds whole, then `None`; all of them if the prefix is the whole output. The induction is
on the records, one `read` for each. -/
theorem readRecords_appendAll {wf : RecordWriter} (hpre : file <+: wf.output) :
    ∀ {rs : List (List UInt8)} {w : RecordWriter} {r : RecordReader} {fuel : Nat},
    w.appendAll rs = some wf → w.extent = w.output.length → ReaderAt file r w.extent →
    r.outputBuffer = none → r.recoveryMode = .AllowIncomplete → rs.length < fuel →
    ∃ k, readRecords file fuel r = .ok (rs.take k, true) ∧ (file = wf.output → k = rs.length)
  | [], w, r, fuel, h, hext, hr, hbuf, _, hfuel => by
    have hw : w = wf := Option.some.inj h
    rw [← hw] at hpre
    obtain ⟨f, rfl⟩ : ∃ f, fuel = f + 1 := ⟨fuel - 1, by simp at hfuel; omega⟩
    have hlen : w.extent = file.length := le_antisymm hr.within (hext ▸ hpre.length_le)
    have hend := read_at_end (hlen ▸ hr) hbuf
    rcases hread : read file r with ⟨res, r'⟩
    rw [hread] at hend
    cases hend
    exact ⟨0, by simp [readRecords, hread], fun _ => rfl⟩
  | d :: rs, w, r, fuel, h, hext, hr, hbuf, hmode, hfuel => by
    obtain ⟨w₁, h₁, h₂⟩ := Option.bind_eq_some_iff.mp h
    obtain ⟨hext₁, -⟩ := append_output h₁ hext
    obtain ⟨-, hpre₁⟩ := appendAll_output h₂ hext₁
    obtain ⟨hok, htr⟩ := read_append hpre h₁ hext hpre₁ hr hbuf
    obtain ⟨f, rfl⟩ : ∃ f, fuel = f + 1 := ⟨fuel - 1, by simp at hfuel; omega⟩
    by_cases hend : w₁.extent ≤ file.length
    · -- The prefix holds the record: it is read, and the rest follows from where it ends.
      obtain ⟨r₁, hread, hr₁, hm, hb⟩ := hok hend
      obtain ⟨k, hk, hall⟩ := readRecords_appendAll hpre h₂ hext₁ hr₁ hb (hm.trans hmode)
        (by simp at hfuel; omega)
      exact ⟨k + 1, by simp [readRecords, hread, hk, Except.map], fun hf => by simp [hall hf]⟩
    · -- The prefix ends inside the record: `read` gives `None`.
      have hnone := htr (by omega) hmode
      rcases hread : read file r with ⟨res, r'⟩
      rw [hread] at hnone
      cases hnone
      refine ⟨0, by simp [readRecords, hread], fun hf => absurd ?_ hend⟩
      rw [hext₁, hf]
      exact hpre₁.length_le

/-- The record log round trip. Any records appended one after another to a new writer are read
back by a new reader exactly, and then `None`; and every prefix of the written bytes, as a crash
may leave it, reads as the first few records and then `None`: never an error, never a record
cut short. -/
theorem appendAll_read_round_trip (records : List (List UInt8)) :
    ∃ w, RecordWriter.new.appendAll records = some w ∧
      readRecords w.output (records.length + 1) RecordReader.open = .ok (records, true) ∧
      ∀ n, ∃ k, readRecords (w.output.take n) (records.length + 1) RecordReader.open =
        .ok (records.take k, true) := by
  obtain ⟨w, hw⟩ := appendAll_isSome records RecordWriter.new
  refine ⟨w, hw, ?_, fun n => ?_⟩
  · obtain ⟨k, hk, hall⟩ := readRecords_appendAll (List.prefix_refl w.output) hw rfl
      (readerAt_open _) rfl rfl (Nat.lt_succ_self _)
    rw [hk, hall rfl, List.take_length]
  · obtain ⟨k, hk, -⟩ := readRecords_appendAll (List.take_prefix n w.output) hw rfl
      (readerAt_open _) rfl rfl (Nat.lt_succ_self _)
    exact ⟨k, hk⟩

end Dacha.SSTable
