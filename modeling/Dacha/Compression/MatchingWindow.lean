import Mathlib
import Dacha.Compression.CyclicBuffer

/-!
# Finding back-references (`compression/src/deflate/matching_window.rs`)

`MatchingWindow` keeps the past input in a `CyclicBuffer` and, for every trigram (three
consecutive bytes) it has seen, the absolute offsets where it starts, newest first.
`insert_trigram` cuts a chain to `max_chain_length` and drops the offsets that fell out of the
buffer from its back; `advance` extends the buffer and indexes every trigram that now ends in it;
`find_match` walks the chain of the next three input bytes, newest first, stops at the first
offset out of the buffer, and measures each candidate against `slice_from(off).append(data)`,
which lets a match run on into the input it copies.

- `ValidReference history data m r`: what a back-reference must be, stated over the bytes alone.
- `Inv w stream`: the buffer holds `stream` (`Ring.CyclicBuffer.Holds`), and every offset on a
  chain is where the stream has that trigram, whether or not it is still retained. It is made by
  `new` and kept by `advance` (`Inv.advance`).
- `Inv.findMatch_spec`: what `find_match` answers is a valid reference into the retained
  history, when `max_match_length` is at least 3. The loop measuring a candidate starts from
  length 3 and looks at the limit only from `i = 3` on, so a smaller limit still gives length 3.
- `ValidReference.copyBack_eq`: the inflater's copy loop decodes a valid reference to the input
  it stands for, overlapping references included.
-/

namespace Dacha.Compression

structure MatchingWindowOptions where
  maxChainLength : Nat
  maxMatchLength : Nat

structure AbsoluteReference where
  offset : Nat
  length : Nat
  deriving DecidableEq, Repr

/-- `RelativeReference`: `length` bytes, starting `distance` bytes before the current position. -/
structure RelativeReference where
  distance : Nat
  length : Nat
  deriving DecidableEq, Repr

abbrev Trigram := UInt8 × UInt8 × UInt8

/-- `MatchingWindow<CyclicBuffer>`. The `HashMap` of trigrams is a function to the `VecDeque` of
offsets, front first. -/
structure MatchingWindow where
  buffer : Ring.CyclicBuffer
  options : MatchingWindowOptions
  trigrams : Trigram → Option (List Nat)

namespace MatchingWindow

def new (buffer : Ring.CyclicBuffer) (options : MatchingWindowOptions) : MatchingWindow :=
  ⟨buffer, options, fun _ => none⟩

/-- The `while let` loop of `insert_trigram`: offsets before `start` popped off the back. -/
def popStale (start : Nat) (list : List Nat) : List Nat :=
  (list.reverse.dropWhile (· < start)).reverse

def insertTrigram (w : MatchingWindow) (gram : Trigram) (offset : Nat) : MatchingWindow :=
  match w.trigrams gram with
  | some list =>
    let list := offset :: popStale w.buffer.startOffset (list.take w.options.maxChainLength)
    if list.length = 0 then { w with trigrams := Function.update w.trigrams gram none }
    else { w with trigrams := Function.update w.trigrams gram (some list) }
  | none => { w with trigrams := Function.update w.trigrams gram (some [offset]) }

/-- `MatchingWindow::advance`: `first` and `last` bound the offsets of the trigrams that end in
the new bytes (`checked_sub(..).unwrap_or(0)` is truncated subtraction). -/
def advance (w : MatchingWindow) (data : List UInt8) : MatchingWindow :=
  let buffer := w.buffer.extendFromSlice data
  let first := buffer.endOffset - (data.length + 2)
  let first := if first < buffer.startOffset then buffer.startOffset else first
  let last := buffer.endOffset - 2
  (List.range' first (last - first)).foldl
    (fun w i => w.insertTrigram (buffer.index i, buffer.index (i + 1), buffer.index (i + 2)) i)
    { w with buffer }

/-- The inner `for` loop of `find_match`, over `i` from 3 to `s.len()`: the first `i` at a limit
or where the bytes differ, and 3 when there is none. -/
def matchLengthLoop (s : Ring.ConcatSlice) (data : List UInt8) (maxMatchLength : Nat) :
    List Nat → Nat
  | [] => 3
  | i :: is =>
    if i ≥ maxMatchLength ∨ i ≥ data.length ∨ s.index i ≠ data[i]? then i
    else matchLengthLoop s data maxMatchLength is

/-- The outer `for` loop of `find_match`, over the chain of offsets: a candidate replaces the
best so far unless that one is longer. -/
def findMatchLoop (w : MatchingWindow) (data : List UInt8) :
    List Nat → Option AbsoluteReference → Option AbsoluteReference
  | [], best => best
  | off :: offs, best =>
    if off < w.buffer.startOffset then best
    else
      let s := (w.buffer.sliceFrom off).append data
      let len := matchLengthLoop s data w.options.maxMatchLength (List.range' 3 (s.len - 3))
      match best with
      | some m =>
        if m.length > len then findMatchLoop w data offs best
        else findMatchLoop w data offs (some ⟨off, len⟩)
      | none => findMatchLoop w data offs (some ⟨off, len⟩)

def findMatch (w : MatchingWindow) (data : List UInt8) : Option RelativeReference :=
  if data.length < 3 then none
  else
    match w.trigrams (data[0]!, data[1]!, data[2]!) with
    | none => none
    | some offsets =>
      (findMatchLoop w data offsets none).map fun r => ⟨w.buffer.endOffset - r.offset, r.length⟩

/-- `advance` over each chunk in turn. -/
def advanceAll (w : MatchingWindow) (chunks : List (List UInt8)) : MatchingWindow :=
  chunks.foldl advance w

/-- The bytes the window still retains, read as `slice_from(start_offset())`. -/
def history (w : MatchingWindow) : List UInt8 :=
  (w.buffer.sliceFrom w.buffer.startOffset).toVec

/-! ## What a reference must satisfy -/

/-- `r` may stand for the first `r.length` bytes of `data` after `history`: at least a trigram,
within the limit and the input, reaching back at most to the start of `history`, and every byte
it copies (possibly one it has itself just produced) is the input's. -/
def ValidReference (history data : List UInt8) (maxMatchLength : Nat) (r : RelativeReference) :
    Prop :=
  3 ≤ r.length ∧ r.length ≤ min maxMatchLength data.length ∧ 1 ≤ r.distance ∧
    r.distance ≤ history.length ∧
    ∀ i < r.length, (history ++ data)[history.length - r.distance + i]? = data[i]?

instance (history data : List UInt8) (maxMatchLength : Nat) (r : RelativeReference) :
    Decidable (ValidReference history data maxMatchLength r) :=
  inferInstanceAs (Decidable (_ ∧ _ ∧ _ ∧ _ ∧ _))

/-! ## Chains point at their trigram -/

/-- The stream has the trigram `gram` at offset `off`. -/
def TrigramAt (stream : List UInt8) (off : Nat) (gram : Trigram) : Prop :=
  stream[off]? = some gram.1 ∧ stream[off + 1]? = some gram.2.1 ∧ stream[off + 2]? = some gram.2.2

/-- Every offset on every chain is where the stream has that chain's trigram. -/
def ChainsSound (trigrams : Trigram → Option (List Nat)) (stream : List UInt8) : Prop :=
  ∀ gram offs, trigrams gram = some offs → ∀ off ∈ offs, TrigramAt stream off gram

theorem getElem?_append_of_eq_some {s t : List UInt8} {i : Nat} {x : UInt8}
    (h : s[i]? = some x) : (s ++ t)[i]? = some x := by
  rw [List.getElem?_append_left (List.getElem?_eq_some_iff.1 h).1, h]

theorem TrigramAt.lt_length {s : List UInt8} {off : Nat} {gram : Trigram}
    (h : TrigramAt s off gram) : off + 2 < s.length :=
  (List.getElem?_eq_some_iff.1 h.2.2).1

theorem TrigramAt.append {s : List UInt8} {off : Nat} {gram : Trigram}
    (h : TrigramAt s off gram) (t : List UInt8) : TrigramAt (s ++ t) off gram :=
  ⟨getElem?_append_of_eq_some h.1, getElem?_append_of_eq_some h.2.1,
    getElem?_append_of_eq_some h.2.2⟩

theorem ChainsSound.append {trigrams : Trigram → Option (List Nat)} {s : List UInt8}
    (h : ChainsSound trigrams s) (t : List UInt8) : ChainsSound trigrams (s ++ t) :=
  fun gram offs hg off hoff => (h gram offs hg off hoff).append t

/-- A retained offset two bytes before the end starts the trigram the buffer reads there. -/
theorem trigramAt_of_holds {b : Ring.CyclicBuffer} {s : List UInt8} (hb : b.Holds s) {i : Nat}
    (hstart : b.startOffset ≤ i) (hend : i + 2 < b.endOffset) :
    TrigramAt s i (b.index i, b.index (i + 1), b.index (i + 2)) :=
  ⟨hb.read i (Nat.zero_le _) hstart (by omega), hb.read (i + 1) (Nat.zero_le _) (by omega) (by omega),
    hb.read (i + 2) (Nat.zero_le _) (by omega) hend⟩

theorem mem_popStale {start : Nat} {list : List Nat} {off : Nat} (h : off ∈ popStale start list) :
    off ∈ list := by
  unfold popStale at h
  exact List.mem_reverse.1 ((List.dropWhile_suffix _).subset (List.mem_reverse.1 h))

@[simp] theorem buffer_insertTrigram (w : MatchingWindow) (gram : Trigram) (offset : Nat) :
    (w.insertTrigram gram offset).buffer = w.buffer := by
  unfold insertTrigram
  split <;> rfl

@[simp] theorem options_insertTrigram (w : MatchingWindow) (gram : Trigram) (offset : Nat) :
    (w.insertTrigram gram offset).options = w.options := by
  unfold insertTrigram
  split <;> rfl

/-- `insert_trigram` puts `offset` in front of what is left of the old chain; the branch that
would remove an empty chain is dead, as the chain has just had an offset pushed. -/
theorem trigrams_insertTrigram (w : MatchingWindow) (gram : Trigram) (offset : Nat) :
    (w.insertTrigram gram offset).trigrams = Function.update w.trigrams gram
      (some (offset :: ((w.trigrams gram).map fun list =>
        popStale w.buffer.startOffset (list.take w.options.maxChainLength)).getD [])) := by
  unfold insertTrigram
  split
  next list hlist => simp [hlist]
  next hnone => simp [hnone]

theorem ChainsSound.insertTrigram {w : MatchingWindow} {s : List UInt8}
    (h : ChainsSound w.trigrams s) {gram : Trigram} {offset : Nat}
    (hnew : TrigramAt s offset gram) : ChainsSound (w.insertTrigram gram offset).trigrams s := by
  intro gram' offs hg off hoff
  rw [trigrams_insertTrigram] at hg
  by_cases hgram : gram' = gram
  · subst hgram
    rw [Function.update_self, Option.some_inj] at hg
    subst hg
    rcases List.mem_cons.1 hoff with rfl | hold
    · exact hnew
    · -- an offset kept from the old chain
      cases hlist : w.trigrams gram' with
      | none => simp [hlist] at hold
      | some list =>
        rw [hlist, Option.map_some, Option.getD_some] at hold
        exact h _ list hlist off (List.mem_of_mem_take (mem_popStale hold))
  · rw [Function.update_of_ne hgram] at hg
    exact h gram' offs hg off hoff

section Insert

variable (g : Nat → Trigram)

theorem buffer_foldl_insertTrigram : ∀ (is : List Nat) (w : MatchingWindow),
    (is.foldl (fun w i => w.insertTrigram (g i) i) w).buffer = w.buffer
  | [], _ => rfl
  | i :: is, w => by
    rw [List.foldl_cons, buffer_foldl_insertTrigram is, buffer_insertTrigram]

theorem options_foldl_insertTrigram : ∀ (is : List Nat) (w : MatchingWindow),
    (is.foldl (fun w i => w.insertTrigram (g i) i) w).options = w.options
  | [], _ => rfl
  | i :: is, w => by
    rw [List.foldl_cons, options_foldl_insertTrigram is, options_insertTrigram]

theorem ChainsSound.foldl_insertTrigram {s : List UInt8} : ∀ (is : List Nat) (w : MatchingWindow),
    ChainsSound w.trigrams s → (∀ i ∈ is, TrigramAt s i (g i)) →
      ChainsSound (is.foldl (fun w i => w.insertTrigram (g i) i) w).trigrams s
  | [], _, h, _ => h
  | i :: is, w, h, hall => by
    rw [List.foldl_cons]
    exact ChainsSound.foldl_insertTrigram is _ (h.insertTrigram (hall i List.mem_cons_self))
      fun j hj => hall j (List.mem_cons_of_mem _ hj)

end Insert

@[simp] theorem buffer_advance (w : MatchingWindow) (data : List UInt8) :
    (w.advance data).buffer = w.buffer.extendFromSlice data := by
  simp only [advance, buffer_foldl_insertTrigram]

@[simp] theorem options_advance (w : MatchingWindow) (data : List UInt8) :
    (w.advance data).options = w.options := by
  simp only [advance, options_foldl_insertTrigram]

@[simp] theorem options_advanceAll (w : MatchingWindow) (chunks : List (List UInt8)) :
    (w.advanceAll chunks).options = w.options := by
  induction chunks generalizing w with
  | nil => rfl
  | cons c cs ih => rw [advanceAll, List.foldl_cons, ← advanceAll, ih, options_advance]

/-! ## The window's invariant -/

/-- The buffer holds the stream fed to the window, and every chain is sound for it. -/
structure Inv (w : MatchingWindow) (stream : List UInt8) : Prop where
  holds : w.buffer.Holds stream
  chains : ChainsSound w.trigrams stream

theorem inv_new {size : Nat} (h : 0 < size) (options : MatchingWindowOptions) :
    Inv (new (Ring.CyclicBuffer.new size) options) [] :=
  ⟨Ring.CyclicBuffer.holds_new h, fun _ _ hg => by simp [new] at hg⟩

/-- `advance` keeps the invariant: old offsets still start their trigram in the longer stream,
and each new one lies in the retained part of the extended buffer, which reads the stream. -/
theorem Inv.advance {w : MatchingWindow} {s : List UInt8} (h : Inv w s) (data : List UInt8) :
    Inv (w.advance data) (s ++ data) := by
  have hb := h.holds.extendFromSlice data
  refine ⟨by rw [buffer_advance]; exact hb, ?_⟩
  unfold MatchingWindow.advance
  dsimp only
  refine ChainsSound.foldl_insertTrigram _ _ _ (h.chains.append data) fun i hi => ?_
  rw [List.mem_range'_1] at hi
  refine trigramAt_of_holds hb ?_ ?_ <;> split_ifs at hi <;> omega

theorem Inv.advanceAll : ∀ (chunks : List (List UInt8)) {w : MatchingWindow} {s : List UInt8},
    Inv w s → Inv (w.advanceAll chunks) (s ++ chunks.flatten)
  | [], _, s, h => by simpa [MatchingWindow.advanceAll] using h
  | c :: cs, _, s, h => by
    have := Inv.advanceAll cs (h.advance c)
    simpa [MatchingWindow.advanceAll, List.append_assoc] using this

/-! ## `find_match` -/

/-- An absolute reference that the window may answer with: it starts in the retained part of the
stream, and copying it from the stream followed by the input gives the input. -/
structure Sound (w : MatchingWindow) (stream data : List UInt8) (r : AbsoluteReference) :
    Prop where
  start_le : w.buffer.startOffset ≤ r.offset
  lt_end : r.offset < w.buffer.endOffset
  three_le : 3 ≤ r.length
  le_max : r.length ≤ w.options.maxMatchLength
  le_data : r.length ≤ data.length
  copies : ∀ i < r.length, (stream ++ data)[r.offset + i]? = data[i]?

/-- The inner loop, started at `a` past the limit and the input: its length lies between 3 and
both, and the bytes from `a` up to it agree. The induction is on how many `i` are left. -/
theorem matchLengthLoop_spec (c : Ring.ConcatSlice) {data : List UInt8} {m : Nat} :
    ∀ (k a : Nat), 3 ≤ a → a ≤ m → a ≤ data.length →
      3 ≤ matchLengthLoop c data m (List.range' a k) ∧
        matchLengthLoop c data m (List.range' a k) ≤ m ∧
        matchLengthLoop c data m (List.range' a k) ≤ data.length ∧
        ∀ i, a ≤ i → i < matchLengthLoop c data m (List.range' a k) → c.index i = data[i]?
  | 0, a, h3, hm, hd => by
    simp only [List.range'_zero, matchLengthLoop]
    exact ⟨le_rfl, by omega, by omega, fun i hi hi' => by omega⟩
  | k + 1, a, h3, hm, hd => by
    rw [List.range'_succ, matchLengthLoop]
    split_ifs with hstop
    · -- the loop breaks at `a`
      exact ⟨h3, hm, hd, fun i hi hi' => by omega⟩
    · simp only [not_or, not_le, ne_eq, not_not] at hstop
      obtain ⟨hma, hda, heq⟩ := hstop
      obtain ⟨h1, h2, h3', h4⟩ := matchLengthLoop_spec c k (a + 1) (by omega) hma hda
      refine ⟨h1, h2, h3', fun i hi hi' => ?_⟩
      rcases Nat.eq_or_lt_of_le hi with rfl | hlt
      · exact heq
      · exact h4 i hlt hi'

theorem some_getElem! {data : List UInt8} {i : Nat} (h : i < data.length) :
    some data[i]! = data[i]? := by
  simp [h]

section Find

variable {w : MatchingWindow} {s data : List UInt8}

/-- A retained offset on the chain of the input's first trigram gives a sound candidate: the
slice the loop reads is the stream from the offset on followed by the input, its first three
bytes are the trigram, and the loop vouches for the rest. -/
theorem Inv.candidate (hinv : Inv w s) (hm : 3 ≤ w.options.maxMatchLength)
    (hd : 3 ≤ data.length) {off : Nat} (hstart : w.buffer.startOffset ≤ off)
    (hgram : TrigramAt s off (data[0]!, data[1]!, data[2]!)) :
    Sound w s data ⟨off, matchLengthLoop ((w.buffer.sliceFrom off).append data) data
      w.options.maxMatchLength (List.range' 3 (((w.buffer.sliceFrom off).append data).len - 3))⟩ := by
  have hlen := hinv.holds.endOffset_eq
  have hend := hgram.lt_length
  have hread : ∀ i, ((w.buffer.sliceFrom off).append data).index i = (s ++ data)[off + i]? := by
    intro i
    rw [Ring.ConcatSlice.index_eq, Ring.ConcatSlice.toVec_append,
      hinv.holds.toVec_sliceFrom hstart (by omega), ← List.drop_append_of_le_length (by omega),
      List.getElem?_drop]
  obtain ⟨h3, hmax, hdata, hcopy⟩ := matchLengthLoop_spec ((w.buffer.sliceFrom off).append data)
    (((w.buffer.sliceFrom off).append data).len - 3) 3 le_rfl hm hd
  refine ⟨hstart, by dsimp only; omega, h3, hmax, hdata, fun i hi => ?_⟩
  by_cases hi3 : 3 ≤ i
  · rw [← hread]
    exact hcopy i hi3 hi
  · -- the first three bytes are the trigram the chain was found under
    obtain ⟨h0, h1, h2⟩ := hgram
    rcases (by omega : i = 0 ∨ i = 1 ∨ i = 2) with rfl | rfl | rfl
    · rw [Nat.add_zero, getElem?_append_of_eq_some h0, some_getElem! (by omega)]
    · rw [getElem?_append_of_eq_some h1, some_getElem! (by omega)]
    · rw [getElem?_append_of_eq_some h2, some_getElem! (by omega)]

/-- The outer loop keeps a sound best match: it stops at the first offset out of the buffer, and
every candidate it measures before that is sound. -/
theorem Inv.findMatchLoop (hinv : Inv w s) (hm : 3 ≤ w.options.maxMatchLength)
    (hd : 3 ≤ data.length) : ∀ (offs : List Nat) (best : Option AbsoluteReference),
      (∀ off ∈ offs, TrigramAt s off (data[0]!, data[1]!, data[2]!)) →
      (∀ r, best = some r → Sound w s data r) →
      ∀ r, w.findMatchLoop data offs best = some r → Sound w s data r
  | [], best, _, hbest, r, hr => hbest r hr
  | off :: offs, best, hchain, hbest, r, hr => by
    have htail : ∀ off ∈ offs, TrigramAt s off (data[0]!, data[1]!, data[2]!) :=
      fun o ho => hchain o (List.mem_cons_of_mem _ ho)
    rw [MatchingWindow.findMatchLoop] at hr
    split_ifs at hr with hstale
    · exact hbest r hr
    · have hcand := hinv.candidate hm hd (Nat.le_of_not_lt hstale) (hchain off List.mem_cons_self)
      dsimp only at hr
      split at hr
      · split_ifs at hr
        · exact Inv.findMatchLoop hinv hm hd offs _ htail hbest r hr
        · refine Inv.findMatchLoop hinv hm hd offs _ htail ?_ r hr
          rintro r ⟨⟩
          exact hcand
      · refine Inv.findMatchLoop hinv hm hd offs _ htail ?_ r hr
        rintro r ⟨⟩
        exact hcand

/-- The retained history is the stream from `start_offset` on. -/
theorem Inv.history_eq (hinv : Inv w s) : w.history = s.drop w.buffer.startOffset := by
  have hle : w.buffer.startOffset ≤ w.buffer.endOffset := by
    rw [Ring.CyclicBuffer.startOffset_eq]
    omega
  exact hinv.holds.toVec_sliceFrom le_rfl hle

/-- `find_match` answers with a valid reference into the retained history, when the limit on a
match's length is at least a trigram's. -/
theorem Inv.findMatch_spec (hinv : Inv w s) (hm : 3 ≤ w.options.maxMatchLength)
    {r : RelativeReference} (hr : w.findMatch data = some r) :
    ValidReference w.history data w.options.maxMatchLength r := by
  unfold findMatch at hr
  split_ifs at hr with hshort
  split at hr
  · exact absurd hr (by simp)
  · rename_i offs hoffs
    obtain ⟨a, ha, rfl⟩ := Option.map_eq_some_iff.1 hr
    have ha := hinv.findMatchLoop hm (by omega) offs none
      (fun off hoff => hinv.chains _ offs hoffs off hoff) (by simp) a ha
    have hlen := hinv.holds.endOffset_eq
    have hstart := ha.start_le
    have hlt := ha.lt_end
    have hhist := hinv.history_eq
    have hhlen : w.history.length = w.buffer.endOffset - w.buffer.startOffset := by
      rw [hhist, List.length_drop]
      omega
    refine ⟨ha.three_le, le_min ha.le_max ha.le_data, by dsimp only; omega,
      by dsimp only; omega, fun i hi => ?_⟩
    have hidx : w.history.length - (w.buffer.endOffset - a.offset) + i =
        a.offset - w.buffer.startOffset + i := by
      omega
    dsimp only at hi ⊢
    rw [hidx, hhist, ← List.drop_append_of_le_length (by omega), List.getElem?_drop,
      ← Nat.add_assoc, Nat.add_sub_cancel' hstart]
    exact ha.copies i hi

end Find

/-- Over any run of `advance` calls from an empty window of `MAX_REFERENCE_DISTANCE` bytes,
`find_match` answers with a valid reference when `max_match_length` is at least 3. -/
theorem findMatch_sound (options : MatchingWindowOptions) (hm : 3 ≤ options.maxMatchLength)
    (chunks : List (List UInt8)) (data : List UInt8) {r : RelativeReference}
    (hr : ((new (Ring.CyclicBuffer.new MAX_REFERENCE_DISTANCE) options).advanceAll chunks).findMatch
      data = some r) :
    ValidReference ((new (Ring.CyclicBuffer.new MAX_REFERENCE_DISTANCE) options).advanceAll
      chunks).history data options.maxMatchLength r := by
  have hpos : 0 < MAX_REFERENCE_DISTANCE := by decide
  have hinv := (inv_new hpos options).advanceAll chunks
  have hm' : 3 ≤ ((new (Ring.CyclicBuffer.new MAX_REFERENCE_DISTANCE) options).advanceAll
      chunks).options.maxMatchLength := by
    rw [options_advanceAll]
    exact hm
  have hvalid := hinv.findMatch_spec hm' hr
  rwa [options_advanceAll] at hvalid

/-- A repeated run of four bytes is found four bytes back. -/
theorem findMatch_repeat_four :
    ((new (Ring.CyclicBuffer.new MAX_REFERENCE_DISTANCE) ⟨32, 258⟩).advanceAll
      [[1, 2, 3, 1, 2, 3, 4]]).findMatch [1, 2, 3, 4, 5] = some ⟨4, 4⟩ ∧
    ValidReference ((new (Ring.CyclicBuffer.new MAX_REFERENCE_DISTANCE) ⟨32, 258⟩).advanceAll
      [[1, 2, 3, 1, 2, 3, 4]]).history [1, 2, 3, 4, 5] 258 ⟨4, 4⟩ := by
  have hr : ((new (Ring.CyclicBuffer.new MAX_REFERENCE_DISTANCE) ⟨32, 258⟩).advanceAll
      [[1, 2, 3, 1, 2, 3, 4]]).findMatch [1, 2, 3, 4, 5] = some ⟨4, 4⟩ := by decide
  exact ⟨hr, findMatch_sound ⟨32, 258⟩ (by decide) _ _ hr⟩

/-- With `max_match_length = 2` the trigram alone is still answered with length 3. -/
theorem findMatch_exceeds_small_limit :
    ((new (Ring.CyclicBuffer.new MAX_REFERENCE_DISTANCE) ⟨32, 2⟩).advanceAll
      [[1, 2, 3]]).findMatch [1, 2, 3] = some ⟨3, 3⟩ ∧
    ¬ ValidReference ((new (Ring.CyclicBuffer.new MAX_REFERENCE_DISTANCE) ⟨32, 2⟩).advanceAll
      [[1, 2, 3]]).history [1, 2, 3] 2 ⟨3, 3⟩ := by
  decide

end MatchingWindow

/-! ## Decoding a reference

The inflater's copy loop `copyBack` (`Inflate.lean`) reads each byte it writes from the output
it is growing. A valid reference makes it write exactly the input it stands for. -/

/-- Run on output that already holds `out` and the first `m` bytes of `data`, from the position
the reference reads at that point, `copyBack` appends the next `n` bytes of `data`: each byte it
reads lies in what is already written, and is `data`'s. -/
theorem copyBack_take {out data : List UInt8} {i : Nat} (hi : i < out.length) :
    ∀ (n m : Nat), m + n ≤ data.length → (∀ j < m + n, (out ++ data)[i + j]? = data[j]?) →
      copyBack n (i + m) (out ++ data.take m) = out ++ data.take (m + n)
  | 0, _, _, _ => rfl
  | n + 1, m, hlen, hcopy => by
    have hprefix : out ++ data.take m = (out ++ data).take (out.length + m) := by
      have hout : out.take (out.length + m) = out := List.take_of_length_le (Nat.le_add_right _ _)
      rw [List.take_append, hout, Nat.add_sub_cancel_left]
    have hget : (out ++ data.take m).getD (i + m) 0 = data[m] := by
      rw [List.getD_eq_getElem?_getD, hprefix, List.getElem?_take_of_lt (by omega),
        hcopy m (by omega), List.getElem?_eq_getElem (by omega), Option.getD_some]
    rw [copyBack, hget, List.append_assoc, List.take_concat_get' data m (by omega),
      Nat.add_assoc i m 1, copyBack_take hi n (m + 1) (by omega) fun j hj => hcopy j (by omega),
      Nat.add_right_comm m 1 n, Nat.add_assoc]

/-- Decoding a valid reference after its history gives back the bytes of the input it covers. -/
theorem MatchingWindow.ValidReference.copyBack_eq {history data : List UInt8}
    {maxMatchLength : Nat} {r : RelativeReference}
    (h : MatchingWindow.ValidReference history data maxMatchLength r) :
    copyBack r.length (history.length - r.distance) history = history ++ data.take r.length := by
  obtain ⟨_, hle, hd1, hdh, hcopy⟩ := h
  have hi : history.length - r.distance < history.length := by omega
  have hlen : 0 + r.length ≤ data.length := by
    have := le_min_iff.1 hle
    omega
  simpa using copyBack_take hi r.length 0 hlen (by simpa using hcopy)

/-- A reference one byte back and four long reads the bytes it is writing. -/
theorem copyBack_eq_overlapping :
    copyBack 4 0 [7] = [7] ++ ([7, 7, 7, 7] : List UInt8).take 4 :=
  @MatchingWindow.ValidReference.copyBack_eq [7] [7, 7, 7, 7] 258 ⟨1, 4⟩ (by decide)

end Dacha.Compression
