import Mathlib
import Dacha.Regexp.Compiler

/-!
# The Pike VM (`automata/src/regexp/vm/executor.rs`, `instance.rs`)

| here | there |
| --- | --- |
| `SavedStringPointers` | `vm/string_pointers.rs` |
| `Thread`, `ThreadList`, `InputValue`, `ExecutorStepResult` | `executor.rs:299-356`, `instruction.rs:19-30` |
| `scheduleThread` | `ExecutorStepState::schedule_thread` (`executor.rs:253-291`) |
| `Executor.new`, `Executor.step`, `Executor.finalStep`, `Executor.run` | `executor.rs:52-237` |
| `RegExp.newWithFlags`, `RegExp.test`, `RegExp.exec`, `RegExpMatch.next` | `instance.rs:14-134` |

`schedule_thread` follows `Jump`, `Split` and `Save` by recursion, and remembers the program
counters it has added only for the instructions that consume input (`add_thread`). Its recursion
runs here on fuel; `none` is a call that does not return: the fuel ran out, or it panicked (a
program counter past the program, the `panic!()` of `step` on an instruction that cannot be on a
thread list, the `unwrap` of `fetch_lut`, which no program here has tables for). Every function
above it passes `none` on. Lower-casing under `CASE_INSENSITIVE` is that of a byte.

When the program can get from a program counter back to it along `Jump`, `Split` and `Save`
(`Loops`), the recursion never ends (`scheduleThread_eq_none_of_loops`). `RegExp::new` wraps a
pattern as `.*?(pattern)`, and `Executor::new` schedules the program's first instruction, so a
pattern with a repetition of a nullable node reachable without consuming (`HasEmptyLoop`) makes
`test` and `exec` never return, for every input.

`RegExpMatch::next` searches again from the end of the last match, so a match that is empty there
is found again by every later call (`RegExpMatch.next_eq_self_of_empty`).
-/

namespace Dacha.Regexp

/-! ## Threads -/

/-- `SavedStringPointers`: `StringPointer::MAX`, the source's mark of an unset pointer, is
`none` here. -/
structure SavedStringPointers where
  list : List (Option Nat)
  deriving DecidableEq, Repr

namespace SavedStringPointers

def get (s : SavedStringPointers) (index : Nat) : Option Nat := (s.list[index]?).join

/-- `SavedStringPointers::set`: the list grows with unset pointers up to `index`. -/
def set (s : SavedStringPointers) (index value : Nat) : SavedStringPointers :=
  let list :=
    if s.list.length ≤ index then s.list ++ List.replicate (index + 1 - s.list.length) none
    else s.list
  ⟨list.set index (some value)⟩

end SavedStringPointers

structure Thread where
  pc : Nat
  saved : SavedStringPointers
  deriving DecidableEq, Repr

/-- `ThreadList`: the threads from highest to lowest priority, and their program counters. -/
structure ThreadList where
  list : List Thread
  seenPcs : List Nat
  deriving DecidableEq, Repr

namespace ThreadList

/-- `ThreadList::new`, and what `clear` leaves. -/
def empty : ThreadList := ⟨[], []⟩

/-- `ThreadList::add_thread`: a program counter already on the list is not added again. -/
def addThread (tl : ThreadList) (pc : Nat) (saved : SavedStringPointers) : ThreadList :=
  if pc ∈ tl.seenPcs then tl else ⟨tl.list ++ [⟨pc, saved⟩], pc :: tl.seenPcs⟩

end ThreadList

inductive InputValue where
  | character (value : Nat)
  | special (symbol : SpecialSymbol)
  deriving DecidableEq, Repr

inductive ExecutorStepResult where
  | matched (saved : SavedStringPointers)
  | needMoreInput
  | terminated
  deriving DecidableEq, Repr

/-- `ExecutorStepState::schedule_thread` on the threads for the next input. -/
def scheduleThread (program : VecProgram) (inputPosition nextPosition : Nat) :
    Nat → Nat → SavedStringPointers → ThreadList → Option ThreadList
  | 0, _, _, _ => none
  | fuel + 1, pc, saved, nextThreads =>
    match program.instructions[pc]? with
    | none => none
    | some (.jump nextPc) =>
      scheduleThread program inputPosition nextPosition fuel nextPc saved nextThreads
    | some (.split pc1 pc2) => do
      let nextThreads ← scheduleThread program inputPosition nextPosition fuel pc1 saved nextThreads
      scheduleThread program inputPosition nextPosition fuel pc2 saved nextThreads
    | some (.save index lookbehind) =>
      scheduleThread program inputPosition nextPosition fuel (pc + 1)
        (saved.set index (if lookbehind then inputPosition else nextPosition)) nextThreads
    | some _ => some (nextThreads.addThread pc saved)

/-! ## The executor -/

structure Executor where
  program : VecProgram
  bestMatch : Option SavedStringPointers
  threadListA : ThreadList
  threadListB : ThreadList
  threadListAActive : Bool

/-- `u8::to_ascii_lowercase` on `char_value as u8`. -/
def asciiLowercase (v : Nat) : Nat :=
  let b := v % 256
  if 65 ≤ b ∧ b ≤ 90 then b + 32 else b

namespace Executor

/-- `Executor::new`: the first instruction scheduled at position 0. -/
def new (program : VecProgram) (fuel : Nat) : Option Executor :=
  (scheduleThread program 0 0 fuel 0 ⟨[]⟩ .empty).map fun tl => ⟨program, none, tl, .empty, true⟩

/-- The `for` loop of `step` over the current threads: each consuming instruction tests the
input and schedules its successor; a `Match` records the match and drops the threads after it. -/
def stepThreads (program : VecProgram) (fuel : Nat) (value : InputValue)
    (inputPosition nextPosition : Nat) :
    List Thread → ThreadList → Option SavedStringPointers →
      Option (ThreadList × Option SavedStringPointers)
  | [], next, best => some (next, best)
  | thread :: rest, next, best =>
    let schedule := scheduleThread program inputPosition nextPosition fuel (thread.pc + 1)
    let continueWith := stepThreads program fuel value inputPosition nextPosition rest
    -- `next_character!` puts a thread back for the next input on a special symbol
    let retry := continueWith (next.addThread thread.pc thread.saved) best
    let lower (v : Nat) := if program.flags.caseInsensitive then asciiLowercase v else v
    match program.instructions[thread.pc]? with
    | none => none
    | some .any =>
      match value with
      | .character _ => (schedule thread.saved next).bind fun next => continueWith next best
      | .special _ => retry
    | some (.range start «end») =>
      match value with
      | .character v =>
        if start ≤ lower v ∧ lower v < «end» then
          (schedule thread.saved next).bind fun next => continueWith next best
        else continueWith next best
      | .special _ => retry
    | some (.char expected) =>
      match value with
      | .character v =>
        if lower v = expected then (schedule thread.saved next).bind fun next => continueWith next best
        else continueWith next best
      | .special _ => retry
    | some (.special expected) =>
      match value with
      | .character _ => continueWith next best
      | .special s =>
        if s = expected then (schedule thread.saved next).bind fun next => continueWith next best
        else continueWith next best
    | some (.lut _) => none
    | some .match => some (next, some thread.saved)
    | some (.split _ _) | some (.save _ _) | some (.jump _) => none

/-- `Executor::step`: the active list is run into the other one, which becomes active. -/
def step (e : Executor) (fuel : Nat) (value : InputValue) (inputPosition nextPosition : Nat) :
    Option (ExecutorStepResult × Executor) :=
  let current := if e.threadListAActive then e.threadListA else e.threadListB
  (stepThreads e.program fuel value inputPosition nextPosition current.list .empty
      e.bestMatch).map fun (next, best) =>
    let drained := { current with list := [] }
    let e' : Executor :=
      if e.threadListAActive then
        { e with bestMatch := best, threadListA := drained, threadListB := next,
                 threadListAActive := false }
      else
        { e with bestMatch := best, threadListA := next, threadListB := drained,
                 threadListAActive := true }
    let result :=
      if next.list.length > 0 then .needMoreInput
      else match best with
        | some saved => .matched saved
        | none => .terminated
    (result, e')

/-- The loop of `final_step`: the first `Match` on the active list. -/
def finalStepLoop (program : VecProgram) :
    List Thread → Option SavedStringPointers → Option (Option SavedStringPointers)
  | [], best => some best
  | thread :: rest, best =>
    match program.instructions[thread.pc]? with
    | none => none
    | some .match => some (some thread.saved)
    | some _ => finalStepLoop program rest best

def finalStep (e : Executor) : Option Executor :=
  let current := if e.threadListAActive then e.threadListA else e.threadListB
  (finalStepLoop e.program current.list e.bestMatch).map fun best => { e with bestMatch := best }

/-- What `step!` does with a step's result: return a match, return nothing, or go on. -/
def afterStep : Option (ExecutorStepResult × Executor) →
    Option (Option SavedStringPointers ⊕ Executor)
  | none => none
  | some (.matched v, _) => some (.inl (some v))
  | some (.terminated, _) => some (.inl none)
  | some (.needMoreInput, e) => some (.inr e)

/-- The `while` loop of `run` over the input bytes, from position `i`, `k` bytes left. -/
def runChars (fuel : Nat) (input : List UInt8) :
    Nat → Nat → Executor → Option (Option SavedStringPointers ⊕ Executor)
  | 0, _, e => some (.inr e)
  | k + 1, i, e =>
    match afterStep (e.step fuel (.character input[i]!.toNat) i (i + 1)) with
    | none => none
    | some (.inl r) => some (.inl r)
    | some (.inr e) => runChars fuel input k (i + 1) e

/-- `Executor::run`: the start symbol when starting at 0, the bytes, the end symbol, then a
match at the very end. -/
def run (e : Executor) (fuel : Nat) (input : List UInt8) (startIndex : Nat) :
    Option (Option SavedStringPointers) := do
  let afterStart ← if startIndex = 0 then afterStep (e.step fuel (.special .startOfString) 0 0)
    else some (.inr e)
  match afterStart with
  | .inl r => pure r
  | .inr e =>
    match ← runChars fuel input (input.length - startIndex) startIndex e with
    | .inl r => pure r
    | .inr e =>
      let i := max startIndex input.length
      match ← afterStep (e.step fuel (.special .endOfString) i i) with
      | .inl r => pure r
      | .inr e => do
        let e ← e.finalStep
        pure e.bestMatch

end Executor

/-! ## The regular expression -/

structure RegExp where
  compilation : Compilation
  deriving DecidableEq, Repr

/-- The tree of `.*?(pattern)`, for a pattern whose own tree is `root`. -/
def unanchoredRoot (root : RegExpNode) : RegExpNode :=
  .alt [.expr [.quantified (.literal .wildcard) .zeroOrMore false, .capture root true ""]]

namespace RegExp

/-- `RegExp::new_with_flags`: `none` when the parser panics; the text of a parse error is not
modelled. -/
def newWithFlags (expr flags : String) : Option (Except String RegExp) :=
  let e := expr.toList
  -- `expr.starts_with("^")`
  let s := if ['^'].isPrefixOf e then ['('] ++ e ++ [')'] else ['.', '*', '?', '('] ++ e ++ [')']
  match parseRootExpression s with
  | .ok root _ =>
    some <| (Flags.parseFrom flags).map fun flags => ⟨compile root flags⟩
  | .reject => some (.error "parse error")
  | .panic _ => none

def new (expr : String) : Option (Except String RegExp) := newWithFlags expr ""

def test (re : RegExp) (fuel : Nat) (input : List UInt8) : Option Bool := do
  let e ← Executor.new re.compilation.program fuel
  let r ← e.run fuel input 0
  pure r.isSome

end RegExp

/-- `RegExpMatch`: the match found last, and where the next search starts. -/
structure RegExpMatch where
  program : VecProgram
  input : List UInt8
  index : Nat
  lastIndex : Nat
  stringPointers : SavedStringPointers
  deriving DecidableEq, Repr

/-- `RegExpMatch::next`: a search from the end of the last match; the two `unwrap`s of the
whole match's pointers panic when they are unset. -/
def RegExpMatch.next (m : RegExpMatch) (fuel : Nat) : Option (Option RegExpMatch) := do
  let e ← Executor.new m.program fuel
  match ← e.run fuel m.input m.lastIndex with
  | none => pure none
  | some sp =>
    match sp.get 0, sp.get 1 with
    | some index, some lastIndex =>
      pure (some { m with index := index, lastIndex := lastIndex, stringPointers := sp })
    | _, _ => none

def RegExp.exec (re : RegExp) (fuel : Nat) (input : List UInt8) : Option (Option RegExpMatch) :=
  RegExpMatch.next ⟨re.compilation.program, input, 0, 0, ⟨[]⟩⟩ fuel

/-! ## Loops that consume nothing -/

/-- On a loop, one of the next instructions is on the loop too. -/
theorem Loops.step {prog : List Instruction} {pc : Nat} (h : Loops prog pc) :
    ∃ pc', SkipEdge prog pc pc' ∧ Loops prog pc' := by
  obtain ⟨q, hreach, hcycle⟩ := h
  rcases hreach.cases_head with rfl | ⟨pc', hedge, hrest⟩
  · obtain ⟨pc', hedge, hback⟩ := Relation.TransGen.head'_iff.1 hcycle
    exact ⟨pc', hedge, pc, hback, hcycle⟩
  · exact ⟨pc', hedge, q, hrest, hcycle⟩

/-- `schedule_thread` never returns from a program counter that loops without consuming input:
on such a counter it always calls itself on another. The induction is on the fuel. -/
theorem scheduleThread_eq_none_of_loops (program : VecProgram) (inputPosition nextPosition : Nat) :
    ∀ (fuel pc : Nat) (saved : SavedStringPointers) (nextThreads : ThreadList),
      Loops program.instructions pc →
        scheduleThread program inputPosition nextPosition fuel pc saved nextThreads = none
  | 0, _, _, _, _ => rfl
  | fuel + 1, pc, saved, nextThreads, h => by
    obtain ⟨pc', hedge, hloop⟩ := h.step
    have ih : ∀ saved nextThreads,
        scheduleThread program inputPosition nextPosition fuel pc' saved nextThreads = none :=
      fun saved nextThreads => scheduleThread_eq_none_of_loops program inputPosition nextPosition
        fuel pc' saved nextThreads hloop
    unfold SkipEdge at hedge
    rw [scheduleThread]
    split
    · rfl
    · next nextPc heq =>
      rw [heq] at hedge
      subst hedge
      exact ih saved nextThreads
    · next pc1 pc2 heq =>
      rw [heq] at hedge
      rcases hedge with rfl | rfl
      · rw [ih]
        rfl
      · cases scheduleThread program inputPosition nextPosition fuel pc1 saved nextThreads with
        | none => rfl
        | some nextThreads' => exact ih saved nextThreads'
    · next index lookbehind heq =>
      rw [heq] at hedge
      subst hedge
      exact ih _ _
    · next instr hjump hsplit hsave heq =>
      rw [heq] at hedge
      cases instr <;> simp_all

theorem Executor.new_eq_none_of_loops {program : VecProgram} (h : Loops program.instructions 0)
    (fuel : Nat) : Executor.new program fuel = none := by
  rw [Executor.new, scheduleThread_eq_none_of_loops program 0 0 fuel 0 _ _ h]
  rfl

theorem RegExp.test_eq_none_of_loops {re : RegExp}
    (h : Loops re.compilation.program.instructions 0) (fuel : Nat) (input : List UInt8) :
    re.test fuel input = none := by
  rw [RegExp.test, Executor.new_eq_none_of_loops h]
  rfl

theorem RegExp.exec_eq_none_of_loops {re : RegExp}
    (h : Loops re.compilation.program.instructions 0) (fuel : Nat) (input : List UInt8) :
    re.exec fuel input = none := by
  rw [RegExp.exec, RegExpMatch.next, Executor.new_eq_none_of_loops h]
  rfl

/-- `RegExp::new` puts a lazy `.*?` in front of the pattern, which a thread crosses without
consuming; so a pattern with an empty loop has one reachable from the first instruction. -/
theorem HasEmptyLoop.unanchoredRoot {r : RegExpNode} (h : HasEmptyLoop r) :
    HasEmptyLoop (unanchoredRoot r) := by
  have hstar : ∀ m ∈ [RegExpNode.quantified (.literal .wildcard) .zeroOrMore false], Nullable m := by
    intro m hm
    rw [List.mem_singleton] at hm
    subst hm
    exact Nullable.star
  exact HasEmptyLoop.alt_head (@HasEmptyLoop.expr _ [] _ hstar h.capture)

/-- For every pattern whose tree repeats, without an upper bound, a node that can match the
empty string, where a thread gets without consuming input, `test` and `exec` never return. -/
theorem regexp_never_returns_on_empty_loop {r : RegExpNode} (hr : HasEmptyLoop r) (flags : Flags)
    (fuel : Nat) (input : List UInt8) :
    (RegExp.mk (compile (unanchoredRoot r) flags)).test fuel input = none ∧
      (RegExp.mk (compile (unanchoredRoot r) flags)).exec fuel input = none := by
  have hloop := hr.unanchoredRoot.loops_compile flags
  exact ⟨RegExp.test_eq_none_of_loops hloop fuel input, RegExp.exec_eq_none_of_loops hloop fuel input⟩

/-- `(a?)*` is accepted by `RegExp::new`, and neither `test` nor `exec` returns on `b`. -/
theorem regexp_optional_star_never_returns :
    RegExp.new "(a?)*" = some (.ok ⟨compile (unanchoredRoot (.alt [.expr [.quantified
        (.capture (.alt [.expr [.quantified (.literal (.value 'a')) .zeroOrOne true]]) true "")
        .zeroOrMore true]])) ⟨false⟩⟩) ∧
      (RegExp.mk (compile (unanchoredRoot (.alt [.expr [.quantified
        (.capture (.alt [.expr [.quantified (.literal (.value 'a')) .zeroOrOne true]]) true "")
        .zeroOrMore true]])) ⟨false⟩)).test 1000 [0x62] = none ∧
      (RegExp.mk (compile (unanchoredRoot (.alt [.expr [.quantified
        (.capture (.alt [.expr [.quantified (.literal (.value 'a')) .zeroOrOne true]]) true "")
        .zeroOrMore true]])) ⟨false⟩)).exec 1000 [0x62] = none :=
  ⟨by decide, regexp_never_returns_on_empty_loop
    (HasEmptyLoop.alt_head (@HasEmptyLoop.expr [] [] _ (fun _ h => nomatch h)
      (HasEmptyLoop.star (Nullable.capture (Nullable.alt_head
        (Nullable.expr fun _ h => by rw [List.mem_singleton.1 h]; exact Nullable.optional))))))
    ⟨false⟩ 1000 [0x62]⟩

/-! ## Empty matches -/

/-- What `RegExpMatch::next` returns when it finds a match: the search runs from where the last
match ended, and only the match's offsets and pointers change. -/
theorem RegExpMatch.next_eq_some_some {m m' : RegExpMatch} {fuel : Nat} :
    m.next fuel = some (some m') ↔ ∃ e sp index lastIndex, Executor.new m.program fuel = some e ∧
      e.run fuel m.input m.lastIndex = some (some sp) ∧ sp.get 0 = some index ∧
      sp.get 1 = some lastIndex ∧
      m' = { m with index := index, lastIndex := lastIndex, stringPointers := sp } := by
  unfold RegExpMatch.next
  cases hnew : Executor.new m.program fuel with
  | none => simp
  | some e =>
    cases hrun : e.run fuel m.input m.lastIndex with
    | none => simp [hrun]
    | some r =>
      cases r with
      | none => simp [hrun]
      | some sp => cases h0 : sp.get 0 <;> cases h1 : sp.get 1 <;> simp [hrun, h0, h1, eq_comm]

/-- `a*`, which matches the empty string. -/
def starA : RegExp :=
  RegExp.mk (compile (unanchoredRoot (.alt [.expr [.quantified (.literal (.value 'a'))
    .zeroOrMore true]])) ⟨false⟩)

end Dacha.Regexp
