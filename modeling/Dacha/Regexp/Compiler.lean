import Mathlib
import Dacha.Regexp.Syntax

/-!
# Compiling a regular expression for the Pike VM (`automata/src/regexp/vm/compiler.rs`)

| here | there |
| --- | --- |
| `RegExpSymbol`, `invertSymbols`, `PatternChar.rawSymbols` | `symbol.rs:20-94`, `node.rs:333-378` |
| `SpecialSymbol`, `Instruction`, `VecProgram`, `Flags` | `vm/instruction.rs:38-99`, `:157-205`, `vm/flags.rs` |
| `Compilation`, `Compiler` | `compiler.rs:11-21`, `:58-62` |
| `compileNode`, `compileNodes`, `compileAlternationNodes` | `compile_node` (`:96-286`) |
| `compileOptionalNode`, `compileZeroOrMoreNode` | `compile_optional_node`, `compile_zero_or_more_node` (`:288-324`) |
| `compileAlternation`, `alternationStep` | `compile_alternation` (`:326-357`) |
| `compile` | `Compiler::compile` (`:65-83`); `optimize` has only comments |

The compiler appends instructions to a vector and patches the placeholders it left at its own
earlier positions. A quantifier's body is emitted once per repetition, and `compile_alternation`
is generic over the items it alternates; the nodes of an `Alt` go through it with `compile_node`
(`compileAlternationNodes_eq`). `groups_by_name` is not modelled: nothing modelled reads it.

Lean structural recursion follows the tree, so the two helpers that emit a quantifier take the
body's compiler as a function, which `compile_node` passes as `compileNode node`.
-/

namespace Dacha.Regexp

/-! ## Symbols -/

/-- `RegExpSymbol`: the code points from `start` up to `end`, exclusive. -/
structure RegExpSymbol where
  start : Nat
  «end» : Nat
  deriving DecidableEq, Repr

namespace RegExpSymbol

def inclusiveRange (s e : Char) : RegExpSymbol := ⟨s.toNat, e.toNat + 1⟩

def single (c : Char) : RegExpSymbol := inclusiveRange c c

end RegExpSymbol

/-- `std::char::MAX as u32` -/
def CHAR_MAX : Nat := 0x10FFFF

/-- `invert_symbols`: each symbol's gaps below and above it, one symbol at a time. -/
def invertSymbols (syms : List RegExpSymbol) : List RegExpSymbol :=
  syms.flatMap fun item =>
    (if item.start > 0 then [⟨0, item.start⟩] else []) ++
      (if item.end < CHAR_MAX then [⟨item.end, CHAR_MAX⟩] else [])

def PatternChar.rawSymbols (c : PatternChar) : List RegExpSymbol :=
  let out : List RegExpSymbol := match c with
    | .value c => [.single c]
    | .range s e => [.inclusiveRange s e]
    | .digit | .notDigit => [.inclusiveRange '0' '9']
    | .word | .notWord =>
      [.inclusiveRange '0' '9', .inclusiveRange 'A' 'Z', .inclusiveRange 'a' 'z', .single '_']
    | .whitespace | .notWhiteSpace =>
      [.single '\t', .single '\n', .single (Char.ofNat 0x0C), .single '\r', .single ' ']
    | .wildcard => [⟨0, CHAR_MAX + 1⟩]
  match c with
  | .notWhiteSpace | .notDigit | .notWord => invertSymbols out
  | _ => out

/-! ## Programs -/

inductive SpecialSymbol where
  | startOfString
  | startOfLine
  | endOfLine
  | endOfString
  deriving DecidableEq, Repr

/-- `Instruction`. Program counters and character values are numbers. -/
inductive Instruction where
  | any
  | range (start «end» : Nat)
  | char (value : Nat)
  | special (symbol : SpecialSymbol)
  | lut (index : Nat)
  | «match»
  | jump (pc : Nat)
  | split (pc1 pc2 : Nat)
  | save (index : Nat) (lookbehind : Bool)
  deriving DecidableEq, Repr

/-- `Flags`: the one flag there is. -/
structure Flags where
  caseInsensitive : Bool
  deriving DecidableEq, Repr

def Flags.parseFrom (s : String) : Except String Flags :=
  s.toList.foldlM (fun (val : Flags) c =>
    if c = 'i' then .ok { val with caseInsensitive := true }
    else .error ("Unknown flag character: " ++ c.toString)) ⟨false⟩

structure VecProgram where
  instructions : List Instruction
  flags : Flags
  deriving DecidableEq, Repr

/-- `Compilation`: the program, and for each captured group the indices of its two saved
positions. -/
structure Compilation where
  program : VecProgram
  groups : List (Nat × Nat)
  deriving DecidableEq, Repr

structure Compiler where
  output : Compilation
  nextStringIndex : Nat

namespace Compiler

def addInstruction (c : Compiler) (instruction : Instruction) : Compiler :=
  { c with output.program.instructions := c.output.program.instructions ++ [instruction] }

def programCounter (c : Compiler) : Nat := c.output.program.instructions.length

/-- `self.output.program[idx] = instruction`, for a placeholder. -/
def setInstruction (c : Compiler) (idx : Nat) (instruction : Instruction) : Compiler :=
  { c with output.program.instructions := c.output.program.instructions.set idx instruction }

/-- The closure `compile_node` hands `compile_alternation` for symbols. -/
def compileSymbol (c : Compiler) (sym : RegExpSymbol) : Compiler :=
  if sym.end = sym.start + 1 then c.addInstruction (.char sym.start)
  else c.addInstruction (.range sym.start sym.end)

/-- One level of `compile_alternation`: a split to the first item and to the rest, and a jump
from the end of the first item past the rest. -/
def alternationStep (first rest : Compiler → Compiler) (c : Compiler) : Compiler :=
  let splitIdx := c.programCounter
  let c := c.addInstruction (.split 0 0)
  let firstIdx := c.programCounter
  let c := first c
  let jumpIdx := c.programCounter
  let c := c.addInstruction (.jump 0)
  let secondIdx := c.programCounter
  let c := rest c
  let endIdx := c.programCounter
  (c.setInstruction splitIdx (.split firstIdx secondIdx)).setInstruction jumpIdx (.jump endIdx)

def compileAlternation {α : Type} (emit : Compiler → α → Compiler) : List α → Compiler → Compiler
  | [], c => c
  | n :: rest, c =>
    match rest with
    | [] => emit c n
    | _ :: _ => alternationStep (emit · n) (compileAlternation emit rest) c

/-- `compile_optional_node`, with the body's compiler given. -/
def compileOptionalNode (body : Compiler → Compiler) (greedy : Bool) (c : Compiler) : Compiler :=
  let splitIdx := c.programCounter
  let c := c.addInstruction (.split 0 0)
  let c := body c
  let a := splitIdx + 1
  let b := c.programCounter
  c.setInstruction splitIdx (if greedy then .split a b else .split b a)

/-- `compile_zero_or_more_node`, with the body's compiler given. -/
def compileZeroOrMoreNode (body : Compiler → Compiler) (greedy : Bool) (c : Compiler) :
    Compiler :=
  let splitIdx := c.programCounter
  let c := c.addInstruction (.split 0 0)
  let c := body c
  let c := c.addInstruction (.jump splitIdx)
  let a := splitIdx + 1
  let b := c.programCounter
  c.setInstruction splitIdx (if greedy then .split a b else .split b a)

/-- The `OneOrMore` arm: the body, then a split back to it. -/
def compileOneOrMoreNode (body : Compiler → Compiler) (greedy : Bool) (c : Compiler) :
    Compiler :=
  let startIdx := c.programCounter
  let c := body c
  let a := startIdx
  let b := c.programCounter + 1
  c.addInstruction (if greedy then .split a b else .split b a)

/-- What a capturing group takes: the next two string indices, recorded in `groups`. -/
def newGroup (c : Compiler) : Compiler :=
  { c with
    nextStringIndex := c.nextStringIndex + 2
    output.groups := c.output.groups ++ [(c.nextStringIndex, c.nextStringIndex + 1)] }

/-- The `Capture` arm: a capturing group saves the positions around its inside. -/
def compileCapture (inner : Compiler → Compiler) (capturing : Bool) (c : Compiler) : Compiler :=
  if capturing then
    let startIdx := c.nextStringIndex
    let endIdx := c.nextStringIndex + 1
    let c := c.newGroup.addInstruction (.save startIdx false)
    let c := inner c
    c.addInstruction (.save endIdx false)
  else inner c

mutual

def compileNode : RegExpNode → Compiler → Compiler
  | .start, c => c.addInstruction (.special .startOfString)
  | .«end», c => c.addInstruction (.special .endOfString)
  | .literal .wildcard, c => c.addInstruction .any
  | .literal ch, c => compileAlternation compileSymbol ch.rawSymbols c
  | .alt nodes, c => compileAlternationNodes nodes c
  | .expr nodes, c => compileNodes nodes c
  | .quantified node quantifier greedy, c =>
    match quantifier with
    | .zeroOrOne => compileOptionalNode (compileNode node) greedy c
    | .zeroOrMore => compileZeroOrMoreNode (compileNode node) greedy c
    | .oneOrMore => compileOneOrMoreNode (compileNode node) greedy c
    | .between lower upper =>
      (compileOptionalNode (compileNode node) greedy)^[upper - lower] ((compileNode node)^[lower] c)
    | .exactlyN num => (compileNode node)^[num] c
    | .nOrMore num => compileZeroOrMoreNode (compileNode node) greedy ((compileNode node)^[num] c)
  | .capture inner capturing _, c => compileCapture (compileNode inner) capturing c
  | .«class» chars inverted, c =>
    let symbols := chars.flatMap PatternChar.rawSymbols
    let symbols := if inverted then invertSymbols symbols else symbols
    compileAlternation compileSymbol symbols c

/-- The `for` loop of the `Expr` arm. -/
def compileNodes : List RegExpNode → Compiler → Compiler
  | [], c => c
  | n :: ns, c => compileNodes ns (compileNode n c)

/-- `compile_alternation` on the nodes of an `Alt`, with `compile_node` as its closure. -/
def compileAlternationNodes : List RegExpNode → Compiler → Compiler
  | [], c => c
  | n :: rest, c =>
    match rest with
    | [] => compileNode n c
    | _ :: _ => alternationStep (compileNode n) (compileAlternationNodes rest) c

end

/-- The nodes of an `Alt` go through the generic `compile_alternation`. -/
theorem compileAlternationNodes_eq :
    ∀ nodes : List RegExpNode,
      compileAlternationNodes nodes = compileAlternation (fun c n => compileNode n c) nodes
  | [] => rfl
  | [_] => rfl
  | n :: m :: rest => by
    show alternationStep (compileNode n) (compileAlternationNodes (m :: rest)) = _
    rw [compileAlternationNodes_eq (m :: rest)]
    rfl

end Compiler

/-- `Compiler::compile`: the root's code and a final `Match`. -/
def compile (root : RegExpNode) (flags : Flags) : Compilation :=
  let c : Compiler := ⟨⟨⟨[], flags⟩, []⟩, 0⟩
  ((Compiler.compileNode root c).addInstruction .match).output

/-! ## Code that consumes nothing

`schedule_thread` follows `Jump`, `Split` and `Save` at once, without consuming input: these
are the edges of `SkipEdge`. `ReachFrom lo` only takes edges from positions from `lo` on, where a
node compiled at `lo` has its code; the compiler patches placeholders only before that code or
past its end, so such a path survives what is compiled around it (`ReachFrom.mono`). -/

/-- One instruction that `schedule_thread` follows without consuming input. -/
def SkipEdge (prog : List Instruction) (pc pc' : Nat) : Prop :=
  match prog[pc]? with
  | some (.jump target) => pc' = target
  | some (.split pc1 pc2) => pc' = pc1 ∨ pc' = pc2
  | some (.save _ _) => pc' = pc + 1
  | _ => False

/-- Reachable along instructions that consume nothing. -/
abbrev Reach (prog : List Instruction) : Nat → Nat → Prop :=
  Relation.ReflTransGen (SkipEdge prog)

/-- An edge of `SkipEdge` from a position from `lo` on. -/
def StepFrom (lo : Nat) (prog : List Instruction) (pc pc' : Nat) : Prop :=
  lo ≤ pc ∧ SkipEdge prog pc pc'

/-- Reachable along instructions that consume nothing, all from `lo` on. -/
abbrev ReachFrom (lo : Nat) (prog : List Instruction) : Nat → Nat → Prop :=
  Relation.ReflTransGen (StepFrom lo prog)

/-- From `pc`, instructions from `lo` on that consume nothing lead back to `pc`. -/
abbrev CycleFrom (lo : Nat) (prog : List Instruction) (pc : Nat) : Prop :=
  Relation.TransGen (StepFrom lo prog) pc pc

/-- `prog'` has `prog`'s instructions at the positions of `prog` from `lo` on. -/
def Agrees (lo : Nat) (prog prog' : List Instruction) : Prop :=
  ∀ i, lo ≤ i → i < prog.length → prog'[i]? = prog[i]?

theorem skipEdge_jump {prog : List Instruction} {pc target : Nat}
    (h : prog[pc]? = some (.jump target)) : SkipEdge prog pc target := by
  unfold SkipEdge
  rw [h]

theorem skipEdge_split_left {prog : List Instruction} {pc a b : Nat}
    (h : prog[pc]? = some (.split a b)) : SkipEdge prog pc a := by
  unfold SkipEdge
  rw [h]
  exact Or.inl rfl

theorem skipEdge_split_right {prog : List Instruction} {pc a b : Nat}
    (h : prog[pc]? = some (.split a b)) : SkipEdge prog pc b := by
  unfold SkipEdge
  rw [h]
  exact Or.inr rfl

theorem skipEdge_save {prog : List Instruction} {pc index : Nat} {lookbehind : Bool}
    (h : prog[pc]? = some (.save index lookbehind)) : SkipEdge prog pc (pc + 1) := by
  unfold SkipEdge
  rw [h]

theorem SkipEdge.lt_length {prog : List Instruction} {pc pc' : Nat} (h : SkipEdge prog pc pc') :
    pc < prog.length := by
  unfold SkipEdge at h
  cases hpc : prog[pc]? with
  | none => rw [hpc] at h; exact h.elim
  | some x => exact (List.getElem?_eq_some_iff.1 hpc).1

theorem SkipEdge.mono {lo : Nat} {prog prog' : List Instruction} (h : Agrees lo prog prog')
    {pc pc' : Nat} (hlo : lo ≤ pc) (he : SkipEdge prog pc pc') : SkipEdge prog' pc pc' := by
  have hlt := he.lt_length
  unfold SkipEdge at he ⊢
  rw [h pc hlo hlt]
  exact he

theorem StepFrom.mono {lo : Nat} {prog prog' : List Instruction} (h : Agrees lo prog prog') :
    StepFrom lo prog ≤ StepFrom lo prog' :=
  fun _ _ he => ⟨he.1, he.2.mono h he.1⟩

theorem StepFrom.weaken {lo lo' : Nat} (hle : lo' ≤ lo) (prog : List Instruction) :
    StepFrom lo prog ≤ StepFrom lo' prog :=
  fun _ _ he => ⟨le_trans hle he.1, he.2⟩

theorem ReachFrom.mono {lo : Nat} {prog prog' : List Instruction} (h : Agrees lo prog prog')
    {pc pc' : Nat} (hr : ReachFrom lo prog pc pc') : ReachFrom lo prog' pc pc' :=
  Relation.ReflTransGen.mono (StepFrom.mono h) _ _ hr

theorem ReachFrom.weaken {lo lo' : Nat} (hle : lo' ≤ lo) {prog : List Instruction}
    {pc pc' : Nat} (hr : ReachFrom lo prog pc pc') : ReachFrom lo' prog pc pc' :=
  Relation.ReflTransGen.mono (StepFrom.weaken hle prog) _ _ hr

theorem ReachFrom.reach {lo : Nat} {prog : List Instruction} {pc pc' : Nat}
    (hr : ReachFrom lo prog pc pc') : Reach prog pc pc' :=
  Relation.ReflTransGen.mono (fun _ _ (he : StepFrom lo prog _ _) => he.2) _ _ hr

theorem ReachFrom.edge {lo : Nat} {prog : List Instruction} {pc pc' : Nat} (hlo : lo ≤ pc)
    (he : SkipEdge prog pc pc') : ReachFrom lo prog pc pc' :=
  Relation.ReflTransGen.single ⟨hlo, he⟩

theorem CycleFrom.mono {lo : Nat} {prog prog' : List Instruction} (h : Agrees lo prog prog')
    {pc : Nat} (hc : CycleFrom lo prog pc) : CycleFrom lo prog' pc :=
  Relation.TransGen.mono (StepFrom.mono h) _ _ hc

theorem CycleFrom.weaken {lo lo' : Nat} (hle : lo' ≤ lo) {prog : List Instruction} {pc : Nat}
    (hc : CycleFrom lo prog pc) : CycleFrom lo' prog pc :=
  Relation.TransGen.mono (StepFrom.weaken hle prog) _ _ hc

theorem CycleFrom.cycle {lo : Nat} {prog : List Instruction} {pc : Nat}
    (hc : CycleFrom lo prog pc) : Relation.TransGen (SkipEdge prog) pc pc :=
  Relation.TransGen.mono (fun _ _ (he : StepFrom lo prog _ _) => he.2) _ _ hc

theorem agrees_of_isPrefix {lo : Nat} {prog prog' : List Instruction} (h : prog <+: prog') :
    Agrees lo prog prog' := by
  intro i _ hi
  obtain ⟨t, rfl⟩ := h
  exact List.getElem?_append_left hi

theorem Agrees.trans {lo : Nat} {l₁ l₂ l₃ : List Instruction} (h₁₂ : Agrees lo l₁ l₂)
    (h₂₃ : Agrees lo l₂ l₃) (hlen : l₁.length ≤ l₂.length) : Agrees lo l₁ l₃ := by
  intro i hlo hi
  rw [h₂₃ i hlo (by omega), h₁₂ i hlo hi]

/-- A patch before `lo` or past the end leaves the code from `lo` as it was. -/
theorem Agrees.set {lo : Nat} {prog prog' : List Instruction} (h : Agrees lo prog prog')
    {idx : Nat} (hidx : idx < lo ∨ prog.length ≤ idx) (x : Instruction) :
    Agrees lo prog (prog'.set idx x) := by
  intro i hlo hi
  rw [List.getElem?_set_ne (by omega)]
  exact h i hlo hi

theorem prefix_set {l l' : List Instruction} (h : l <+: l') {idx : Nat} (hidx : l.length ≤ idx)
    (x : Instruction) : l <+: l'.set idx x := by
  obtain ⟨t, rfl⟩ := h
  rw [List.set_append_right _ _ hidx]
  exact List.prefix_append _ _

namespace Compiler

@[simp] theorem instructions_addInstruction (c : Compiler) (i : Instruction) :
    (c.addInstruction i).output.program.instructions = c.output.program.instructions ++ [i] :=
  rfl

@[simp] theorem programCounter_addInstruction (c : Compiler) (i : Instruction) :
    (c.addInstruction i).programCounter = c.programCounter + 1 := by
  simp [programCounter]

@[simp] theorem instructions_setInstruction (c : Compiler) (idx : Nat) (i : Instruction) :
    (c.setInstruction idx i).output.program.instructions =
      c.output.program.instructions.set idx i :=
  rfl

@[simp] theorem programCounter_newGroup (c : Compiler) :
    c.newGroup.programCounter = c.programCounter :=
  rfl

@[simp] theorem programCounter_setInstruction (c : Compiler) (idx : Nat) (i : Instruction) :
    (c.setInstruction idx i).programCounter = c.programCounter := by
  simp [programCounter]

/-- A compiler step keeps what was compiled before it. -/
def Grows (f : Compiler → Compiler) : Prop :=
  ∀ c, c.output.program.instructions <+: (f c).output.program.instructions

/-- A compiler step emits code that can be crossed from its start to its end without consuming
input, along edges within that code. -/
def Skips (f : Compiler → Compiler) : Prop :=
  ∀ c, ReachFrom c.programCounter (f c).output.program.instructions c.programCounter
    (f c).programCounter

theorem Grows.pc_le {f : Compiler → Compiler} (hf : Grows f) (c : Compiler) :
    c.programCounter ≤ (f c).programCounter :=
  (hf c).length_le

theorem Grows.comp {f g : Compiler → Compiler} (hf : Grows f) (hg : Grows g) : Grows (g ∘ f) :=
  fun c => (hf c).trans (hg (f c))

theorem Grows.iterate {f : Compiler → Compiler} (hf : Grows f) : ∀ k, Grows f^[k]
  | 0 => fun _ => List.prefix_refl _
  | k + 1 => by
    rw [Function.iterate_succ]
    exact hf.comp (Grows.iterate hf k)

theorem grows_addInstruction (i : Instruction) : Grows (·.addInstruction i) :=
  fun _ => List.prefix_append _ _

theorem Skips.comp {f g : Compiler → Compiler} (hf : Skips f) (hfg : Grows f) (hg : Skips g)
    (hgg : Grows g) : Skips (g ∘ f) := fun c =>
  ((hf c).mono (agrees_of_isPrefix (hgg (f c)))).trans ((hg (f c)).weaken (hfg.pc_le c))

theorem skips_id : Skips id := fun _ => Relation.ReflTransGen.refl

theorem Skips.iterate {f : Compiler → Compiler} (hf : Skips f) (hg : Grows f) :
    ∀ k, Skips f^[k]
  | 0 => skips_id
  | k + 1 => by
    rw [Function.iterate_succ]
    exact hf.comp hg (Skips.iterate hf hg k) (hg.iterate k)

/-! ### Each way of emitting code -/

theorem grows_compileSymbol (sym : RegExpSymbol) : Grows (compileSymbol · sym) := by
  intro c
  unfold compileSymbol
  split_ifs <;> exact List.prefix_append _ _

theorem grows_alternationStep {first rest : Compiler → Compiler} (hf : Grows first)
    (hr : Grows rest) : Grows (alternationStep first rest) := by
  intro c
  have h2 := (grows_addInstruction (.split 0 0) c).trans (hf _)
  have h4 := (h2.trans (grows_addInstruction (.jump 0) _)).trans (hr _)
  simp only [alternationStep, instructions_setInstruction]
  exact prefix_set (prefix_set h4 le_rfl _) h2.length_le _

theorem grows_compileAlternation {α : Type} {emit : Compiler → α → Compiler}
    (h : ∀ x, Grows (emit · x)) : ∀ items : List α, Grows (compileAlternation emit items)
  | [] => fun c => by
    rw [compileAlternation]
  | [n] => fun c => by
    rw [compileAlternation]
    exact h n c
  | n :: m :: rest => fun c => by
    rw [compileAlternation]
    exact grows_alternationStep (h n) (grows_compileAlternation h (m :: rest)) c

/-- Where `alternationStep` leaves its split and its jump, and that it leaves the code of both
items as they were compiled. -/
theorem alternationStep_spec {first rest : Compiler → Compiler} (hf : Grows first)
    (hr : Grows rest) (c : Compiler) :
    let c1 := c.addInstruction (.split 0 0)
    let c2 := first c1
    let c3 := c2.addInstruction (.jump 0)
    let c4 := rest c3
    let out := (alternationStep first rest c).output.program.instructions
    (alternationStep first rest c).programCounter = c4.programCounter ∧
      out[c.programCounter]? = some (.split c1.programCounter c3.programCounter) ∧
      out[c2.programCounter]? = some (.jump c4.programCounter) ∧
      Agrees c1.programCounter c2.output.program.instructions out ∧
      Agrees c3.programCounter c4.output.program.instructions out ∧
      c1.programCounter ≤ c2.programCounter ∧ c3.programCounter ≤ c4.programCounter := by
  intro c1 c2 c3 c4 out
  have h1 : c1.programCounter = c.programCounter + 1 := programCounter_addInstruction _ _
  have h3 : c3.programCounter = c2.programCounter + 1 := programCounter_addInstruction _ _
  have h12 : c1.programCounter ≤ c2.programCounter := hf.pc_le c1
  have h34 : c3.output.program.instructions <+: c4.output.program.instructions := hr c3
  have h34' : c3.programCounter ≤ c4.programCounter := h34.length_le
  have hc4 : c4.output.program.instructions.length = c4.programCounter := rfl
  have hout : out = (c4.output.program.instructions.set c.programCounter
      (.split c1.programCounter c3.programCounter)).set c2.programCounter
        (.jump c4.programCounter) := rfl
  refine ⟨by simp [alternationStep, c4, c3, c2, c1], ?_, ?_, ?_, ?_, h12, h34'⟩
  · rw [hout, List.getElem?_set_ne (by omega), List.getElem?_set_self (by omega)]
  · rw [hout, List.getElem?_set_self (by rw [List.length_set]; omega)]
  · -- the first item's code lies between the split and the jump
    rw [hout]
    exact ((agrees_of_isPrefix ((grows_addInstruction _ _).trans h34)).set (Or.inl (by omega)) _).set
      (Or.inr le_rfl) _
  · -- the rest's code lies past both
    rw [hout]
    exact ((agrees_of_isPrefix (List.prefix_refl _)).set (Or.inl (by omega)) _).set
      (Or.inl (by omega)) _

theorem skips_alternationStep_first {first rest : Compiler → Compiler} (hf : Skips first)
    (hfg : Grows first) (hrg : Grows rest) : Skips (alternationStep first rest) := by
  intro c
  obtain ⟨hpc, hsplit, hjump, hfirst, -, hle, -⟩ := alternationStep_spec hfg hrg c
  have h1 := programCounter_addInstruction c (.split 0 0)
  rw [hpc]
  refine (ReachFrom.edge le_rfl (skipEdge_split_left hsplit)).trans ?_
  refine (((hf _).mono hfirst).weaken (by omega)).trans ?_
  exact ReachFrom.edge (by omega) (skipEdge_jump hjump)

theorem skips_alternationStep_rest {first rest : Compiler → Compiler} (hr : Skips rest)
    (hfg : Grows first) (hrg : Grows rest) : Skips (alternationStep first rest) := by
  intro c
  obtain ⟨hpc, hsplit, -, -, hrest, hle, -⟩ := alternationStep_spec hfg hrg c
  have h1 := programCounter_addInstruction c (.split 0 0)
  have h3 := programCounter_addInstruction (first (c.addInstruction (.split 0 0))) (.jump 0)
  rw [hpc]
  refine (ReachFrom.edge le_rfl (skipEdge_split_right hsplit)).trans ?_
  exact ((hr _).mono hrest).weaken (by omega)

/-- Both targets of a split are edges, whichever way round the split is. -/
theorem skipEdge_split_ite {prog : List Instruction} {pc a b : Nat} {greedy : Bool}
    (h : prog[pc]? = some (if greedy then .split a b else .split b a)) :
    SkipEdge prog pc a ∧ SkipEdge prog pc b := by
  cases greedy
  · exact ⟨skipEdge_split_right h, skipEdge_split_left h⟩
  · exact ⟨skipEdge_split_left h, skipEdge_split_right h⟩

/-- The code of `f` comes back to its start without consuming input. -/
def LoopsAtStart (f : Compiler → Compiler) : Prop :=
  ∀ c, CycleFrom c.programCounter (f c).output.program.instructions c.programCounter

section Quantifiers

variable {body : Compiler → Compiler} (hb : Grows body) (greedy : Bool)
include hb

/-- Where `compile_optional_node` leaves its split. -/
theorem compileOptionalNode_spec (c : Compiler) :
    let c1 := c.addInstruction (.split 0 0)
    let c2 := body c1
    let out := (compileOptionalNode body greedy c).output.program.instructions
    (compileOptionalNode body greedy c).programCounter = c2.programCounter ∧
      out[c.programCounter]? = some (if greedy then .split (c.programCounter + 1) c2.programCounter
        else .split c2.programCounter (c.programCounter + 1)) ∧
      c.output.program.instructions <+: out ∧
      Agrees c1.programCounter c2.output.program.instructions out ∧
      c1.programCounter ≤ c2.programCounter := by
  intro c1 c2 out
  have h1 : c1.programCounter = c.programCounter + 1 := programCounter_addInstruction _ _
  have h12 : c1.programCounter ≤ c2.programCounter := hb.pc_le c1
  have hc2 : c2.output.program.instructions.length = c2.programCounter := rfl
  have hout : out = c2.output.program.instructions.set c.programCounter
      (if greedy then .split (c.programCounter + 1) c2.programCounter
        else .split c2.programCounter (c.programCounter + 1)) := rfl
  refine ⟨by simp [compileOptionalNode, c2, c1], ?_, ?_, ?_, h12⟩
  · rw [hout, List.getElem?_set_self (by omega)]
  · rw [hout]
    exact prefix_set ((grows_addInstruction _ c).trans (hb _)) le_rfl _
  · rw [hout]
    exact (agrees_of_isPrefix (List.prefix_refl _)).set (Or.inl (by omega)) _

theorem grows_compileOptionalNode : Grows (compileOptionalNode body greedy) :=
  fun c => (compileOptionalNode_spec hb greedy c).2.2.1

/-- An optional node is crossed by its split alone. -/
theorem skips_compileOptionalNode : Skips (compileOptionalNode body greedy) := by
  intro c
  obtain ⟨hpc, hsplit, -, -, -⟩ := compileOptionalNode_spec hb greedy c
  rw [hpc]
  exact ReachFrom.edge le_rfl (skipEdge_split_ite hsplit).2

/-- Where `compile_zero_or_more_node` leaves its split and its jump back. -/
theorem compileZeroOrMoreNode_spec (c : Compiler) :
    let c1 := c.addInstruction (.split 0 0)
    let c2 := body c1
    let c3 := c2.addInstruction (.jump c.programCounter)
    let out := (compileZeroOrMoreNode body greedy c).output.program.instructions
    (compileZeroOrMoreNode body greedy c).programCounter = c3.programCounter ∧
      out[c.programCounter]? = some (if greedy then .split (c.programCounter + 1) c3.programCounter
        else .split c3.programCounter (c.programCounter + 1)) ∧
      out[c2.programCounter]? = some (.jump c.programCounter) ∧
      c.output.program.instructions <+: out ∧
      Agrees c1.programCounter c2.output.program.instructions out ∧
      c1.programCounter ≤ c2.programCounter := by
  intro c1 c2 c3 out
  have h1 : c1.programCounter = c.programCounter + 1 := programCounter_addInstruction _ _
  have h12 : c1.programCounter ≤ c2.programCounter := hb.pc_le c1
  have hc3 : c3.output.program.instructions = c2.output.program.instructions ++
      [.jump c.programCounter] := rfl
  have hc2 : c2.output.program.instructions.length = c2.programCounter := rfl
  have hout : out = c3.output.program.instructions.set c.programCounter
      (if greedy then .split (c.programCounter + 1) c3.programCounter
        else .split c3.programCounter (c.programCounter + 1)) := rfl
  refine ⟨by simp [compileZeroOrMoreNode, c3, c2, c1], ?_, ?_, ?_, ?_, h12⟩
  · rw [hout, List.getElem?_set_self (by simp [hc3]; omega)]
  · rw [hout, List.getElem?_set_ne (by omega), hc3, List.getElem?_append_right (by omega)]
    simp [hc2]
  · rw [hout]
    exact prefix_set (((grows_addInstruction _ c).trans (hb _)).trans (grows_addInstruction _ _))
      le_rfl _
  · rw [hout]
    exact (agrees_of_isPrefix (grows_addInstruction _ c2)).set (Or.inl (by omega)) _

theorem grows_compileZeroOrMoreNode : Grows (compileZeroOrMoreNode body greedy) :=
  fun c => (compileZeroOrMoreNode_spec hb greedy c).2.2.2.1

/-- A star is crossed by the branch of its split that leaves the loop. -/
theorem skips_compileZeroOrMoreNode : Skips (compileZeroOrMoreNode body greedy) := by
  intro c
  obtain ⟨hpc, hsplit, -, -, -, -⟩ := compileZeroOrMoreNode_spec hb greedy c
  rw [hpc]
  exact ReachFrom.edge le_rfl (skipEdge_split_ite hsplit).2

/-- A star over a body that can be crossed without consuming comes back to its split: into the
body, across it, and along the jump back. -/
theorem loopsAtStart_compileZeroOrMoreNode (hs : Skips body) :
    LoopsAtStart (compileZeroOrMoreNode body greedy) := by
  intro c
  obtain ⟨-, hsplit, hjump, -, hbody, h12⟩ := compileZeroOrMoreNode_spec hb greedy c
  have h1 := programCounter_addInstruction c (.split 0 0)
  refine Relation.TransGen.head' ⟨le_rfl, (skipEdge_split_ite hsplit).1⟩ ?_
  refine Relation.ReflTransGen.tail ?_ ⟨by omega, skipEdge_jump hjump⟩
  rw [← h1]
  exact ((hs _).mono hbody).weaken (by omega)

omit hb in
/-- Where the `OneOrMore` arm leaves its split back. -/
theorem compileOneOrMoreNode_spec (c : Compiler) :
    let c1 := body c
    let out := (compileOneOrMoreNode body greedy c).output.program.instructions
    (compileOneOrMoreNode body greedy c).programCounter = c1.programCounter + 1 ∧
      out[c1.programCounter]? = some (if greedy then .split c.programCounter (c1.programCounter + 1)
        else .split (c1.programCounter + 1) c.programCounter) ∧
      c1.output.program.instructions <+: out := by
  intro c1 out
  have hc1 : c1.output.program.instructions.length = c1.programCounter := rfl
  refine ⟨by simp [compileOneOrMoreNode, c1], ?_, grows_addInstruction _ c1⟩
  show (c1.output.program.instructions ++ _)[c1.programCounter]? = _
  rw [List.getElem?_append_right (by omega)]
  simp [hc1, c1]

theorem grows_compileOneOrMoreNode : Grows (compileOneOrMoreNode body greedy) :=
  fun c => (hb c).trans (compileOneOrMoreNode_spec greedy c).2.2

/-- A plus over a body that can be crossed is crossed by the body and its split's exit. -/
theorem skips_compileOneOrMoreNode (hs : Skips body) :
    Skips (compileOneOrMoreNode body greedy) := by
  intro c
  obtain ⟨hpc, hsplit, hpre⟩ := compileOneOrMoreNode_spec greedy c
  rw [hpc]
  exact ((hs c).mono (agrees_of_isPrefix hpre)).tail
    ⟨hb.pc_le c, (skipEdge_split_ite hsplit).2⟩

/-- A plus over a body that can be crossed comes back to its start along its split. -/
theorem loopsAtStart_compileOneOrMoreNode (hs : Skips body) :
    LoopsAtStart (compileOneOrMoreNode body greedy) := by
  intro c
  obtain ⟨-, hsplit, hpre⟩ := compileOneOrMoreNode_spec greedy c
  exact Relation.TransGen.tail' ((hs c).mono (agrees_of_isPrefix hpre))
    ⟨hb.pc_le c, (skipEdge_split_ite hsplit).1⟩

end Quantifiers

/-- The code of `f` reaches, without consuming input, a point it comes back to. -/
def ReachesLoop (f : Compiler → Compiler) : Prop :=
  ∀ c, ∃ pc, ReachFrom c.programCounter (f c).output.program.instructions c.programCounter pc ∧
    CycleFrom c.programCounter (f c).output.program.instructions pc

theorem LoopsAtStart.reachesLoop {f : Compiler → Compiler} (h : LoopsAtStart f) : ReachesLoop f :=
  fun c => ⟨c.programCounter, Relation.ReflTransGen.refl, h c⟩

/-- A loop in what was compiled first stays a loop. -/
theorem ReachesLoop.comp_left {f g : Compiler → Compiler} (hf : ReachesLoop f) (hg : Grows g) :
    ReachesLoop (g ∘ f) := by
  intro c
  obtain ⟨pc, hreach, hcycle⟩ := hf c
  exact ⟨pc, hreach.mono (agrees_of_isPrefix (hg _)), hcycle.mono (agrees_of_isPrefix (hg _))⟩

/-- Code that can be crossed, then code that reaches a loop. -/
theorem ReachesLoop.comp_right {f g : Compiler → Compiler} (hf : Skips f) (hfg : Grows f)
    (hg : ReachesLoop g) (hgg : Grows g) : ReachesLoop (g ∘ f) := by
  intro c
  obtain ⟨pc, hreach, hcycle⟩ := hg (f c)
  have hle := hfg.pc_le c
  exact ⟨pc, ((hf c).mono (agrees_of_isPrefix (hgg _))).trans (hreach.weaken hle),
    hcycle.weaken hle⟩

theorem ReachesLoop.alternationStep_first {first rest : Compiler → Compiler}
    (hf : ReachesLoop first) (hfg : Grows first) (hrg : Grows rest) :
    ReachesLoop (alternationStep first rest) := by
  intro c
  obtain ⟨-, hsplit, -, hfirst, -, -, -⟩ := alternationStep_spec hfg hrg c
  obtain ⟨pc, hreach, hcycle⟩ := hf (c.addInstruction (.split 0 0))
  have h1 := programCounter_addInstruction c (.split 0 0)
  exact ⟨pc, (ReachFrom.edge le_rfl (skipEdge_split_left hsplit)).trans
    ((hreach.mono hfirst).weaken (by omega)), (hcycle.mono hfirst).weaken (by omega)⟩

theorem ReachesLoop.alternationStep_rest {first rest : Compiler → Compiler}
    (hr : ReachesLoop rest) (hfg : Grows first) (hrg : Grows rest) :
    ReachesLoop (alternationStep first rest) := by
  intro c
  obtain ⟨-, hsplit, -, -, hrest, h12, -⟩ := alternationStep_spec hfg hrg c
  obtain ⟨pc, hreach, hcycle⟩ := hr ((first (c.addInstruction (.split 0 0))).addInstruction (.jump 0))
  have h1 := programCounter_addInstruction c (.split 0 0)
  have h3 := programCounter_addInstruction (first (c.addInstruction (.split 0 0))) (.jump 0)
  exact ⟨pc, (ReachFrom.edge le_rfl (skipEdge_split_right hsplit)).trans
    ((hreach.mono hrest).weaken (by omega)), (hcycle.mono hrest).weaken (by omega)⟩

section Capture

variable {inner : Compiler → Compiler} (hi : Grows inner)
include hi

/-- Where a capturing group leaves its two saves. -/
theorem compileCapture_spec (c : Compiler) :
    let c2 := inner (c.newGroup.addInstruction (.save c.nextStringIndex false))
    let out := (compileCapture inner true c).output.program.instructions
    (compileCapture inner true c).programCounter = c2.programCounter + 1 ∧
      out[c.programCounter]? = some (.save c.nextStringIndex false) ∧
      out[c2.programCounter]? = some (.save (c.nextStringIndex + 1) false) ∧
      c.output.program.instructions ++ [.save c.nextStringIndex false] <+:
        c2.output.program.instructions ∧
      c2.output.program.instructions <+: out ∧
      c.programCounter + 1 ≤ c2.programCounter := by
  intro c2 out
  have hc : c.output.program.instructions.length = c.programCounter := rfl
  have hc2 : c2.output.program.instructions.length = c2.programCounter := rfl
  have hpre : c.output.program.instructions ++ [.save c.nextStringIndex false] <+:
      c2.output.program.instructions := hi (c.newGroup.addInstruction _)
  have hout : out = c2.output.program.instructions ++ [.save (c.nextStringIndex + 1) false] := rfl
  have hlen := hpre.length_le
  simp only [List.length_append, List.length_singleton] at hlen
  refine ⟨by simp [compileCapture, c2], ?_, ?_, hpre, by rw [hout]; exact List.prefix_append _ _,
    by omega⟩
  · rw [hout, List.getElem?_append_left (by omega)]
    obtain ⟨t, ht⟩ := hpre
    rw [← ht, List.append_assoc, List.getElem?_append_right (by omega)]
    simp [hc]
  · rw [hout, List.getElem?_append_right (by omega)]
    simp [hc2]

theorem grows_compileCapture (capturing : Bool) : Grows (compileCapture inner capturing) := by
  intro c
  cases capturing
  · exact hi c
  · obtain ⟨-, -, -, hpre, hout, -⟩ := compileCapture_spec hi c
    exact ((List.prefix_append _ _).trans hpre).trans hout

/-- A group is crossed by its saves and its inside. -/
theorem skips_compileCapture (hs : Skips inner) (capturing : Bool) :
    Skips (compileCapture inner capturing) := by
  intro c
  cases capturing
  · exact hs c
  · obtain ⟨hpc, hstart, hend, -, hout, hle⟩ := compileCapture_spec hi c
    have hinside := (hs (c.newGroup.addInstruction (.save c.nextStringIndex false))).mono
      (agrees_of_isPrefix hout)
    simp only [programCounter_addInstruction, programCounter_newGroup] at hinside
    replace hinside := hinside.weaken (Nat.le_succ c.programCounter)
    rw [hpc]
    exact ((ReachFrom.edge le_rfl (skipEdge_save hstart)).trans hinside).trans
      (ReachFrom.edge (by omega) (skipEdge_save hend))

theorem ReachesLoop.compileCapture (hl : ReachesLoop inner) (capturing : Bool) :
    ReachesLoop (compileCapture inner capturing) := by
  intro c
  cases capturing
  · exact hl c
  · obtain ⟨-, hstart, -, -, hout, -⟩ := compileCapture_spec hi c
    obtain ⟨pc, hreach, hcycle⟩ := hl (c.newGroup.addInstruction (.save c.nextStringIndex false))
    simp only [programCounter_addInstruction, programCounter_newGroup] at hreach hcycle
    exact ⟨pc, (ReachFrom.edge le_rfl (skipEdge_save hstart)).trans
      ((hreach.mono (agrees_of_isPrefix hout)).weaken (Nat.le_succ _)),
      (hcycle.mono (agrees_of_isPrefix hout)).weaken (Nat.le_succ _)⟩

end Capture

/-! ### Each node -/

-- The equations below unfold one step each by `rfl`; the equation lemmas Lean would generate
-- for the mutual recursion are slow to build, and proofs that asked for them at once waited.

theorem compileNode_alt (nodes : List RegExpNode) :
    compileNode (.alt nodes) = compileAlternationNodes nodes := rfl

theorem compileNode_expr (nodes : List RegExpNode) :
    compileNode (.expr nodes) = compileNodes nodes := rfl

theorem compileNode_capture (inner : RegExpNode) (capturing : Bool) (name : String) :
    compileNode (.capture inner capturing name) = compileCapture (compileNode inner) capturing := rfl

theorem compileNode_class (chars : List PatternChar) (inverted : Bool) :
    compileNode (.«class» chars inverted) = compileAlternation compileSymbol
      (if inverted then invertSymbols (chars.flatMap PatternChar.rawSymbols)
        else chars.flatMap PatternChar.rawSymbols) := rfl

theorem compileNode_literal {ch : PatternChar} (h : ch ≠ .wildcard) :
    compileNode (.literal ch) = compileAlternation compileSymbol ch.rawSymbols := by
  funext c
  cases ch <;> first | exact absurd rfl h | rfl

theorem compileNode_quantified (node : RegExpNode) (quantifier : Quantifier) (greedy : Bool) :
    compileNode (.quantified node quantifier greedy) = match quantifier with
      | .zeroOrOne => compileOptionalNode (compileNode node) greedy
      | .zeroOrMore => compileZeroOrMoreNode (compileNode node) greedy
      | .oneOrMore => compileOneOrMoreNode (compileNode node) greedy
      | .between lower upper =>
        (compileOptionalNode (compileNode node) greedy)^[upper - lower] ∘ (compileNode node)^[lower]
      | .exactlyN num => (compileNode node)^[num]
      | .nOrMore num => compileZeroOrMoreNode (compileNode node) greedy ∘ (compileNode node)^[num] := by
  funext c
  cases quantifier <;> rfl

theorem compileNodes_nil : compileNodes [] = id := rfl

theorem compileNodes_cons (n : RegExpNode) (ns : List RegExpNode) :
    compileNodes (n :: ns) = compileNodes ns ∘ compileNode n := rfl

theorem compileNodes_append (l₁ l₂ : List RegExpNode) :
    compileNodes (l₁ ++ l₂) = compileNodes l₂ ∘ compileNodes l₁ := by
  induction l₁ with
  | nil => rfl
  | cons n ns ih => rw [List.cons_append, compileNodes_cons, ih, compileNodes_cons]; rfl

theorem compileAlternationNodes_nil : compileAlternationNodes [] = id := rfl

theorem compileAlternationNodes_singleton (n : RegExpNode) :
    compileAlternationNodes [n] = compileNode n := rfl

theorem compileAlternationNodes_cons_cons (n m : RegExpNode) (rest : List RegExpNode) :
    compileAlternationNodes (n :: m :: rest) =
      alternationStep (compileNode n) (compileAlternationNodes (m :: rest)) := rfl

mutual

/-- Compiling any node keeps the code before it. -/
theorem grows_compileNode : ∀ n : RegExpNode, Grows (compileNode n)
  | .alt nodes => by
    rw [compileNode_alt]
    exact grows_compileAlternationNodes nodes
  | .expr nodes => by
    rw [compileNode_expr]
    exact grows_compileNodes nodes
  | .quantified node quantifier greedy => by
    have h := grows_compileNode node
    rw [compileNode_quantified]
    cases quantifier with
    | zeroOrOne => exact grows_compileOptionalNode h greedy
    | zeroOrMore => exact grows_compileZeroOrMoreNode h greedy
    | oneOrMore => exact grows_compileOneOrMoreNode h greedy
    | between lower upper =>
      exact (h.iterate lower).comp ((grows_compileOptionalNode h greedy).iterate (upper - lower))
    | exactlyN num => exact h.iterate num
    | nOrMore num => exact (h.iterate num).comp (grows_compileZeroOrMoreNode h greedy)
  | .capture inner capturing name => by
    rw [compileNode_capture]
    exact grows_compileCapture (grows_compileNode inner) capturing
  | .«class» chars inverted => by
    rw [compileNode_class]
    exact grows_compileAlternation grows_compileSymbol _
  | .literal ch => by
    by_cases hw : ch = .wildcard
    · subst hw
      exact grows_addInstruction .any
    · rw [compileNode_literal hw]
      exact grows_compileAlternation grows_compileSymbol _
  | .start => grows_addInstruction (.special .startOfString)
  | .«end» => grows_addInstruction (.special .endOfString)

theorem grows_compileNodes : ∀ ns : List RegExpNode, Grows (compileNodes ns)
  | [] => by
    rw [compileNodes_nil]
    exact fun c => List.prefix_refl _
  | n :: ns => by
    rw [compileNodes_cons]
    exact (grows_compileNode n).comp (grows_compileNodes ns)

theorem grows_compileAlternationNodes : ∀ ns : List RegExpNode, Grows (compileAlternationNodes ns)
  | [] => by
    rw [compileAlternationNodes_nil]
    exact fun c => List.prefix_refl _
  | [n] => by
    rw [compileAlternationNodes_singleton]
    exact grows_compileNode n
  | n :: m :: rest => by
    rw [compileAlternationNodes_cons_cons]
    exact grows_alternationStep (grows_compileNode n) (grows_compileAlternationNodes (m :: rest))

end

theorem skips_compileNodes {ns : List RegExpNode} (h : ∀ n ∈ ns, Skips (compileNode n)) :
    Skips (compileNodes ns) := by
  induction ns with
  | nil =>
    rw [compileNodes_nil]
    exact skips_id
  | cons n ns ih =>
    rw [compileNodes_cons]
    exact (h n List.mem_cons_self).comp (grows_compileNode n)
      (ih fun m hm => h m (List.mem_cons_of_mem _ hm)) (grows_compileNodes ns)

end Compiler

/-! ## Nodes that match the empty string -/

open Compiler

/-- A node whose code a thread crosses without consuming input. -/
inductive Nullable : RegExpNode → Prop
  | alt_nil : Nullable (.alt [])
  | alt_head {n : RegExpNode} {rest : List RegExpNode} : Nullable n → Nullable (.alt (n :: rest))
  | alt_tail {n m : RegExpNode} {rest : List RegExpNode} :
      Nullable (.alt (m :: rest)) → Nullable (.alt (n :: m :: rest))
  | expr {nodes : List RegExpNode} : (∀ n ∈ nodes, Nullable n) → Nullable (.expr nodes)
  | optional {n : RegExpNode} {greedy : Bool} : Nullable (.quantified n .zeroOrOne greedy)
  | star {n : RegExpNode} {greedy : Bool} : Nullable (.quantified n .zeroOrMore greedy)
  | plus {n : RegExpNode} {greedy : Bool} : Nullable n → Nullable (.quantified n .oneOrMore greedy)
  | exactly_zero {n : RegExpNode} {greedy : Bool} : Nullable (.quantified n (.exactlyN 0) greedy)
  | exactly {n : RegExpNode} {num : Nat} {greedy : Bool} :
      Nullable n → Nullable (.quantified n (.exactlyN num) greedy)
  | atLeast_zero {n : RegExpNode} {greedy : Bool} : Nullable (.quantified n (.nOrMore 0) greedy)
  | atLeast {n : RegExpNode} {num : Nat} {greedy : Bool} :
      Nullable n → Nullable (.quantified n (.nOrMore num) greedy)
  | between_zero {n : RegExpNode} {upper : Nat} {greedy : Bool} :
      Nullable (.quantified n (.between 0 upper) greedy)
  | between {n : RegExpNode} {lower upper : Nat} {greedy : Bool} :
      Nullable n → Nullable (.quantified n (.between lower upper) greedy)
  | capture {n : RegExpNode} {capturing : Bool} {name : String} :
      Nullable n → Nullable (.capture n capturing name)
  | emptyClass {chars : List PatternChar} {inverted : Bool} :
      (if inverted then invertSymbols (chars.flatMap PatternChar.rawSymbols)
        else chars.flatMap PatternChar.rawSymbols) = [] → Nullable (.«class» chars inverted)

/-- A nullable node's code is crossed along instructions that `schedule_thread` follows. The
induction follows the derivation; each case is the lemma of the helper that emits the node. -/
theorem Nullable.skips {n : RegExpNode} (h : Nullable n) : Skips (compileNode n) := by
  induction h with
  | alt_nil =>
    rw [compileNode_alt, compileAlternationNodes_nil]
    exact skips_id
  | @alt_head n rest _ ih =>
    cases rest with
    | nil =>
      rw [compileNode_alt, compileAlternationNodes_singleton]
      exact ih
    | cons m rest =>
      rw [compileNode_alt, compileAlternationNodes_cons_cons]
      exact skips_alternationStep_first ih (grows_compileNode n)
        (grows_compileAlternationNodes (m :: rest))
  | @alt_tail n m rest _ ih =>
    rw [compileNode_alt] at ih ⊢
    rw [compileAlternationNodes_cons_cons]
    exact skips_alternationStep_rest ih (grows_compileNode n)
      (grows_compileAlternationNodes (m :: rest))
  | expr _ ih =>
    rw [compileNode_expr]
    exact skips_compileNodes ih
  | @optional n greedy =>
    rw [compileNode_quantified]
    exact skips_compileOptionalNode (grows_compileNode n) greedy
  | @star n greedy =>
    rw [compileNode_quantified]
    exact skips_compileZeroOrMoreNode (grows_compileNode n) greedy
  | @plus n greedy _ ih =>
    rw [compileNode_quantified]
    exact skips_compileOneOrMoreNode (grows_compileNode n) greedy ih
  | exactly_zero =>
    rw [compileNode_quantified]
    exact skips_id
  | @exactly n num _ _ ih =>
    rw [compileNode_quantified]
    exact ih.iterate (grows_compileNode n) num
  | @atLeast_zero n greedy =>
    rw [compileNode_quantified]
    exact skips_id.comp (fun _ => List.prefix_refl _)
      (skips_compileZeroOrMoreNode (grows_compileNode n) greedy)
      (grows_compileZeroOrMoreNode (grows_compileNode n) greedy)
  | @atLeast n num greedy _ ih =>
    rw [compileNode_quantified]
    exact (ih.iterate (grows_compileNode n) num).comp ((grows_compileNode n).iterate num)
      (skips_compileZeroOrMoreNode (grows_compileNode n) greedy)
      (grows_compileZeroOrMoreNode (grows_compileNode n) greedy)
  | @between_zero n upper greedy =>
    rw [compileNode_quantified]
    have hopt := grows_compileOptionalNode (grows_compileNode n) greedy
    exact skips_id.comp (fun _ => List.prefix_refl _)
      ((skips_compileOptionalNode (grows_compileNode n) greedy).iterate hopt _) (hopt.iterate _)
  | @between n lower upper greedy _ ih =>
    rw [compileNode_quantified]
    have hopt := grows_compileOptionalNode (grows_compileNode n) greedy
    exact (ih.iterate (grows_compileNode n) lower).comp ((grows_compileNode n).iterate lower)
      ((skips_compileOptionalNode (grows_compileNode n) greedy).iterate hopt _) (hopt.iterate _)
  | @capture n capturing _ _ ih =>
    rw [compileNode_capture]
    exact skips_compileCapture (grows_compileNode n) ih capturing
  | emptyClass hempty =>
    rw [compileNode_class, hempty]
    exact fun c => by rw [compileAlternation]

/-- A node whose code reaches, without consuming input, a point it comes back to: a repetition
with no upper bound over a nullable node, where a thread can get without consuming. -/
inductive HasEmptyLoop : RegExpNode → Prop
  | star {n : RegExpNode} {greedy : Bool} :
      Nullable n → HasEmptyLoop (.quantified n .zeroOrMore greedy)
  | plus {n : RegExpNode} {greedy : Bool} :
      Nullable n → HasEmptyLoop (.quantified n .oneOrMore greedy)
  | atLeast {n : RegExpNode} {num : Nat} {greedy : Bool} :
      Nullable n → HasEmptyLoop (.quantified n (.nOrMore num) greedy)
  | capture {n : RegExpNode} {capturing : Bool} {name : String} :
      HasEmptyLoop n → HasEmptyLoop (.capture n capturing name)
  | alt_head {n : RegExpNode} {rest : List RegExpNode} :
      HasEmptyLoop n → HasEmptyLoop (.alt (n :: rest))
  | alt_tail {n m : RegExpNode} {rest : List RegExpNode} :
      HasEmptyLoop (.alt (m :: rest)) → HasEmptyLoop (.alt (n :: m :: rest))
  | expr {pre post : List RegExpNode} {n : RegExpNode} :
      (∀ m ∈ pre, Nullable m) → HasEmptyLoop n → HasEmptyLoop (.expr (pre ++ n :: post))

theorem HasEmptyLoop.reachesLoop {n : RegExpNode} (h : HasEmptyLoop n) :
    ReachesLoop (compileNode n) := by
  induction h with
  | @star n greedy hn =>
    rw [compileNode_quantified]
    exact (loopsAtStart_compileZeroOrMoreNode (grows_compileNode n) greedy hn.skips).reachesLoop
  | @plus n greedy hn =>
    rw [compileNode_quantified]
    exact (loopsAtStart_compileOneOrMoreNode (grows_compileNode n) greedy hn.skips).reachesLoop
  | @atLeast n num greedy hn =>
    rw [compileNode_quantified]
    exact ReachesLoop.comp_right (hn.skips.iterate (grows_compileNode n) num)
      ((grows_compileNode n).iterate num)
      (loopsAtStart_compileZeroOrMoreNode (grows_compileNode n) greedy hn.skips).reachesLoop
      (grows_compileZeroOrMoreNode (grows_compileNode n) greedy)
  | @capture n capturing _ _ ih =>
    rw [compileNode_capture]
    exact ih.compileCapture (grows_compileNode n) capturing
  | @alt_head n rest _ ih =>
    cases rest with
    | nil =>
      rw [compileNode_alt, compileAlternationNodes_singleton]
      exact ih
    | cons m rest =>
      rw [compileNode_alt, compileAlternationNodes_cons_cons]
      exact ih.alternationStep_first (grows_compileNode n)
        (grows_compileAlternationNodes (m :: rest))
  | @alt_tail n m rest _ ih =>
    rw [compileNode_alt] at ih ⊢
    rw [compileAlternationNodes_cons_cons]
    exact ih.alternationStep_rest (grows_compileNode n) (grows_compileAlternationNodes (m :: rest))
  | @expr pre post n hpre _ ih =>
    rw [compileNode_expr, compileNodes_append, compileNodes_cons]
    exact ReachesLoop.comp_right (skips_compileNodes fun m hm => (hpre m hm).skips)
      (grows_compileNodes pre) (ih.comp_left (grows_compileNodes post))
      ((grows_compileNode n).comp (grows_compileNodes post))

/-- From `pc`, the program reaches, without consuming input, a point it comes back to. -/
def Loops (prog : List Instruction) (pc : Nat) : Prop :=
  ∃ pc', Reach prog pc pc' ∧ Relation.TransGen (SkipEdge prog) pc' pc'

/-- A root with an empty loop compiles to a program that loops from its first instruction. -/
theorem HasEmptyLoop.loops_compile {root : RegExpNode} (h : HasEmptyLoop root) (flags : Flags) :
    Loops (compile root flags).program.instructions 0 := by
  obtain ⟨pc, hreach, hcycle⟩ := h.reachesLoop ⟨⟨⟨[], flags⟩, []⟩, 0⟩
  have hpre := grows_addInstruction .match (compileNode root ⟨⟨⟨[], flags⟩, []⟩, 0⟩)
  exact ⟨pc, (hreach.mono (agrees_of_isPrefix hpre)).reach,
    (hcycle.mono (agrees_of_isPrefix hpre)).cycle⟩

end Dacha.Regexp
