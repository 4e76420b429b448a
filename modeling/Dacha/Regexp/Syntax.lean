import Mathlib
import Dacha.Parsing.Combinators

/-!
# Regular expressions and their parser (`automata/src/regexp/node.rs`, `syntax.rs`)

| here | there |
| --- | --- |
| `PatternChar` | `Char` (`node.rs:315-331`); Lean has a `Char` of its own |
| `Quantifier`, `RegExpNode` | `node.rs:387-404`, `:27-62` |
| `sharedAtom`, `escapedLiteral`, `sharedLiteral`, `literal` | `syntax.rs:156-218` |
| `characterClass`, `characterClassAtom`, `characterClassLiteral` | `syntax.rs:103-153`, `:186-191` |
| `capture`, `captureFlags`, `number`, `quantifier` | `syntax.rs:113-134`, `:57-88`, `:202-207` |
| `atom`, `quantified`, `element`, `expr`, `alternationWith` | `syntax.rs:22-55`, `:90-96` |
| `alternation`, `parseRootExpression` | `syntax.rs:17-25` |

The grammar is recursive through groups: `capture` calls `alternation` after its `(`. Each parser
here takes the parser of a group's inside as an argument, and `alternation` ties the knot on the
number of groups that may still open, `input.length + 1` at the root: a group consumes its `(`
first, so no input nests deeper than its length.

`escaped_literal` takes one byte of a `&str` with `take_exact(1)`, which splits the string at
byte 1: after a backslash, a character of more than one byte panics there.
`character_class_atom` asserts that a range does not run backwards, and panics otherwise.
`number` reads a `usize`, so from `2^64` on it is a parse error.
-/

namespace Dacha.Regexp

open Dacha.Parsing Parser

/-- `Char`: one item of a literal or a class. -/
inductive PatternChar where
  | value (c : Char)
  | range (s e : Char)
  | wildcard
  | word
  | digit
  | whitespace
  | notWord
  | notDigit
  | notWhiteSpace
  deriving DecidableEq, Repr

inductive Quantifier where
  | zeroOrOne
  | zeroOrMore
  | oneOrMore
  | exactlyN (n : Nat)
  | nOrMore (n : Nat)
  | between (lower upper : Nat)
  deriving DecidableEq, Repr

inductive RegExpNode where
  | alt (nodes : List RegExpNode)
  | expr (nodes : List RegExpNode)
  | quantified (node : RegExpNode) (quantifier : Quantifier) (greedy : Bool)
  | «class» (chars : List PatternChar) (inverted : Bool)
  | capture (inner : RegExpNode) (capturing : Bool) (name : String)
  | literal (c : PatternChar)
  | start
  | «end»
  deriving Repr

/-! ## Characters -/

/-- `shared_atom`: the escapes of the six character classes. -/
def sharedAtom : Parser Char PatternChar :=
  alt (map (tag ['\\', 'w']) fun _ => .word) <|
  alt (map (tag ['\\', 'd']) fun _ => .digit) <|
  alt (map (tag ['\\', 's']) fun _ => .whitespace) <|
  alt (map (tag ['\\', 'W']) fun _ => .notWord) <|
  alt (map (tag ['\\', 'D']) fun _ => .notDigit) <|
  map (tag ['\\', 'S']) fun _ => .notWhiteSpace

/-- The character `take_exact(1)` gives on a `&str`: a character of one byte, and a panic at
the split for one of more bytes. -/
def takeOneByte : Parser Char Char
  | [] => .reject
  | c :: rest => if c.utf8Size = 1 then .ok c rest else .panic "byte index 1 is not a char boundary"

/-- `escaped_literal`: a backslash and a character that is not alphanumeric. -/
def escapedLiteral : Parser Char Char := do
  tag ['\\']
  let v ← takeOneByte
  if v.isAlphanum then fail else pure v

/-- `shared_literal`: a character with no special meaning, or an escaped one. -/
def sharedLiteral : Parser Char Char :=
  alt (like fun c => c ∉ "[]\\^$.|?*+()".toList) escapedLiteral

def literal : Parser Char RegExpNode :=
  map (alt sharedLiteral (map (tag [']']) fun _ => ']')) fun c => .literal (.value c)

/-- `character_class_literal`: inside a class, the special symbols but `]` and `\` are plain. -/
def characterClassLiteral : Parser Char Char :=
  alt sharedLiteral (oneOf "[^$.|?*+()".toList)

/-- The range alternative of `character_class_atom`, with its `assert!(end >= start)`. -/
def characterClassRange : Parser Char PatternChar := do
  let start ← characterClassLiteral
  tag ['-']
  let e ← characterClassLiteral
  if start ≤ e then pure (.range start e) else fun _ => .panic "assertion failed: end >= start"

def characterClassAtom : Parser Char PatternChar :=
  alt characterClassRange <| alt sharedAtom (map characterClassLiteral .value)

/-- `character_class`: `[`, an optional `^`, any number of atoms, `]`. -/
def characterClass : Parser Char RegExpNode := do
  tag ['[']
  let invert ← opt (tag ['^'])
  let inner ← many characterClassAtom
  tag [']']
  pure (.«class» inner invert.isSome)

/-! ## Quantifiers -/

/-- `str::parse::<usize>` on a run of decimal digits. -/
def parseUsize (s : List Char) : Option Nat :=
  let n := s.foldl (fun n c => 10 * n + (c.toNat - '0'.toNat)) 0
  if n < 2 ^ 64 then some n else none

def number : Parser Char Nat := fun input =>
  match takeWhile1 Char.isDigit input with
  | .ok s rest =>
    match parseUsize s with
    | some n => .ok n rest
    | none => .reject
  | .reject => .reject
  | .panic msg => .panic msg

/-- The `{..}` alternative of `quantifier`. -/
def quantifierBraces : Parser Char Quantifier := do
  tag ['{']
  let lowerNum ← number
  let upperNum ← opt (do tag [','] ; opt number)
  tag ['}']
  match upperNum with
  | some (some upperNum) => if lowerNum > upperNum then fail else pure (.between lowerNum upperNum)
  | some none => pure (.nOrMore lowerNum)
  | none => pure (.exactlyN lowerNum)

def quantifier : Parser Char Quantifier :=
  alt (map (tag ['?']) fun _ => .zeroOrOne) <|
  alt (map (tag ['*']) fun _ => .zeroOrMore) <|
  alt (map (tag ['+']) fun _ => .oneOrMore) quantifierBraces

/-! ## Groups and sequences -/

/-- `capture_flags`: `?:` for a group that does not capture, `?<name>` for a named one. -/
def captureFlags : Parser Char (Bool × String) := do
  tag ['?']
  alt (map (tag [':']) fun _ => (false, "")) do
    tag ['<']
    let name ← takeWhile1 (· ≠ '>')
    tag ['>']
    pure (true, String.ofList name)

section Grammar

variable (group : Parser Char RegExpNode)

def capture : Parser Char RegExpNode := do
  tag ['(']
  let flags ← opt captureFlags
  let (capturing, name) := flags.getD (true, "")
  let inner ← group
  tag [')']
  pure (.capture inner capturing name)

def atom : Parser Char RegExpNode :=
  alt (map sharedAtom .literal) <|
  alt (map (tag ['.']) fun _ => .literal .wildcard) <|
  alt literal <|
  alt characterClass (capture group)

/-- `quantified`: an atom, and a quantifier made lazy by a `?` after it. -/
def quantified : Parser Char RegExpNode := do
  let a ← atom group
  match ← opt quantifier with
  | some q =>
    let greedy ← opt (tag ['?'])
    pure (.quantified a q greedy.isNone)
  | none => pure a

def element : Parser Char RegExpNode :=
  alt (map (tag ['^']) fun _ => .start) <|
  alt (map (tag ['$']) fun _ => .«end») (quantified group)

def expr : Parser Char RegExpNode :=
  map (many (element group)) .expr

/-- `alternation`, with the parser of a group's inside given. -/
def alternationWith : Parser Char RegExpNode :=
  map (delimited (expr group) (tag ['|'])) .alt

end Grammar

/-- `alternation`, for inputs where at most `depth - 1` groups nest. -/
def alternation : Nat → Parser Char RegExpNode
  | 0 => fail
  | depth + 1 => alternationWith (alternation depth)

def parseRootExpression (input : List Char) : Reply Char RegExpNode :=
  complete (alternation (input.length + 1)) input

end Dacha.Regexp
