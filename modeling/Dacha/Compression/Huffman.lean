import Mathlib

/-!
# `HuffmanTree` (`compression/src/huffman.rs:12-158`) and canonical codes (`:362-419`)

| here | there |
| --- | --- |
| `HuffmanNode` | `HuffmanNode` (`:12-15`) inside `Option<Box<..>>`: `empty` is `None` |
| `HuffmanTree.insert`, `insertLoop` | `insert` (`:84-120`) and its loop |
| `HuffmanTree.readCode`, `readCodeLoop` | `read_code` (`:122-149`) |
| `CodeError.notEnoughBits` | `BitIoError::NotEnoughBits` from `read_bits_exact(1)` |
| `code2vec` | `code2vec` (`:362-373`) |
| `blCount`, `nextCode`, `huffmanCanonicalCodesFromLens` | `huffman_canonical_codes_from_lens` (`:378-419`) |
| `HuffmanTree.fromCanonicalLens` | `from_canonical_lens` (`:73-82`) |

`read_code` reads one bit at a time from a `BitReader`; here the reader is the list of bits still
to come, and a read past its end is `notEnoughBits`.

The tree's two guards make insertion safe without any hypothesis on the codes: a code that
passes through a leaf, or whose slot is already taken, is an error. So a successful insert keeps
every leaf and every inner node the tree had (`insert_extends`), puts its own leaf at the end of its code
(`insertLoop_leafAt`) and leaves inner nodes on the way (`insertLoop_innerAt_take`).
`readCode` then returns a leaf's symbol after reading exactly its code (`readCode_of_leafAt`),
and runs out of bits on a path of inner nodes (`readCode_of_innerAt`).

Canonical codes (RFC 1951 3.2.2) give the codes of one length consecutive values from
`nextCode l`, in the order of the symbols. `code2vec` asserts that a code fits in its length, so
`from_canonical_lens` panics on lengths whose Kraft sum is above 1. The model computes the codes in `Nat`; the
source's `usize` shift differs only for lengths of 64 or more, which no caller passes.
-/

namespace Dacha.Compression

/-- A slot of the tree. -/
inductive HuffmanNode where
  | empty
  | leaf (symbol : Nat)
  | inner (left right : HuffmanNode)
  deriving DecidableEq, Repr

structure HuffmanTree where
  root : HuffmanNode
  deriving DecidableEq, Repr

/-- Why `read_code` failed: the reader ran dry, or an error with its text. -/
inductive CodeError where
  | notEnoughBits
  | msg (text : String)
  deriving DecidableEq, Repr

namespace HuffmanNode

/-- `Option::get_or_insert`: an empty slot takes `val`, a filled one is kept. -/
def getOrInsert (slot val : HuffmanNode) : HuffmanNode :=
  match slot with
  | .empty => val
  | n => n

/-- The loop of `insert` from `current_node`, for the bits of the code still to place: a bit
`1` goes right. -/
def insertLoop (symbol : Nat) : List Bool → HuffmanNode → Except String HuffmanNode
  | [], current => .ok current
  | b :: rest, .inner left right => do
    let nextNode := if b then right else left
    let val ← if rest.isEmpty then
        if nextNode = .empty then pure (.leaf symbol)
        else throw "A code already exists with this code as a prefix"
      else pure (.inner .empty .empty)
    let next ← insertLoop symbol rest (nextNode.getOrInsert val)
    pure (if b then .inner left next else .inner next right)
  | _ :: _, _ => throw "A shorter prefix was already inserted"

theorem insertLoop_nil (symbol : Nat) (current : HuffmanNode) :
    insertLoop symbol [] current = .ok current := rfl

/-- The loop of `read_code` from an inner node's two children. -/
def readCodeLoop (left right : HuffmanNode) : List Bool → Except CodeError (Nat × List Bool)
  | [] => .error .notEnoughBits
  | b :: rest =>
    match if b then right else left with
    | .leaf sym => .ok (sym, rest)
    | .inner l r => readCodeLoop l r rest
    | .empty => .error (.msg "Invalid code prefix read")

/-- Walking `path` from the node ends at the leaf `s`. -/
def LeafAt : HuffmanNode → List Bool → Nat → Prop
  | .leaf s', [], s => s' = s
  | .inner l r, b :: rest, s => LeafAt (if b then r else l) rest s
  | _, _, _ => False

/-- Every node on `path` from the node, its end included, is inner. -/
def InnerAt : HuffmanNode → List Bool → Prop
  | .inner _ _, [] => True
  | .inner l r, b :: rest => InnerAt (if b then r else l) rest
  | _, _ => False

-- The cases of the two paths, one lemma each, so that `simp` walks a path without asking for
-- the generated equation lemmas of the overlapping patterns.
@[simp] theorem leafAt_leaf_nil (s' s : Nat) : LeafAt (.leaf s') [] s ↔ s' = s := Iff.rfl

@[simp] theorem leafAt_inner_cons (l r : HuffmanNode) (b : Bool) (rest : List Bool) (s : Nat) :
    LeafAt (.inner l r) (b :: rest) s ↔ LeafAt (if b then r else l) rest s := Iff.rfl

@[simp] theorem not_leafAt_empty (p : List Bool) (s : Nat) : ¬LeafAt .empty p s := by
  cases p <;> exact id

@[simp] theorem not_leafAt_leaf_cons (s' : Nat) (b : Bool) (rest : List Bool) (s : Nat) :
    ¬LeafAt (.leaf s') (b :: rest) s := id

@[simp] theorem not_leafAt_inner_nil (l r : HuffmanNode) (s : Nat) : ¬LeafAt (.inner l r) [] s :=
  id

@[simp] theorem innerAt_inner_nil (l r : HuffmanNode) : InnerAt (.inner l r) [] := trivial

@[simp] theorem innerAt_inner_cons (l r : HuffmanNode) (b : Bool) (rest : List Bool) :
    InnerAt (.inner l r) (b :: rest) ↔ InnerAt (if b then r else l) rest := Iff.rfl

@[simp] theorem not_innerAt_empty (p : List Bool) : ¬InnerAt .empty p := by
  cases p <;> exact id

@[simp] theorem not_innerAt_leaf (s : Nat) (p : List Bool) : ¬InnerAt (.leaf s) p := by
  cases p <;> exact id

@[simp] theorem getOrInsert_of_ne_empty {slot : HuffmanNode} (h : slot ≠ .empty)
    (val : HuffmanNode) : slot.getOrInsert val = slot := by
  cases slot <;> simp_all [getOrInsert]

theorem ne_empty_of_leafAt {n : HuffmanNode} {p : List Bool} {s : Nat} (h : LeafAt n p s) :
    n ≠ .empty := by
  rintro rfl; cases p <;> simp at h

theorem ne_empty_of_innerAt {n : HuffmanNode} {p : List Bool} (h : InnerAt n p) :
    n ≠ .empty := by
  rintro rfl; cases p <;> simp at h

/-- An insert that gets past its first bit started on an inner node. -/
theorem insertLoop_cons_inv {symbol : Nat} {b : Bool} {rest : List Bool} {n n' : HuffmanNode}
    (h : insertLoop symbol (b :: rest) n = .ok n') :
    ∃ left right next,
      n = .inner left right ∧
      (rest = [] → (if b then right else left) = .empty ∧ next = .leaf symbol) ∧
      (rest ≠ [] → insertLoop symbol rest
        ((if b then right else left).getOrInsert (.inner .empty .empty)) = .ok next) ∧
      n' = if b then .inner left next else .inner next right := by
  match n, h with
  | .inner left right, h =>
    simp only [insertLoop, bind, Except.bind, pure, Except.pure] at h
    cases rest with
    | nil =>
      by_cases he : (if b then right else left) = .empty
      · simp only [List.isEmpty_nil, he, if_true, insertLoop, Except.ok.injEq] at h
        exact ⟨left, right, .leaf symbol, rfl, fun _ => ⟨he, rfl⟩, fun hne => absurd rfl hne,
          h.symm⟩
      · simp [he, throw, throwThe, MonadExceptOf.throw] at h
    | cons c cs =>
      simp only [List.isEmpty_cons, Bool.false_eq_true, if_false] at h
      split at h
      · cases h
      · next next hnext =>
        exact ⟨left, right, next, rfl, fun hnil => absurd hnil (List.cons_ne_nil c cs),
          fun _ => hnext, (Except.ok.inj h).symm⟩

/-- A successful insert puts the symbol's leaf at the end of its code. -/
theorem insertLoop_leafAt {symbol : Nat} :
    ∀ {code : List Bool} {n n' : HuffmanNode}, code ≠ [] →
      insertLoop symbol code n = .ok n' → LeafAt n' code symbol
  | [], _, _, hne, _ => absurd rfl hne
  | b :: rest, n, n', _, h => by
    obtain ⟨left, right, next, rfl, hlast, hmid, rfl⟩ := insertLoop_cons_inv h
    have hnext : LeafAt next rest symbol := by
      by_cases hr : rest = []
      · obtain ⟨-, rfl⟩ := hlast hr
        subst hr
        rfl
      · exact insertLoop_leafAt hr (hmid hr)
    cases b <;> simpa using hnext

/-- A successful insert keeps every leaf the tree had. -/
theorem insertLoop_leafAt_of_leafAt {symbol : Nat} :
    ∀ {code : List Bool} {n n' : HuffmanNode} {p : List Bool} {s : Nat},
      insertLoop symbol code n = .ok n' → LeafAt n p s → LeafAt n' p s
  | [], _, _, _, _, h, hp => by
    rw [insertLoop_nil, Except.ok.injEq] at h
    exact h ▸ hp
  | b :: rest, n, n', p, s, h, hp => by
    obtain ⟨left, right, next, rfl, hlast, hmid, rfl⟩ := insertLoop_cons_inv h
    match p, hp with
    | c :: q, hp =>
      simp only [leafAt_inner_cons] at hp
      by_cases hcb : c = b
      · subst hcb
        have hslot := ne_empty_of_leafAt hp
        have hr : rest ≠ [] := fun hr => hslot (hlast hr).1
        have hq := insertLoop_leafAt_of_leafAt (hmid hr) (by simpa [hslot] using hp)
        cases c <;> simpa using hq
      · cases c <;> cases b <;> simp_all

/-- A successful insert keeps every path of inner nodes the tree had. -/
theorem insertLoop_innerAt_of_innerAt {symbol : Nat} :
    ∀ {code : List Bool} {n n' : HuffmanNode} {p : List Bool},
      insertLoop symbol code n = .ok n' → InnerAt n p → InnerAt n' p
  | [], _, _, _, h, hp => by
    rw [insertLoop_nil, Except.ok.injEq] at h
    exact h ▸ hp
  | b :: rest, n, n', p, h, hp => by
    obtain ⟨left, right, next, rfl, hlast, hmid, rfl⟩ := insertLoop_cons_inv h
    match p, hp with
    | [], _ => cases b <;> trivial
    | c :: q, hp =>
      simp only [innerAt_inner_cons] at hp
      by_cases hcb : c = b
      · subst hcb
        have hslot := ne_empty_of_innerAt hp
        have hr : rest ≠ [] := fun hr => hslot (hlast hr).1
        have hq := insertLoop_innerAt_of_innerAt (hmid hr) (by simpa [hslot] using hp)
        cases c <;> simpa using hq
      · cases c <;> cases b <;> simp_all

/-- A successful insert leaves inner nodes on every proper prefix of its code. -/
theorem insertLoop_innerAt_take {symbol : Nat} :
    ∀ {code : List Bool} {n n' : HuffmanNode}, insertLoop symbol code n = .ok n' →
      ∀ k < code.length, InnerAt n' (code.take k)
  | [], _, _, _, k, hk => absurd hk (Nat.not_lt_zero k)
  | b :: rest, n, n', h, k, hk => by
    obtain ⟨left, right, next, rfl, -, hmid, rfl⟩ := insertLoop_cons_inv h
    match k, hk with
    | 0, _ => cases b <;> trivial
    | k + 1, hk =>
      have hr : rest ≠ [] := by rintro rfl; simp at hk
      have hq := insertLoop_innerAt_take (hmid hr) k (by simpa using hk)
      cases b <;> simpa using hq

/-- Reading a leaf's code returns its symbol and what follows the code. -/
theorem readCodeLoop_of_leafAt {s : Nat} (rest : List Bool) :
    ∀ {code : List Bool} {left right : HuffmanNode}, LeafAt (.inner left right) code s →
      readCodeLoop left right (code ++ rest) = .ok (s, rest)
  | [], _, _, h => by simp at h
  | b :: code, left, right, h => by
    simp only [leafAt_inner_cons] at h
    simp only [List.cons_append, readCodeLoop]
    match hc : (if b then right else left), code, h with
    | .leaf s', [], h => simp only [leafAt_leaf_nil] at h; subst h; rfl
    | .inner l r, _ :: _, h => exact readCodeLoop_of_leafAt rest h
    | .empty, _, h => simp at h
    | .leaf _, _ :: _, h => simp at h
    | .inner _ _, [], h => simp at h

/-- On a path of inner nodes the reader runs dry. -/
theorem readCodeLoop_of_innerAt :
    ∀ {p : List Bool} {left right : HuffmanNode}, InnerAt (.inner left right) p →
      readCodeLoop left right p = .error .notEnoughBits
  | [], _, _, _ => rfl
  | b :: p, left, right, h => by
    simp only [innerAt_inner_cons] at h
    simp only [readCodeLoop]
    match hc : (if b then right else left), h with
    | .inner l r, h => exact readCodeLoop_of_innerAt h
    | .empty, h => simp at h
    | .leaf _, h => cases p <;> simp at h

end HuffmanNode

namespace HuffmanTree

open HuffmanNode

def new : HuffmanTree := ⟨.empty⟩

/-- `HuffmanTree::insert`. The assert on an empty code would panic; it is an error here with the
assert's text: `HUFFMAN_TREE` unwraps the result into a panic anyway, and `from_canonical_lens`
never passes an empty code. -/
def insert (t : HuffmanTree) (symbol : Nat) (code : List Bool) : Except String HuffmanTree :=
  if code.isEmpty then throw "assertion failed: code.len() > 0"
  else do
    let root ← insertLoop symbol code (t.root.getOrInsert (.inner .empty .empty))
    pure ⟨root⟩

/-- `HuffmanTree::read_code`: the symbol and the bits after its code. -/
def readCode (t : HuffmanTree) (strm : List Bool) : Except CodeError (Nat × List Bool) :=
  match t.root with
  | .inner l r => readCodeLoop l r strm
  | _ => .error (.msg "Empty tree")

theorem insert_inv {t t' : HuffmanTree} {symbol : Nat} {code : List Bool}
    (h : t.insert symbol code = .ok t') :
    code ≠ [] ∧ insertLoop symbol code (t.root.getOrInsert (.inner .empty .empty)) = .ok t'.root := by
  unfold insert at h
  cases code with
  | nil => simp [throw, throwThe, MonadExceptOf.throw] at h
  | cons b rest =>
    simp only [List.isEmpty_cons, Bool.false_eq_true, if_false, bind, Except.bind] at h
    split at h
    · cases h
    · next root hroot =>
      cases h
      exact ⟨List.cons_ne_nil b rest, hroot⟩

theorem insert_leafAt {t t' : HuffmanTree} {symbol : Nat} {code : List Bool}
    (h : t.insert symbol code = .ok t') : LeafAt t'.root code symbol :=
  insertLoop_leafAt (insert_inv h).1 (insert_inv h).2

/-- `t'` has every leaf and every path of inner nodes that `t` has. -/
def Extends (t t' : HuffmanTree) : Prop :=
  (∀ p s, LeafAt t.root p s → LeafAt t'.root p s) ∧ ∀ p, InnerAt t.root p → InnerAt t'.root p

theorem Extends.refl (t : HuffmanTree) : Extends t t := ⟨fun _ _ h => h, fun _ h => h⟩

theorem Extends.trans {t₁ t₂ t₃ : HuffmanTree} (h₁ : Extends t₁ t₂) (h₂ : Extends t₂ t₃) :
    Extends t₁ t₃ :=
  ⟨fun p s h => h₂.1 p s (h₁.1 p s h), fun p h => h₂.2 p (h₁.2 p h)⟩

/-- A successful insert only adds to the tree. -/
theorem insert_extends {t t' : HuffmanTree} {symbol : Nat} {code : List Bool}
    (h : t.insert symbol code = .ok t') : Extends t t' := by
  have hloop := (insert_inv h).2
  refine ⟨fun p s hp => ?_, fun p hp => ?_⟩
  · rw [getOrInsert_of_ne_empty (ne_empty_of_leafAt hp)] at hloop
    exact insertLoop_leafAt_of_leafAt hloop hp
  · rw [getOrInsert_of_ne_empty (ne_empty_of_innerAt hp)] at hloop
    exact insertLoop_innerAt_of_innerAt hloop hp

theorem insert_innerAt_take {t t' : HuffmanTree} {symbol : Nat} {code : List Bool}
    (h : t.insert symbol code = .ok t') : ∀ k < code.length, InnerAt t'.root (code.take k) :=
  insertLoop_innerAt_take (insert_inv h).2

theorem readCode_of_leafAt {t : HuffmanTree} {code : List Bool} {s : Nat}
    (hroot : InnerAt t.root []) (h : LeafAt t.root code s) (rest : List Bool) :
    t.readCode (code ++ rest) = .ok (s, rest) := by
  match hr : t.root, hroot with
  | .inner l r, _ =>
    rw [hr] at h
    simp only [readCode, hr]
    exact readCodeLoop_of_leafAt rest h

theorem readCode_of_innerAt {t : HuffmanTree} {p : List Bool} (h : InnerAt t.root p) :
    t.readCode p = .error .notEnoughBits := by
  cases hr : t.root with
  | inner l r =>
    rw [hr] at h
    simp only [readCode, hr]
    exact readCodeLoop_of_innerAt h
  | empty => exact absurd hr (ne_empty_of_innerAt h)
  | leaf s => rw [hr] at h; cases p <;> simp at h

end HuffmanTree

/-! ## Canonical codes -/

/-- `code2vec(code, len)`: the `len` low bits of `code`, most significant first; the assert that
nothing is left above them panics. -/
def code2vec (code len : Nat) : Option (List Bool) :=
  if code >>> len = 0 then some ((List.range len).reverse.map code.testBit) else none

/-- `bl_count[l]`: how many symbols have length `l`, none for length 0. -/
def blCount (lens : List Nat) (l : Nat) : Nat := if l = 0 then 0 else lens.count l

/-- `next_code[bits]` after the loop over `bits` in `1..=max_len`. -/
def nextCode (lens : List Nat) : Nat → Nat
  | 0 => 0
  | bits + 1 => (nextCode lens bits + blCount lens bits) * 2

/-- The loop over `lens.iter().enumerate()` from symbol `i`, with the table `next_code`. -/
def canonicalCodesLoop : Nat → List Nat → List Nat → Option (List (Nat × List Bool))
  | _, [], _ => some []
  | i, len :: lens, table =>
    if len ≠ 0 then do
      let v ← code2vec (table.getD len 0) len
      let rest ← canonicalCodesLoop (i + 1) lens (table.modify len (· + 1))
      pure ((i, v) :: rest)
    else canonicalCodesLoop (i + 1) lens table

/-- `huffman_canonical_codes_from_lens`: each symbol of non-zero length with its code; `none`
where `code2vec` panics. -/
def huffmanCanonicalCodesFromLens (lens : List Nat) : Option (List (Nat × List Bool)) :=
  let maxLen := lens.foldl max 0
  canonicalCodesLoop 0 lens ((List.range (maxLen + 1)).map (nextCode lens))

/-- `HuffmanTree::from_canonical_lens`: the codes inserted in order into a new tree. -/
def HuffmanTree.fromCanonicalLens (lens : List Nat) : Option (Except String HuffmanTree) :=
  (huffmanCanonicalCodesFromLens lens).map fun codes =>
    codes.foldlM (fun t c => t.insert c.1 c.2) HuffmanTree.new

end Dacha.Compression
