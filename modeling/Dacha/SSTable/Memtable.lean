import Dacha.SSTable.InternalKey

/-!
# The memtable (`memtable/skip_list.rs`, `memtable/memtable.rs`)

`SkipListMemtable` keeps its entries in a skip list of `HEIGHT` levels: every node is linked at
level 0 and at each level up to the one `insert` draws for it at random. The model keeps the
nodes in level-0 order, each with its level, so that the nodes linked at a level are the nodes of
the list whose level reaches it, in order.

Both searches walk from the top level down, moving along a level while the next node there
compares as they need:

* `insert` moves past every node that is `<=` the new key (`is_ge`, `skip_list.rs:105`), so a new
  node lands after all the nodes equal to it;
* `find_previous_node`, which `seek` uses, moves past smaller nodes and stops at the first equal
  node it meets, at whatever level that is (`skip_list.rs:174-207`). Among several equal nodes
  which one that is depends on the levels the nodes were given.

A position in the list is the number of nodes before the current one (`0` is the head node).

The level of a new node is `leading_zeros / 2` of the next `u32` of the memtable's own
`MersenneTwisterRng` (`crypto/src/random.rs:435-528`), capped at `HEIGHT - 1`. The generator is
`mt19937()` with no seed, so its first draw seeds it with `MT_DEFAULT_SEED`: the levels a memtable
draws are the same in every run, `0, 1, 0, 0, 1, ...`. `insertAt` is the insert once the level is
drawn.
-/

namespace Dacha.SSTable

/-! ## The level draw -/

/-- `MersenneTwisterRng`: the parameters of the generator and its state, the words `x`, empty
until the first draw seeds them, and the index of the next word to temper. -/
structure MersenneTwisterRng where
  w : UInt32
  n : Nat
  m : Nat
  r : UInt32
  a : UInt32
  b : UInt32
  c : UInt32
  s : UInt32
  t : UInt32
  u : UInt32
  d : UInt32
  l : UInt32
  f : UInt32
  x : List UInt32
  index : Nat
  deriving DecidableEq, Repr

namespace MersenneTwisterRng

def MT_DEFAULT_SEED : UInt32 := 5489

def mt19937 : MersenneTwisterRng :=
  { w := 32, n := 624, m := 397, r := 31, a := 0x9908B0DF, u := 11, d := 0xffffffff, s := 7,
    b := 0x9D2C5680, t := 15, c := 0xEFC60000, l := 18, f := 1812433253, x := [], index := 0 }

/-- `seed_u32`: word `0` is the seed and word `i` is computed from word `i - 1`, so the loop is
kept as the words so far, newest first, and the last of them. Every word of `x.resize(n, 0)` is
overwritten. -/
def seedU32 (g : MersenneTwisterRng) (seed : UInt32) : MersenneTwisterRng :=
  let (words, _) := (List.range' 1 (g.n - 1)).foldl
    (fun (words, prev) i =>
      let v := (prev ^^^ (prev >>> (g.w - 2))) * g.f + i.toUInt32
      (v :: words, v))
    ([seed], seed)
  { g with x := words.reverse, index := g.n }

/-- `twist`: replace the `n` words in order, word `i` computed from words `i`, `i + 1` and `i + m`
(modulo the length) of the array as the loop has left it, so that the reads past the end see
words already replaced. The array is kept as the words replaced so far, newest first, and the
words not yet replaced. -/
def twist (g : MersenneTwisterRng) : MersenneTwisterRng :=
  let wMask : UInt32 := (if g.w < 32 then (1 : UInt32) <<< g.w else 0) - 1
  let upperMask := (wMask <<< g.r) &&& wMask
  let lowerMask := (~~~upperMask) &&& wMask
  let (replaced, rest) := (List.range g.n).foldl
    (fun (replaced, rest) i =>
      let x := replaced.reverse ++ rest
      let y := (x.getD i 0 &&& upperMask) ||| (x.getD ((i + 1) % x.length) 0 &&& lowerMask)
      let xA := if y &&& 1 ≠ 0 then (y >>> 1) ^^^ g.a else y >>> 1
      ((x.getD ((i + g.m) % x.length) 0 ^^^ xA) :: replaced, rest.tail))
    (([] : List UInt32), g.x)
  { g with x := replaced.reverse ++ rest, index := 0 }

/-- `next_u32`: seed on the first draw, twist when every word has been used, then temper the next
word. -/
def nextU32 (g : MersenneTwisterRng) : UInt32 × MersenneTwisterRng :=
  let g := if g.x.isEmpty then g.seedU32 MT_DEFAULT_SEED else g
  let g := if g.index ≥ g.n then g.twist else g
  let y := g.x.getD g.index 0
  let y := y ^^^ ((y >>> g.u) &&& g.d)
  let y := y ^^^ ((y <<< g.s) &&& g.b)
  let y := y ^^^ ((y <<< g.t) &&& g.c)
  let y := y ^^^ (y >>> g.l)
  (y, { g with index := g.index + 1 })

end MersenneTwisterRng

/-! ## The skip list -/

def HEIGHT : Nat := 8

/-- A node of the skip list, linked at levels `0..=level`. -/
structure Node where
  key : InternalKey
  value : List UInt8
  level : Nat
  deriving DecidableEq, Repr

structure SkipListMemtable where
  /-- The nodes in level-0 order. -/
  nodes : List Node
  /-- The generator of `WriterState`. -/
  rng : MersenneTwisterRng
  deriving DecidableEq, Repr

def Node.entry (n : Node) : KeyValueEntry := ⟨n.key, n.value⟩

namespace SkipListMemtable

/-- `SkipListMemtable::new`: the head node alone. -/
def new : SkipListMemtable := ⟨[], .mt19937⟩

/-- One level of `insert`'s walk: from the current node, with the nodes after it `rest`, move
along the nodes linked at `level` while `advance` holds. The number of nodes moved past. -/
def walkLevel (level : Nat) (advance : Node → Bool) : List Node → Nat
  | [] => 0
  | n :: rest =>
    if n.level < level then
      -- Not linked at this level: passed only on the way to a later node of the level.
      match walkLevel level advance rest with
      | 0 => 0
      | k + 1 => k + 2
    else if advance n then walkLevel level advance rest + 1
    else 0

/-- The walk of `insert` from `level` down to level 0, from position `pos`. -/
def insertPosition (key : InternalKey) (nodes : List Node) : Nat → Nat → Nat
  | 0, pos => pos + walkLevel 0 (fun n => (key.compare n.key).isGE) (nodes.drop pos)
  | level + 1, pos =>
    insertPosition key nodes level
      (pos + walkLevel (level + 1) (fun n => (key.compare n.key).isGE) (nodes.drop pos))

/-- `SkipListMemtable::insert` once the random draw `draw` is made: the node's level is the draw
capped at `HEIGHT - 1`. -/
def insertAt (t : SkipListMemtable) (key : InternalKey) (value : List UInt8) (draw : Nat) :
    SkipListMemtable :=
  let pos := insertPosition key t.nodes (HEIGHT - 1) 0
  { t with nodes := t.nodes.take pos ++ ⟨key, value, min draw (HEIGHT - 1)⟩ :: t.nodes.drop pos }

/-- `SkipListMemtable::insert`: the draw is `leading_zeros() / 2` of the generator's next `u32`. -/
def insert (t : SkipListMemtable) (key : InternalKey) (value : List UInt8) : SkipListMemtable :=
  let (num, rng) := t.rng.nextU32
  { t.insertAt key value (num.toBitVec.clz.toNat / 2) with rng }

/-- One level of `find_previous_node`: move along the level past nodes smaller than `key`; stop
at an equal one. The number of nodes moved past, and whether the walk stopped on an equal node. -/
def scanLevel (level : Nat) (key : InternalKey) : List Node → Nat × Bool
  | [] => (0, false)
  | n :: rest =>
    if n.level < level then
      match scanLevel level key rest with
      | (0, _) => (0, false)
      | (k + 1, exact) => (k + 2, exact)
    else
      match key.compare n.key with
      | .eq => (1, true)
      | .gt => ((scanLevel level key rest).1 + 1, (scanLevel level key rest).2)
      | .lt => (0, false)

-- The equations of the walk, one branch each, so that proofs rewrite with these rather than
-- asking for the generated equation lemmas of the recursion.
theorem scanLevel_nil (level : Nat) (key : InternalKey) : scanLevel level key [] = (0, false) :=
  rfl

theorem scanLevel_cons_of_lt {level : Nat} (key : InternalKey) {n : Node} (rest : List Node)
    (h : n.level < level) :
    scanLevel level key (n :: rest) =
      match scanLevel level key rest with
      | (0, _) => (0, false)
      | (k + 1, exact) => (k + 2, exact) :=
  if_pos h

theorem scanLevel_cons_of_not_lt {level : Nat} (key : InternalKey) {n : Node} (rest : List Node)
    (h : ¬n.level < level) :
    scanLevel level key (n :: rest) =
      match key.compare n.key with
      | .eq => (1, true)
      | .gt => ((scanLevel level key rest).1 + 1, (scanLevel level key rest).2)
      | .lt => (0, false) :=
  if_neg h

/-- `find_previous_node`: the position of the last node `<= key`, reached from `level` down, and
whether the search stopped on a node equal to `key`. -/
def findPreviousNode (key : InternalKey) (nodes : List Node) : Nat → Nat → Nat × Bool
  | 0, pos => (pos + (scanLevel 0 key (nodes.drop pos)).1, (scanLevel 0 key (nodes.drop pos)).2)
  | level + 1, pos =>
    if (scanLevel (level + 1) key (nodes.drop pos)).2 then
      (pos + (scanLevel (level + 1) key (nodes.drop pos)).1, true)
    else findPreviousNode key nodes level (pos + (scanLevel (level + 1) key (nodes.drop pos)).1)

/-- What `SkipListMemtableIterator` yields after `seek(key)`: from the equal node the search
stopped on, or else from the node after the last smaller one. -/
def seek (t : SkipListMemtable) (key : InternalKey) : List KeyValueEntry :=
  let (pos, exact) := findPreviousNode key t.nodes (HEIGHT - 1) 0
  ((t.nodes.drop (if exact then pos - 1 else pos)).map Node.entry)

/-- `key_range`: the first and the last key. -/
def keyRange (t : SkipListMemtable) : Option (InternalKey × InternalKey) :=
  match t.nodes.head?, t.nodes.getLast? with
  | some first, some last => some (first.key, last.key)
  | _, _ => none

/-- What `SkipListMemtableIterator` yields from the head (`iter`). -/
def iter (t : SkipListMemtable) : List KeyValueEntry := t.nodes.map Node.entry

end SkipListMemtable

/-- `MemTable`: the skip list and the bytes of the keys and values it holds. -/
structure MemTable where
  table : SkipListMemtable
  size : Nat
  deriving DecidableEq, Repr

namespace MemTable

def new : MemTable := ⟨SkipListMemtable.new, 0⟩

/-- `insert`: an internal key is serialized with eight bytes after the user key. -/
def insert (m : MemTable) (key : InternalKey) (value : List UInt8) : MemTable :=
  ⟨m.table.insert key value, m.size + (key.userKey.length + 8 + value.length)⟩

def iter (m : MemTable) : List KeyValueEntry := m.table.nodes.map Node.entry

end MemTable

end Dacha.SSTable
