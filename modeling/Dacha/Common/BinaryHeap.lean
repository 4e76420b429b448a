import Mathlib

/-!
# The indexed binary heap (`common/src/tree/binary_heap.rs`, `executor/src/linux/timeout.rs`)

`BinaryHeap` keeps its items as an implicit min-heap in a `Vec` and, beside it, an inverted index
(`BinaryHeapIndex`) from each item to its offset, kept in step by `swap` and `pop`. The index
modelled is `TimeoutHeapIndex` (`timeout.rs:62-86`): a map from the key of an item (its
`TimeoutId`) to the offset last recorded for it, from which `clear_offset` removes the key. The
`waker` of a `TimeoutEntry` is not read by the heap and is left out.

The loops of `insert` and `remove_at_index` are given fuel, `i` and `len - i`; each pass moves
`i` to its parent or to one of its children, so the fuel never runs out (the theorems below
hold only because it does not).

- `IndexExact`: the index maps the key of every item to its offset, and holds nothing else.
- `HeapOrdered`: no item is below its parent under the comparator.
- `Valid` (both) holds after `insert` of a key not in the heap, `extract_min`, `remove` and
  `pop_any`, over every run of them (`valid_run`); `extract_min` returns a least item and takes
  exactly that item out of the multiset of items.
- `remove_at_index` never reads its offset: it removes the root. So `remove q` returns the least
  item, not the one keyed `q`, whenever `q` sits anywhere but at the root (`remove_takes_root`).
-/

namespace Dacha.Common

/-- `BinaryHeap<V, C, TimeoutHeapIndex>`: the items and the index of their keys. The comparator
is a parameter of the operations. -/
structure BinaryHeap (V K : Type) where
  items : Array V
  index : K → Option Nat

namespace BinaryHeap

section Model

variable {V K : Type} [Inhabited V] [DecidableEq K] (key : V → K) (cmp : V → V → Ordering)

/-- `BinaryHeap::new` with an empty `TimeoutHeapIndex`. -/
def empty : BinaryHeap V K := ⟨#[], fun _ => none⟩

def recordOffset (index : K → Option Nat) (value : V) (offset : Nat) : K → Option Nat :=
  Function.update index (key value) (some offset)

def lookupOffset (index : K → Option Nat) (query : K) : Option Nat := index query

def clearOffset (index : K → Option Nat) (value : V) : K → Option Nat :=
  Function.update index (key value) none

/-- `BinaryHeap::swap`: swap two items, then record the offsets of both. -/
def swap (h : BinaryHeap V K) (a b : Nat) : BinaryHeap V K :=
  let items := h.items.swapIfInBounds a b
  { items, index := recordOffset key (recordOffset key h.index items[a]! a) items[b]! b }

/-- `BinaryHeap::pop`: the last item, with its key cleared from the index. -/
def pop (h : BinaryHeap V K) : Option V × BinaryHeap V K :=
  match h.items.back? with
  | none => (none, h)
  | some value => (some value, { items := h.items.pop, index := clearOffset key h.index value })

/-- `BinaryHeap::swap_remove`: the item at `index` swapped to the end and popped. -/
def swapRemove (h : BinaryHeap V K) (index : Nat) : Option V × BinaryHeap V K :=
  pop key (swap key h index (h.items.size - 1))

/-- `parent_i` of the loop of `insert`. -/
def parent (i : Nat) : Nat := (i + 1) / 2 - 1

theorem parent_def (i : Nat) : parent i = (i + 1) / 2 - 1 := rfl

/-- The `while` loop of `insert`, from the item at `i` up, given `fuel` passes. -/
def siftUp : Nat → BinaryHeap V K → Nat → BinaryHeap V K
  | 0, h, _ => h
  | fuel + 1, h, i =>
    if i = 0 then h
    else if (cmp h.items[i]! h.items[parent i]!).isGE then h
    else siftUp fuel (swap key h i (parent i)) (parent i)

-- The equations of the two loops, stated once so that proofs rewrite with these rather than
-- asking for the generated equation lemmas of the recursions.
theorem siftUp_zero (h : BinaryHeap V K) (i : Nat) : siftUp key cmp 0 h i = h := rfl

theorem siftUp_succ (fuel : Nat) (h : BinaryHeap V K) (i : Nat) :
    siftUp key cmp (fuel + 1) h i =
      if i = 0 then h
      else if (cmp h.items[i]! h.items[parent i]!).isGE then h
      else siftUp key cmp fuel (swap key h i (parent i)) (parent i) := rfl

/-- `BinaryHeap::insert`: record the new item's offset, push it, and sift it up. -/
def insert (h : BinaryHeap V K) (value : V) : BinaryHeap V K :=
  let h : BinaryHeap V K :=
    { items := h.items.push value, index := recordOffset key h.index value h.items.size }
  siftUp key cmp (h.items.size - 1) h (h.items.size - 1)

/-- `min_i` of one pass of the loop of `remove_at_index`: `i`, or the lesser of its children
when that is below it. -/
def minChild (items : Array V) (i : Nat) : Nat :=
  let leftChildI := 2 * (i + 1) - 1
  let rightChildJ := leftChildI + 1
  let minI := if leftChildI < items.size ∧ (cmp items[leftChildI]! items[i]!).isLT then
    leftChildI else i
  if rightChildJ < items.size ∧ (cmp items[rightChildJ]! items[minI]!).isLT then rightChildJ
  else minI

/-- The `loop` of `remove_at_index`, from the item at `i` down, given `fuel` passes. -/
def siftDown : Nat → BinaryHeap V K → Nat → BinaryHeap V K
  | 0, h, _ => h
  | fuel + 1, h, i =>
    let minI := minChild cmp h.items i
    if minI ≠ i then siftDown fuel (swap key h i minI) minI else h

theorem siftDown_zero (h : BinaryHeap V K) (i : Nat) : siftDown key cmp 0 h i = h := rfl

theorem siftDown_succ (fuel : Nat) (h : BinaryHeap V K) (i : Nat) :
    siftDown key cmp (fuel + 1) h i =
      if minChild cmp h.items i ≠ i then
        siftDown key cmp fuel (swap key h i (minChild cmp h.items i)) (minChild cmp h.items i)
      else h := rfl

/-- `BinaryHeap::remove_at_index`. The offset `index` is never read: the root is swapped out and
the last item sifted down from it. -/
def removeAtIndex (h : BinaryHeap V K) (_index : Nat) : Option V × BinaryHeap V K :=
  if h.items.size ≤ 1 then pop key h
  else
    let (v, h) := swapRemove key h 0
    (v, siftDown key cmp h.items.size h 0)

def extractMin (h : BinaryHeap V K) : Option V × BinaryHeap V K := removeAtIndex key cmp h 0

theorem extractMin_eq (h : BinaryHeap V K) : extractMin key cmp h = removeAtIndex key cmp h 0 :=
  rfl

/-- `BinaryHeap::remove`: the offset the index has for `query`, then `remove_at_index`. -/
def remove (h : BinaryHeap V K) (query : K) : Option V × BinaryHeap V K :=
  match lookupOffset h.index query with
  | none => (none, h)
  | some offset => removeAtIndex key cmp h offset

def popAny (h : BinaryHeap V K) : Option V × BinaryHeap V K := pop key h

end Model

/-! ## Reading the items after a swap, a pop and a push -/

section Items

variable {V : Type} [Inhabited V]

theorem getElem!_swapIfInBounds {xs : Array V} {a b : Nat} (ha : a < xs.size) (hb : b < xs.size)
    (k : Nat) : (xs.swapIfInBounds a b)[k]! = xs[Equiv.swap a b k]! := by
  rw [Equiv.swap_apply_def]
  by_cases hk : k < xs.size
  · rw [getElem!_pos _ _ (by simpa using hk), Array.getElem_swapIfInBounds]
    split_ifs <;> simp_all [getElem!_pos]
  · have hka : k ≠ a := by omega
    have hkb : k ≠ b := by omega
    rw [getElem!_neg _ _ (by simpa using hk), if_neg hka, if_neg hkb, getElem!_neg xs k hk]

theorem getElem!_pop_of_lt {xs : Array V} {k : Nat} (hk : k < xs.size - 1) :
    xs.pop[k]! = xs[k]! := by
  rw [getElem!_pos _ _ (by simpa using hk), getElem!_pos _ _ (by omega), Array.getElem_pop]

theorem getElem!_push_of_lt {xs : Array V} {v : V} {k : Nat} (hk : k < xs.size) :
    (xs.push v)[k]! = xs[k]! := by
  rw [getElem!_pos _ _ (by simp; omega), getElem!_pos xs k hk, Array.getElem_push_lt]

theorem getElem!_push_size (xs : Array V) (v : V) : (xs.push v)[xs.size]! = v := by
  rw [getElem!_pos _ _ (by simp), Array.getElem_push_eq]

end Items

/-! ## The tree the offsets form -/

theorem parent_lt {i : Nat} (h : 0 < i) : parent i < i := by
  rw [parent_def]; omega

@[simp] theorem parent_leftChild (i : Nat) : parent (2 * (i + 1) - 1) = i := by
  rw [parent_def]; omega

@[simp] theorem parent_rightChild (i : Nat) : parent (2 * (i + 1) - 1 + 1) = i := by
  rw [parent_def]; omega

theorem child_cases {c i : Nat} (h : 0 < c) (hp : parent c = i) :
    c = 2 * (i + 1) - 1 ∨ c = 2 * (i + 1) - 1 + 1 := by
  rw [parent_def] at hp; omega

/-! ## The comparator's order -/

section Cmp

variable {V : Type} {cmp : V → V → Ordering} [Std.TransCmp cmp]

theorem not_lt_self (a : V) : cmp a a ≠ .lt := by
  have h : cmp a a = .eq := Std.ReflCmp.compare_self
  rw [h]; decide

theorem not_lt_of_lt {a b : V} (h : cmp a b = .lt) : cmp b a ≠ .lt := by
  intro h'
  have := Std.OrientedCmp.gt_iff_lt.mpr h'
  rw [h] at this
  cases this

theorem isLE_of_not_lt {a b : V} (h : cmp a b ≠ .lt) : (cmp b a).isLE := by
  rw [Ordering.isLE_iff_ne_gt]
  exact fun hgt => h (Std.OrientedCmp.gt_iff_lt.mp hgt)

theorem not_lt_trans {a b c : V} (hab : cmp a b ≠ .lt) (hbc : cmp b c ≠ .lt) :
    cmp a c ≠ .lt :=
  fun hac => hab (Std.TransCmp.lt_of_lt_of_isLE hac (isLE_of_not_lt hbc))

theorem not_lt_of_not_lt_of_lt {a b c : V} (hac : cmp a c ≠ .lt) (hbc : cmp b c = .lt) :
    cmp a b ≠ .lt :=
  fun hab => hac (Std.TransCmp.lt_trans hab hbc)

end Cmp

/-! ## Heap order -/

section Order

variable {V : Type} [Inhabited V] (cmp : V → V → Ordering)

/-- No item is below its parent. -/
def HeapOrdered (items : Array V) : Prop :=
  ∀ c, 0 < c → c < items.size → cmp items[c]! items[parent c]! ≠ .lt

/-- What the loop of `insert` keeps with the new item at `i`: every pair but `i` and its parent
is in order, and `i`'s children are not below `i`'s parent. -/
structure SiftUpOrder (items : Array V) (i : Nat) : Prop where
  lt_size : i < items.size
  except : ∀ c, 0 < c → c < items.size → c ≠ i → cmp items[c]! items[parent c]! ≠ .lt
  grand : 0 < i → ∀ c, 0 < c → c < items.size → parent c = i →
    cmp items[c]! items[parent i]! ≠ .lt

/-- What the loop of `remove_at_index` keeps with the moved item at `i`: every pair but `i` and
its children is in order, and `i`'s children are not below `i`'s parent. -/
structure SiftDownOrder (items : Array V) (i : Nat) : Prop where
  except : ∀ c, 0 < c → c < items.size → parent c ≠ i → cmp items[c]! items[parent c]! ≠ .lt
  grand : 0 < i → ∀ c, 0 < c → c < items.size → parent c = i →
    cmp items[c]! items[parent i]! ≠ .lt

variable {cmp}

/-- The loop of `insert` stops with the heap in order. -/
theorem SiftUpOrder.finish {items : Array V} {i : Nat} (o : SiftUpOrder cmp items i)
    (hstop : 0 < i → cmp items[i]! items[parent i]! ≠ .lt) : HeapOrdered cmp items := by
  intro c hc0 hc
  by_cases hci : c = i
  · rw [hci] at hc0 ⊢
    exact hstop hc0
  · exact o.except c hc0 hc hci

/-- The loop of `remove_at_index` stops with the heap in order. -/
theorem SiftDownOrder.finish {items : Array V} {i : Nat} (o : SiftDownOrder cmp items i)
    (hstop : ∀ c, 0 < c → c < items.size → parent c = i → cmp items[c]! items[i]! ≠ .lt) :
    HeapOrdered cmp items := by
  intro c hc0 hc
  by_cases hpi : parent c = i
  · rw [hpi]
    exact hstop c hc0 hc hpi
  · exact o.except c hc0 hc hpi

section Steps

variable [Std.TransCmp cmp]

/-- A pass of the loop of `insert` that swaps the item at `i` with its parent. -/
theorem SiftUpOrder.swap {items : Array V} {i : Nat} (o : SiftUpOrder cmp items i) (hi : 0 < i)
    (hlt : cmp items[i]! items[parent i]! = .lt) :
    SiftUpOrder cmp (items.swapIfInBounds i (parent i)) (parent i) := by
  have hp := parent_lt hi
  have hsize := o.lt_size
  have hread := getElem!_swapIfInBounds hsize (show parent i < items.size by omega)
  refine ⟨by simp; omega, ?_, ?_⟩
  · intro c hc0 hc hcp
    simp only [Array.size_swapIfInBounds] at hc
    rw [hread, hread]
    by_cases hci : c = i
    · -- the swapped pair
      rw [hci, Equiv.swap_apply_left, Equiv.swap_apply_right]
      exact not_lt_of_lt hlt
    rw [Equiv.swap_apply_of_ne_of_ne hci hcp]
    by_cases hpi : parent c = i
    · -- a child of `i`, now below the old parent's item
      rw [hpi, Equiv.swap_apply_left]
      exact o.grand hi c hc0 hc hpi
    by_cases hpp : parent c = parent i
    · -- a sibling of `i`: not below the old parent's item, so not below the new one
      have h := o.except c hc0 hc hci
      rw [hpp] at h ⊢
      rw [Equiv.swap_apply_right]
      exact not_lt_of_not_lt_of_lt h hlt
    · rw [Equiv.swap_apply_of_ne_of_ne hpi hpp]
      exact o.except c hc0 hc hci
  · intro hp0 c hc0 hc hcp
    simp only [Array.size_swapIfInBounds] at hc
    have hpp := parent_lt hp0
    have hne1 : parent (parent i) ≠ i := by omega
    have hne2 : parent (parent i) ≠ parent i := by omega
    rw [hread, hread, Equiv.swap_apply_of_ne_of_ne hne1 hne2]
    by_cases hci : c = i
    · -- `i` now holds the old parent's item
      rw [hci, Equiv.swap_apply_left]
      exact o.except (parent i) hp0 (by omega) (by omega)
    · have hcp' : c ≠ parent i := by have := parent_lt hc0; omega
      rw [Equiv.swap_apply_of_ne_of_ne hci hcp']
      have h := o.except c hc0 hc hci
      rw [hcp] at h
      exact not_lt_trans h (o.except (parent i) hp0 (by omega) (by omega))


/-- `min_i` is `i`, or a child of `i` below it; and no child of `i` is below `min_i`. -/
theorem minChild_spec (items : Array V) (i : Nat) :
    (minChild cmp items i = i ∨
      (0 < minChild cmp items i ∧ parent (minChild cmp items i) = i ∧
        minChild cmp items i < items.size ∧ cmp items[minChild cmp items i]! items[i]! = .lt)) ∧
    ∀ c, 0 < c → c < items.size → parent c = i →
      cmp items[c]! items[minChild cmp items i]! ≠ .lt := by
  unfold minChild
  dsimp only
  simp only [Ordering.isLT_iff_eq_lt]
  split_ifs with hl hr hr'
  · refine ⟨Or.inr ⟨by omega, parent_rightChild i, hr.1, Std.TransCmp.lt_trans hr.2 hl.2⟩, ?_⟩
    intro c hc0 hc hcp
    rcases child_cases hc0 hcp with rfl | rfl
    · exact not_lt_of_lt hr.2
    · exact not_lt_self _
  · refine ⟨Or.inr ⟨by omega, parent_leftChild i, hl.1, hl.2⟩, ?_⟩
    intro c hc0 hc hcp
    rcases child_cases hc0 hcp with rfl | rfl
    · exact not_lt_self _
    · exact fun h => hr ⟨hc, h⟩
  · refine ⟨Or.inr ⟨by omega, parent_rightChild i, hr'.1, hr'.2⟩, ?_⟩
    intro c hc0 hc hcp
    rcases child_cases hc0 hcp with rfl | rfl
    · exact not_lt_of_not_lt_of_lt (fun h => hl ⟨hc, h⟩) hr'.2
    · exact not_lt_self _
  · refine ⟨Or.inl rfl, ?_⟩
    intro c hc0 hc hcp
    rcases child_cases hc0 hcp with rfl | rfl
    · exact fun h => hl ⟨hc, h⟩
    · exact fun h => hr' ⟨hc, h⟩

/-- A pass of the loop of `remove_at_index` that swaps the item at `i` with its child `m`, the
least of `i`'s children and below `i`'s item. -/
theorem SiftDownOrder.swap {items : Array V} {i m : Nat} (o : SiftDownOrder cmp items i)
    (hm0 : 0 < m) (hpm : parent m = i) (hm : m < items.size)
    (hlt : cmp items[m]! items[i]! = .lt)
    (hmin : ∀ c, 0 < c → c < items.size → parent c = i → cmp items[c]! items[m]! ≠ .lt) :
    SiftDownOrder cmp (items.swapIfInBounds i m) m := by
  have him : i < m := by have := parent_lt hm0; omega
  have hread := getElem!_swapIfInBounds (show i < items.size by omega) hm
  refine ⟨?_, ?_⟩
  · intro c hc0 hc hcp
    simp only [Array.size_swapIfInBounds] at hc
    rw [hread, hread]
    by_cases hcm : c = m
    · -- the swapped pair
      rw [hcm, hpm, Equiv.swap_apply_right, Equiv.swap_apply_left]
      exact not_lt_of_lt hlt
    by_cases hci : c = i
    · -- `i` now holds `m`'s item, not below `i`'s parent
      have hi0 : 0 < i := hci ▸ hc0
      have hpi := parent_lt hi0
      have hne1 : parent i ≠ i := by omega
      have hne2 : parent i ≠ m := by omega
      rw [hci, Equiv.swap_apply_left, Equiv.swap_apply_of_ne_of_ne hne1 hne2]
      exact o.grand hi0 m hm0 hm hpm
    rw [Equiv.swap_apply_of_ne_of_ne hci hcm]
    by_cases hpi : parent c = i
    · -- a sibling of `m`: not below `m`'s item, which `i` now holds
      rw [hpi, Equiv.swap_apply_left]
      exact hmin c hc0 hc hpi
    · rw [Equiv.swap_apply_of_ne_of_ne hpi hcp]
      exact o.except c hc0 hc hpi
  · intro _ c hc0 hc hcp
    simp only [Array.size_swapIfInBounds] at hc
    have hmc : m < c := hcp ▸ parent_lt hc0
    have hne1 : c ≠ i := by omega
    have hne2 : c ≠ m := by omega
    rw [hread, hread, hpm, Equiv.swap_apply_left, Equiv.swap_apply_of_ne_of_ne hne1 hne2]
    have h := o.except c hc0 hc (by omega)
    rwa [hcp] at h

end Steps

end Order

/-! ## The index -/

section Index

variable {V K : Type} [Inhabited V] (key : V → K)

/-- `lookup_offset (key v)` is the offset of `v` for every item `v`, and the index has no entry
for anything else. -/
structure IndexExact (h : BinaryHeap V K) : Prop where
  located : ∀ i, i < h.items.size → h.index (key h.items[i]!) = some i
  present : ∀ q off, h.index q = some off → off < h.items.size ∧ key h.items[off]! = q

variable {key}

theorem IndexExact.key_inj {h : BinaryHeap V K} (hx : IndexExact key h) {i j : Nat}
    (hi : i < h.items.size) (hj : j < h.items.size) (hk : key h.items[i]! = key h.items[j]!) :
    i = j := by
  have h1 := hx.located i hi
  rw [hk, hx.located j hj] at h1
  exact (Option.some.inj h1).symm

variable [DecidableEq K]

@[simp] theorem items_swap (h : BinaryHeap V K) (a b : Nat) :
    (swap key h a b).items = h.items.swapIfInBounds a b := rfl

/-- `swap` records both offsets it moves, so the index stays exact. -/
theorem IndexExact.swap {h : BinaryHeap V K} (hx : IndexExact key h) {a b : Nat}
    (ha : a < h.items.size) (hb : b < h.items.size) :
    IndexExact key (BinaryHeap.swap key h a b) := by
  have hread := getElem!_swapIfInBounds ha hb
  have hσ : ∀ k, k < h.items.size → Equiv.swap a b k < h.items.size := by
    intro k hk
    rw [Equiv.swap_apply_def]
    split_ifs <;> omega
  have hindex : ∀ q, (BinaryHeap.swap key h a b).index q =
      if q = key h.items[Equiv.swap a b b]! then some b
      else if q = key h.items[Equiv.swap a b a]! then some a else h.index q := by
    intro q
    simp only [BinaryHeap.swap, recordOffset, Function.update_apply, hread]
  constructor
  · intro k hk
    simp only [items_swap, Array.size_swapIfInBounds] at hk
    rw [hindex, items_swap, hread]
    split_ifs with hkb hka
    · rw [(Equiv.swap a b).injective (hx.key_inj (hσ k hk) (hσ b hb) hkb)]
    · rw [(Equiv.swap a b).injective (hx.key_inj (hσ k hk) (hσ a ha) hka)]
    · have hk' : Equiv.swap a b k = k :=
        Equiv.swap_apply_of_ne_of_ne (by rintro rfl; exact hka rfl) (by rintro rfl; exact hkb rfl)
      rw [hk']
      exact hx.located k hk
  · intro q off hq
    rw [hindex] at hq
    simp only [items_swap, Array.size_swapIfInBounds, hread]
    split_ifs at hq with hqb hqa
    · cases hq
      exact ⟨hb, hqb.symm⟩
    · cases hq
      exact ⟨ha, hqa.symm⟩
    · obtain ⟨hoff, hkey⟩ := hx.present q off hq
      have hoa : off ≠ a := by
        rintro rfl
        exact hqb (by rw [Equiv.swap_apply_right, hkey])
      have hob : off ≠ b := by
        rintro rfl
        exact hqa (by rw [Equiv.swap_apply_left, hkey])
      rw [Equiv.swap_apply_of_ne_of_ne hoa hob]
      exact ⟨hoff, hkey⟩

theorem IndexExact.pop {h : BinaryHeap V K} (hx : IndexExact key h) :
    IndexExact key (BinaryHeap.pop key h).2 := by
  unfold BinaryHeap.pop
  cases hback : h.items.back? with
  | none => exact hx
  | some v =>
    have hsize : 0 < h.items.size := by
      rw [Array.back?_eq_getElem?] at hback
      by_contra hzero
      simp_all
    have hv : h.items[h.items.size - 1]! = v := by
      rw [Array.back?_eq_getElem?, getElem?_pos _ _ (by omega)] at hback
      rw [getElem!_pos _ _ (by omega)]
      exact Option.some.inj hback
    constructor
    · intro k hk
      simp only [Array.size_pop] at hk
      simp only [clearOffset, Function.update_apply, getElem!_pop_of_lt hk]
      have hne : key h.items[k]! ≠ key v := by
        rw [← hv]
        intro heq
        have := hx.key_inj (by omega) (by omega) heq
        omega
      rw [if_neg hne]
      exact hx.located k (by omega)
    · intro q off hq
      simp only [clearOffset, Function.update_apply] at hq
      split_ifs at hq with hqv
      obtain ⟨hoff, hkey⟩ := hx.present q off hq
      have hlast : off ≠ h.items.size - 1 := by
        rintro rfl
        exact hqv (by rw [← hkey, hv])
      simp only [Array.size_pop]
      rw [getElem!_pop_of_lt (by omega)]
      exact ⟨by omega, hkey⟩

theorem IndexExact.push {h : BinaryHeap V K} (hx : IndexExact key h) {v : V}
    (hfresh : h.index (key v) = none) :
    IndexExact key
      { items := h.items.push v, index := recordOffset key h.index v h.items.size } := by
  constructor
  · intro k hk
    simp only [Array.size_push] at hk
    simp only [recordOffset, Function.update_apply]
    by_cases hks : k = h.items.size
    · rw [hks, getElem!_push_size, if_pos rfl]
    · have hk' : k < h.items.size := by omega
      rw [getElem!_push_of_lt hk']
      have hne : key h.items[k]! ≠ key v := by
        intro heq
        have := hx.located k hk'
        rw [heq, hfresh] at this
        cases this
      rw [if_neg hne]
      exact hx.located k hk'
  · intro q off hq
    simp only [recordOffset, Function.update_apply] at hq
    simp only [Array.size_push]
    split_ifs at hq with hqv
    · cases hq
      rw [getElem!_push_size]
      exact ⟨by omega, hqv.symm⟩
    · obtain ⟨hoff, hkey⟩ := hx.present q off hq
      rw [getElem!_push_of_lt hoff]
      exact ⟨by omega, hkey⟩

end Index

/-! ## The two loops -/

section Loops

variable {V K : Type} [Inhabited V] [DecidableEq K] {key : V → K} {cmp : V → V → Ordering}

theorem siftUp_induction (P : BinaryHeap V K → Prop)
    (hswap : ∀ h a b, a < h.items.size → b < h.items.size → P h → P (swap key h a b)) :
    ∀ fuel (h : BinaryHeap V K) i, i < h.items.size → P h → P (siftUp key cmp fuel h i)
  | 0, h, _, _, hp => hp
  | fuel + 1, h, i, hi, hp => by
    rw [siftUp_succ]
    split_ifs with hi0
    · exact hp
    · exact hp
    · have hpi := parent_lt (Nat.pos_of_ne_zero hi0)
      exact siftUp_induction P hswap fuel _ _ (by simp; omega)
        (hswap h i (parent i) hi (by omega) hp)

/-- The loop of `insert` ends in order from the start `SiftUpOrder` describes, given fuel for
every step up to the root. -/
theorem siftUp_ordered [Std.TransCmp cmp] :
    ∀ fuel (h : BinaryHeap V K) i, i ≤ fuel → SiftUpOrder cmp h.items i →
      HeapOrdered cmp (siftUp key cmp fuel h i).items
  | 0, h, i, hfuel, o => by
    rw [siftUp_zero]
    exact o.finish (fun hi => by omega)
  | fuel + 1, h, i, hfuel, o => by
    rw [siftUp_succ]
    split_ifs with hi0 hge
    · exact o.finish (fun hi => by omega)
    · exact o.finish (fun _ => Ordering.isGE_iff_ne_lt.mp hge)
    · have hlt : cmp h.items[i]! h.items[parent i]! = .lt := by
        simpa [Ordering.isGE_iff_ne_lt] using hge
      have hpi := parent_lt (Nat.pos_of_ne_zero hi0)
      exact siftUp_ordered fuel _ _ (by omega) (o.swap (Nat.pos_of_ne_zero hi0) hlt)

variable [Std.TransCmp cmp]

theorem siftDown_induction (P : BinaryHeap V K → Prop)
    (hswap : ∀ h a b, a < h.items.size → b < h.items.size → P h → P (swap key h a b)) :
    ∀ fuel (h : BinaryHeap V K) i, P h → P (siftDown key cmp fuel h i)
  | 0, h, _, hp => hp
  | fuel + 1, h, i, hp => by
    rw [siftDown_succ]
    split_ifs with hne
    · rcases (@minChild_spec _ _ cmp _ h.items i).1 with heq | ⟨hm0, hpm, hm, -⟩
      · exact absurd heq hne
      · have him : i < minChild cmp h.items i := by have := parent_lt hm0; omega
        exact siftDown_induction P hswap fuel _ _ (hswap h i _ (by omega) hm hp)
    · exact hp

/-- The loop of `remove_at_index` ends in order from the start `SiftDownOrder` describes, given
fuel for every step down to the leaves. -/
theorem siftDown_ordered :
    ∀ fuel (h : BinaryHeap V K) i, h.items.size ≤ fuel + i → SiftDownOrder cmp h.items i →
      HeapOrdered cmp (siftDown key cmp fuel h i).items
  | 0, h, i, hfuel, o => by
    rw [siftDown_zero]
    -- out of fuel only past the last item, where `i` has no children
    exact o.finish (fun c hc0 hc hcp => absurd hc (by have := parent_lt hc0; omega))
  | fuel + 1, h, i, hfuel, o => by
    obtain ⟨hcases, hmin⟩ := @minChild_spec _ _ cmp _ h.items i
    rw [siftDown_succ]
    split_ifs with hne
    · rcases hcases with heq | ⟨hm0, hpm, hm, hlt⟩
      · exact absurd heq hne
      · have him : i < minChild cmp h.items i := by have := parent_lt hm0; omega
        exact siftDown_ordered fuel _ _ (by simp; omega) (o.swap hm0 hpm hm hlt hmin)
    · rw [not_not] at hne
      rw [hne] at hmin
      exact o.finish hmin

end Loops

/-! ## The operations -/

section Operations

variable {V K : Type} [Inhabited V] [DecidableEq K] (key : V → K) (cmp : V → V → Ordering)

/-- The heap's two invariants. -/
structure Valid (h : BinaryHeap V K) : Prop where
  exact : IndexExact key h
  ordered : HeapOrdered cmp h.items

theorem swap_perm (h : BinaryHeap V K) (a b : Nat) :
    (swap key h a b).items.toList.Perm h.items.toList := by
  rw [items_swap, Array.toList_swapIfInBounds]
  exact List.swap_perm _ _ _

omit [Inhabited V] in
theorem pop_spec (h : BinaryHeap V K) :
    (pop key h).1 = h.items.back? ∧
      ∀ v, h.items.back? = some v →
        (pop key h).2.items = h.items.pop ∧ h.items.toList.Perm (v :: (pop key h).2.items.toList) := by
  unfold pop
  cases hback : h.items.back? with
  | none => exact ⟨rfl, fun v hv => by cases hv⟩
  | some v =>
    refine ⟨rfl, fun w hw => ?_⟩
    cases hw
    obtain ⟨ys, hys⟩ := Array.back?_eq_some_iff.mp hback
    refine ⟨rfl, ?_⟩
    rw [hys, Array.pop_push, Array.toList_push]
    exact List.perm_append_singleton _ _

variable {key cmp}

omit [DecidableEq K] in
theorem empty_valid : Valid key cmp (empty : BinaryHeap V K) where
  exact := ⟨fun i hi => by simp [empty] at hi, fun q off hq => by simp [empty] at hq⟩
  ordered := fun c _ hc => by simp [empty] at hc

theorem HeapOrdered.pop {items : Array V} (ho : HeapOrdered cmp items) :
    HeapOrdered cmp items.pop := by
  intro c hc0 hc
  simp only [Array.size_pop] at hc
  have hpc := parent_lt hc0
  rw [getElem!_pop_of_lt hc, getElem!_pop_of_lt (by omega)]
  exact ho c hc0 (by omega)

theorem popAny_valid {h : BinaryHeap V K} (hv : Valid key cmp h) : Valid key cmp (popAny key h).2 := by
  refine ⟨hv.exact.pop, ?_⟩
  cases hback : h.items.back? with
  | none => simp only [popAny, BinaryHeap.pop, hback]; exact hv.ordered
  | some v =>
    rw [popAny, ((pop_spec key h).2 v hback).1]
    exact hv.ordered.pop

theorem siftUpOrder_push {items : Array V} (ho : HeapOrdered cmp items) (v : V) :
    SiftUpOrder cmp (items.push v) items.size := by
  refine ⟨by simp, ?_, ?_⟩
  · intro c hc0 hc hcs
    simp only [Array.size_push] at hc
    have hpc := parent_lt hc0
    rw [getElem!_push_of_lt (by omega), getElem!_push_of_lt (by omega)]
    exact ho c hc0 (by omega)
  · intro _ c hc0 hc hcp
    simp only [Array.size_push] at hc
    have hpc := parent_lt hc0
    omega

theorem insert_eq (h : BinaryHeap V K) (v : V) :
    insert key cmp h v = siftUp key cmp h.items.size
      { items := h.items.push v, index := recordOffset key h.index v h.items.size } h.items.size := by
  simp only [insert, Array.size_push, Nat.add_sub_cancel]

/-- `insert` of an item whose key the heap does not hold keeps it valid. -/
theorem insert_valid [Std.TransCmp cmp] {h : BinaryHeap V K} (hv : Valid key cmp h) {v : V}
    (hfresh : lookupOffset h.index (key v) = none) : Valid key cmp (insert key cmp h v) := by
  rw [insert_eq]
  refine ⟨?_, siftUp_ordered _ _ _ (by simp) (siftUpOrder_push hv.ordered v)⟩
  exact siftUp_induction (IndexExact key) (fun _ _ _ ha hb hx => hx.swap ha hb) _ _ _
    (by simp) (hv.exact.push hfresh)

theorem insert_perm (h : BinaryHeap V K) (v : V) :
    (insert key cmp h v).items.toList.Perm (h.items.toList ++ [v]) := by
  rw [insert_eq]
  refine siftUp_induction (fun h' => h'.items.toList.Perm (h.items.toList ++ [v]))
    (fun h' a b _ _ hp => (swap_perm key h' a b).trans hp) _ _ _ (by simp) ?_
  rw [Array.toList_push]

/-- The start of the loop of `remove_at_index`: the last item moved to the root and the root's
item popped off the end. -/
theorem siftDownOrder_root {items : Array V} (ho : HeapOrdered cmp items) (hs : 2 ≤ items.size) :
    SiftDownOrder cmp (items.swapIfInBounds 0 (items.size - 1)).pop 0 := by
  have hread := getElem!_swapIfInBounds (show 0 < items.size by omega)
    (show items.size - 1 < items.size by omega)
  refine ⟨?_, fun h0 => absurd h0 (Nat.lt_irrefl 0)⟩
  intro c hc0 hc hcp
  simp only [Array.size_pop, Array.size_swapIfInBounds] at hc
  have hpc := parent_lt hc0
  have hc1 : c ≠ items.size - 1 := by omega
  have hp1 : parent c ≠ items.size - 1 := by omega
  rw [getElem!_pop_of_lt (by simpa using hc), getElem!_pop_of_lt (by simp; omega), hread, hread,
    Equiv.swap_apply_of_ne_of_ne (Nat.pos_iff_ne_zero.mp hc0) hc1,
    Equiv.swap_apply_of_ne_of_ne hcp hp1]
  exact ho c hc0 (by omega)

theorem swapRemove_root {h : BinaryHeap V K} (hs : 2 ≤ h.items.size) :
    (swapRemove key h 0).1 = some h.items[0]! ∧
      (swapRemove key h 0).2.items = (h.items.swapIfInBounds 0 (h.items.size - 1)).pop := by
  have hlast : h.items.size - 1 < (h.items.swapIfInBounds 0 (h.items.size - 1)).size := by
    simp; omega
  have hback : (swap key h 0 (h.items.size - 1)).items.back? = some h.items[0]! := by
    rw [items_swap, Array.back?_eq_getElem?, Array.size_swapIfInBounds,
      getElem?_pos (h.items.swapIfInBounds 0 (h.items.size - 1)) _ hlast,
      ← getElem!_pos (h.items.swapIfInBounds 0 (h.items.size - 1)) _ hlast,
      getElem!_swapIfInBounds (by omega) (by omega),
      Equiv.swap_apply_right]
  obtain ⟨hfst, hrest⟩ := pop_spec key (swap key h 0 (h.items.size - 1))
  exact ⟨hfst.trans hback, (hrest _ hback).1⟩

theorem removeAtIndex_of_le_one {h : BinaryHeap V K} (index : Nat) (hs : h.items.size ≤ 1) :
    removeAtIndex key cmp h index = pop key h :=
  if_pos hs

theorem removeAtIndex_of_two_le {h : BinaryHeap V K} (index : Nat) (hs : 2 ≤ h.items.size) :
    removeAtIndex key cmp h index =
      ((swapRemove key h 0).1,
        siftDown key cmp (swapRemove key h 0).2.items.size (swapRemove key h 0).2 0) :=
  if_neg (by omega)

theorem extractMin_fst (h : BinaryHeap V K) : (extractMin key cmp h).1 = h.items[0]? := by
  rw [extractMin_eq]
  by_cases hs : h.items.size ≤ 1
  · -- on one item the last is the root
    rw [removeAtIndex_of_le_one _ hs, (pop_spec key h).1, Array.back?_eq_getElem?]
    rcases Nat.le_one_iff_eq_zero_or_eq_one.mp hs with h0 | h1
    · simp [h0]
    · rw [h1]
  · rw [removeAtIndex_of_two_le _ (by omega), (swapRemove_root (by omega)).1,
      getElem?_pos _ _ (by omega), getElem!_pos _ _ (by omega)]

/-- `extract_min` takes its answer out of the multiset of items. -/
theorem extractMin_perm [Std.TransCmp cmp] (h : BinaryHeap V K) {v : V}
    (hv : (extractMin key cmp h).1 = some v) :
    h.items.toList.Perm (v :: (extractMin key cmp h).2.items.toList) := by
  rw [extractMin_eq] at hv ⊢
  by_cases hs : h.items.size ≤ 1
  · rw [removeAtIndex_of_le_one _ hs] at hv ⊢
    rw [(pop_spec key h).1] at hv
    exact ((pop_spec key h).2 v hv).2
  · rw [removeAtIndex_of_two_le _ (by omega)] at hv ⊢
    have hsw := swap_perm key h 0 (h.items.size - 1)
    obtain ⟨hfst, hrest⟩ := pop_spec key (swap key h 0 (h.items.size - 1))
    have hv' : (swap key h 0 (h.items.size - 1)).items.back? = some v := hfst ▸ hv
    have hloop : (siftDown key cmp (swapRemove key h 0).2.items.size (swapRemove key h 0).2
        0).items.toList.Perm (swapRemove key h 0).2.items.toList := siftDown_induction
      (fun h' => h'.items.toList.Perm (swapRemove key h 0).2.items.toList)
      (fun h' a b _ _ hp => (swap_perm key h' a b).trans hp) (swapRemove key h 0).2.items.size
      (swapRemove key h 0).2 0 (List.Perm.refl _)
    exact hsw.symm.trans ((hrest v hv').2.trans (List.Perm.cons v hloop.symm))

/-- `extract_min` keeps the heap valid. -/
theorem extractMin_valid [Std.TransCmp cmp] {h : BinaryHeap V K} (hv : Valid key cmp h) :
    Valid key cmp (extractMin key cmp h).2 := by
  rw [extractMin_eq]
  by_cases hs : h.items.size ≤ 1
  · rw [removeAtIndex_of_le_one _ hs]
    exact popAny_valid hv
  · rw [removeAtIndex_of_two_le _ (by omega)]
    have hx : IndexExact key (swapRemove key h 0).2 :=
      (hv.exact.swap (by omega) (by omega)).pop
    refine ⟨siftDown_induction (IndexExact key) (fun _ _ _ ha hb hx => hx.swap ha hb) _ _ _ hx, ?_⟩
    refine siftDown_ordered _ _ _ (by omega) ?_
    rw [(swapRemove_root (by omega)).2]
    exact siftDownOrder_root hv.ordered (by omega)

/-- The root of an ordered heap is least. -/
theorem HeapOrdered.root_min [Std.TransCmp cmp] {items : Array V} (ho : HeapOrdered cmp items) :
    ∀ k, k < items.size → cmp items[k]! items[0]! ≠ .lt := by
  intro k
  induction k using Nat.strongRecOn with
  | ind k ih =>
    intro hk
    rcases Nat.eq_zero_or_pos k with rfl | hk0
    · exact not_lt_self _
    · have hpk := parent_lt hk0
      exact not_lt_trans (ho k hk0 hk) (ih (parent k) hpk (by omega))

/-- `extract_min` answers an item of the heap that no item is below. -/
theorem extractMin_min [Std.TransCmp cmp] {h : BinaryHeap V K} (hv : Valid key cmp h) {v : V}
    (hmin : (extractMin key cmp h).1 = some v) : v ∈ h.items ∧ ∀ x ∈ h.items, cmp x v ≠ .lt := by
  rw [extractMin_fst] at hmin
  obtain ⟨hs, rfl⟩ := getElem?_eq_some_iff.mp hmin
  refine ⟨Array.getElem_mem hs, fun x hx => ?_⟩
  obtain ⟨k, hk, rfl⟩ := Array.mem_iff_getElem.mp hx
  have hroot := hv.ordered.root_min k hk
  rwa [getElem!_pos h.items k hk, getElem!_pos h.items 0 hs] at hroot

/-- Inserting 7 and then 5: `extract_min` answers 5, and nothing in the heap is below it. -/
theorem extractMin_min_seven_five :
    5 ∈ (insert id compare (insert id compare (empty : BinaryHeap Nat Nat) 7) 5).items ∧
      ∀ x ∈ (insert id compare (insert id compare (empty : BinaryHeap Nat Nat) 7) 5).items,
        compare x 5 ≠ .lt :=
  extractMin_min (insert_valid (insert_valid empty_valid rfl) (by decide)) (by decide)

omit [DecidableEq K] in
theorem IndexExact.lookup_of_mem {h : BinaryHeap V K} (hx : IndexExact key h) {x : V}
    (hmem : x ∈ h.items.toList) : (lookupOffset h.index (key x)).isSome := by
  obtain ⟨k, hk, rfl⟩ := Array.mem_iff_getElem.mp (Array.mem_toList_iff.mp hmem)
  have hloc := hx.located k hk
  rw [getElem!_pos h.items k hk] at hloc
  simp [lookupOffset, hloc]

/-- `remove` never reads the offset it looks up: once the key has one, it is `extract_min`. -/
theorem remove_eq_extractMin (h : BinaryHeap V K) {q : K} {off : Nat}
    (hq : lookupOffset h.index q = some off) : remove key cmp h q = extractMin key cmp h := by
  rw [remove, hq]
  rfl

/-- On a valid heap, `remove q` for a key `q` anywhere but at the root answers the root's item,
whose key is not `q`, and leaves `q`'s item in the heap and in the index. -/
theorem remove_takes_root [Std.TransCmp cmp] {h : BinaryHeap V K} (hv : Valid key cmp h) {q : K}
    {off : Nat} (hq : lookupOffset h.index q = some off) (hoff : off ≠ 0) :
    (remove key cmp h q).1 = some h.items[0]! ∧ key h.items[0]! ≠ q ∧
      (lookupOffset (remove key cmp h q).2.index q).isSome := by
  obtain ⟨hsize, hkey⟩ := hv.exact.present q off hq
  have hs0 : 0 < h.items.size := by omega
  rw [remove_eq_extractMin h hq]
  have hfst : (extractMin key cmp h).1 = some h.items[0]! := by
    rw [extractMin_fst, getElem?_pos h.items 0 hs0, getElem!_pos h.items 0 hs0]
  have hroot : key h.items[0]! ≠ q := by
    intro heq
    exact hoff (hv.exact.key_inj hsize hs0 (hkey.trans heq.symm))
  refine ⟨hfst, hroot, ?_⟩
  have hin : h.items[off]! ∈ h.items.toList := by
    rw [getElem!_pos h.items off hsize]
    exact Array.getElem_mem_toList hsize
  have hmem : h.items[off]! ∈ (extractMin key cmp h).2.items.toList := by
    rcases List.mem_cons.mp ((extractMin_perm h hfst).mem_iff.mp hin) with heq | hrest
    · exact absurd (heq ▸ hkey) hroot
    · exact hrest
  have hlook := (extractMin_valid hv).exact.lookup_of_mem hmem
  rwa [hkey] at hlook

/-- Timeouts 5 and 7, keyed by themselves: 7 sits at offset 1, and `remove 7` answers 5 and
leaves 7 in the index. -/
theorem remove_seven_answers_five :
    ∃ h : BinaryHeap Nat Nat, h = insert id compare (insert id compare empty 5) 7 ∧
      lookupOffset h.index 7 = some 1 ∧ (remove id compare h 7).1 = some 5 ∧
      (lookupOffset (remove id compare h 7).2.index 7).isSome := by
  have hv : Valid id compare (insert id compare (insert id compare (empty : BinaryHeap Nat Nat) 5) 7) :=
    insert_valid (insert_valid empty_valid rfl) (by decide)
  have hq : lookupOffset
      (insert id compare (insert id compare (empty : BinaryHeap Nat Nat) 5) 7).index 7 = some 1 := by
    decide
  obtain ⟨hroot, -, hstays⟩ := remove_takes_root hv hq (by decide)
  refine ⟨_, rfl, hq, ?_, hstays⟩
  rw [hroot]
  decide

end Operations

/-! ## Runs of calls -/

section Runs

variable {V K : Type} [Inhabited V] [DecidableEq K]

/-- The calls a run of the heap is made of. -/
inductive Op (V K : Type)
  | insert (value : V)
  | extractMin
  | remove (query : K)
  | popAny

/-- One call, and the heap it leaves. -/
def Op.apply (key : V → K) (cmp : V → V → Ordering) : Op V K → BinaryHeap V K → BinaryHeap V K
  | .insert value, h => BinaryHeap.insert key cmp h value
  | .extractMin, h => (BinaryHeap.extractMin key cmp h).2
  | .remove query, h => (BinaryHeap.remove key cmp h query).2
  | .popAny, h => (BinaryHeap.popAny key h).2

/-- The calls one after the other. -/
def run (key : V → K) (cmp : V → V → Ordering) (h : BinaryHeap V K) (ops : List (Op V K)) :
    BinaryHeap V K :=
  ops.foldl (fun h op => op.apply key cmp h) h

/-- Every `insert` of the run brings a key the heap does not hold at that point. -/
def FreshKeys (key : V → K) (cmp : V → V → Ordering) : BinaryHeap V K → List (Op V K) → Prop
  | _, [] => True
  | h, op :: ops => (∀ value, op = .insert value → lookupOffset h.index (key value) = none) ∧
      FreshKeys key cmp (op.apply key cmp h) ops

variable {key : V → K} {cmp : V → V → Ordering} [Std.TransCmp cmp]

/-- Every call keeps the heap valid, `insert` when its key is new. -/
theorem valid_apply {h : BinaryHeap V K} (hv : Valid key cmp h) {op : Op V K}
    (hfresh : ∀ value, op = .insert value → lookupOffset h.index (key value) = none) :
    Valid key cmp (op.apply key cmp h) := by
  cases op with
  | insert value => exact insert_valid hv (hfresh value rfl)
  | extractMin => exact extractMin_valid hv
  | remove query =>
    cases hq : lookupOffset h.index query with
    | none => simp only [Op.apply, remove, hq]; exact hv
    | some off => rw [Op.apply, remove_eq_extractMin h hq]; exact extractMin_valid hv
  | popAny => exact popAny_valid hv

/-- From a valid heap, every run whose inserts bring new keys keeps it valid. -/
theorem valid_run : ∀ (ops : List (Op V K)) (h : BinaryHeap V K), Valid key cmp h →
    FreshKeys key cmp h ops → Valid key cmp (run key cmp h ops)
  | [], _, hv, _ => hv
  | _ :: ops, _, hv, ⟨hfresh, hrest⟩ => valid_run ops _ (valid_apply hv hfresh) hrest

end Runs

end BinaryHeap

end Dacha.Common
