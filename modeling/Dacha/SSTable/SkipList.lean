import Dacha.SSTable.Memtable
import Dacha.Common.Algorithms

/-!
# What the skip list's walks compute (`memtable/skip_list.rs`)

Both walks of the skip list move along a level while the next node passes a test: `insert` while
the node is `<=` the new key, `find_previous_node` while it is `<` the key it seeks. On nodes in
key order the test holds on a prefix of the list (`PrefixClosed`), and the levels the nodes drew
then do not change where a walk ends:

* at any level a walk passes no node that fails the test, because it passes a low node only on
  the way to a later node of the level, which passes it (`walkLevel_le`, `scanLevel_spec`);
* at level 0 it passes every node that passes the test (`walkLevel_zero`, `scanLevel_zero`).

So `insert` puts the new node after exactly the nodes `<=` it, at whatever level it draws
(`insertAt_nodes`), a skip list with strictly increasing keys stays so under the insert of a new
key (`StrictlySorted.insertAt`), and on such a list `seek` lands on the first node not below the
key (`seek_eq`).

What the skip list is for is `HoldsSorted`: it holds its entries as a sorted list, which the
iterator, `seek` and `key_range` read. Every skip list with strictly increasing keys does
(`HoldsSorted.of_strictlySorted`), an insert of a new key keeps it so at every level
(`HoldsSorted.insertAt`), so at the level the generator draws (`HoldsSorted.insert`), and so does
every sequence of inserts of distinct keys, whatever levels they draw.
-/

namespace Dacha.SSTable

open Dacha.Common

/-- The nodes' keys strictly increase. -/
def StrictlySorted (nodes : List Node) : Prop :=
  nodes.Pairwise fun a b => a.key.compare b.key = .lt

/-- The test `find_previous_node` moves along: the node is below the key. -/
def Node.below (key : InternalKey) (n : Node) : Bool :=
  key.compare n.key == .gt

/-- The test `insert` moves along: the node is not above the key. -/
def Node.notAbove (key : InternalKey) (n : Node) : Bool :=
  (key.compare n.key).isGE

section Order

variable {key : InternalKey} {a b : Node}

theorem Node.below_of_lt_of_notAbove (hab : a.key.compare b.key = .lt)
    (hb : b.notAbove key = true) : a.below key = true := by
  have hb' : (b.key.compare key).isLE = true := by
    rw [Node.notAbove, InternalKey.compare_swap, Ordering.isGE_swap] at hb
    exact hb
  have hlt := Std.TransCmp.lt_of_lt_of_isLE hab hb'
  rw [Node.below, InternalKey.compare_swap, hlt]
  rfl

theorem Node.notAbove_of_below (h : a.below key = true) : a.notAbove key = true := by
  simp only [Node.below, beq_iff_eq] at h
  simp [Node.notAbove, h]

end Order

theorem StrictlySorted.prefixClosed_notAbove {nodes : List Node} (h : StrictlySorted nodes)
    (key : InternalKey) : PrefixClosed (Node.notAbove key) nodes :=
  h.imp fun hab hb => Node.notAbove_of_below (Node.below_of_lt_of_notAbove hab hb)

theorem StrictlySorted.prefixClosed_below {nodes : List Node} (h : StrictlySorted nodes)
    (key : InternalKey) : PrefixClosed (Node.below key) nodes :=
  h.imp fun hab hb => Node.below_of_lt_of_notAbove hab (Node.notAbove_of_below hb)

namespace SkipListMemtable

/-! ## The walk of `insert` -/

theorem walkLevel_zero (advance : Node → Bool) :
    ∀ rest : List Node, walkLevel 0 advance rest = (rest.takeWhile advance).length
  | [] => rfl
  | n :: rest => by
    cases h : advance n <;> simp [walkLevel, h, walkLevel_zero advance rest]

theorem walkLevel_le (level : Nat) (advance : Node → Bool) :
    ∀ rest : List Node, PrefixClosed advance rest →
      walkLevel level advance rest ≤ (rest.takeWhile advance).length
  | [], _ => by simp [walkLevel]
  | n :: rest, h => by
    have hcons := List.pairwise_cons.mp h
    have ih := walkLevel_le level advance rest hcons.2
    by_cases hlow : n.level < level
    · -- a low node is passed only with a later node of the level, which passes the test
      simp only [walkLevel, hlow, if_true]
      split
      · exact Nat.zero_le _
      · rename_i k hk
        rw [hk] at ih
        obtain ⟨m, hm⟩ := List.exists_mem_of_length_pos (by omega : 0 < (rest.takeWhile advance).length)
        have hn : advance n = true :=
          hcons.1 m ((List.takeWhile_sublist _).subset hm) (List.mem_takeWhile_imp hm)
        simp only [List.takeWhile_cons, hn, if_true, List.length_cons]
        omega
    · simp only [walkLevel, hlow, if_false]
      cases hn : advance n
      · simp
      · simp only [if_true, List.takeWhile_cons, hn, List.length_cons]
        omega

/-- From any start among the nodes not above the key, the walk of `insert` ends right after the
last of them. -/
theorem insertPosition_eq (key : InternalKey) (nodes : List Node)
    (h : PrefixClosed (Node.notAbove key) nodes) :
    ∀ level pos : Nat, pos ≤ (nodes.takeWhile (Node.notAbove key)).length →
      insertPosition key nodes level pos = (nodes.takeWhile (Node.notAbove key)).length
  | 0, pos, hpos => by
    have hw := walkLevel_zero (Node.notAbove key) (nodes.drop pos)
    rw [takeWhile_drop_length _ _ _ hpos] at hw
    simp only [insertPosition]
    rw [show (fun n => (key.compare n.key).isGE) = Node.notAbove key from rfl, hw]
    omega
  | level + 1, pos, hpos => by
    have hw := walkLevel_le (level + 1) (Node.notAbove key) (nodes.drop pos) (h.drop pos)
    rw [takeWhile_drop_length _ _ _ hpos] at hw
    simp only [insertPosition]
    rw [show (fun n => (key.compare n.key).isGE) = Node.notAbove key from rfl]
    exact insertPosition_eq key nodes h level _ (by omega)

theorem insertAt_nodes (t : SkipListMemtable) (key : InternalKey) (value : List UInt8) (draw : Nat)
    (h : PrefixClosed (Node.notAbove key) t.nodes) :
    (t.insertAt key value draw).nodes = t.nodes.takeWhile (Node.notAbove key) ++
      ⟨key, value, min draw (HEIGHT - 1)⟩ :: t.nodes.dropWhile (Node.notAbove key) := by
  simp only [insertAt]
  rw [insertPosition_eq key t.nodes h _ 0 (Nat.zero_le _), drop_takeWhile_length,
    take_takeWhile_length]

/-- Inserting a key that no node has keeps the keys strictly increasing. -/
theorem StrictlySorted.insertAt {t : SkipListMemtable} (h : StrictlySorted t.nodes)
    (key : InternalKey) (value : List UInt8) (draw : Nat)
    (hnew : ∀ n ∈ t.nodes, key.compare n.key ≠ .eq) :
    StrictlySorted (t.insertAt key value draw).nodes := by
  have hsplit : t.nodes = t.nodes.takeWhile (Node.notAbove key) ++
      t.nodes.dropWhile (Node.notAbove key) := List.takeWhile_append_dropWhile.symm
  have hpw : StrictlySorted (t.nodes.takeWhile (Node.notAbove key) ++
      t.nodes.dropWhile (Node.notAbove key)) := hsplit ▸ h
  -- the nodes before the new one are below it, the nodes after it above it
  have hbefore : ∀ a ∈ t.nodes.takeWhile (Node.notAbove key), a.key.compare key = .lt := by
    intro a ha
    have hge := List.mem_takeWhile_imp ha
    have hne := hnew a ((List.takeWhile_sublist _).subset ha)
    rw [Node.notAbove] at hge
    rw [InternalKey.compare_swap, Ordering.swap_eq_lt]
    exact (Ordering.isGE_iff_eq_gt_or_eq_eq.mp hge).resolve_right hne
  have hafter : ∀ b ∈ t.nodes.dropWhile (Node.notAbove key), key.compare b.key = .lt := by
    intro b hb
    have hge := (h.prefixClosed_notAbove key).dropWhile_false b hb
    rw [Node.notAbove] at hge
    exact Ordering.isGE_eq_false.mp hge
  rw [insertAt_nodes t key value draw (h.prefixClosed_notAbove key)]
  obtain ⟨hP, hD, hPD⟩ := List.pairwise_append.mp hpw
  refine List.pairwise_append.mpr ⟨hP, List.pairwise_cons.mpr ⟨hafter, hD⟩, ?_⟩
  intro a ha b hb
  rcases List.mem_cons.mp hb with rfl | hb
  · exact hbefore a ha
  · exact hPD a ha b hb

/-! ## The walk of `find_previous_node` -/

theorem scanLevel_pos (level : Nat) (key : InternalKey) :
    ∀ rest : List Node, 0 < (scanLevel level key rest).1 →
      ∃ m ∈ rest, m.notAbove key = true
  | [], h => by simp [scanLevel_nil] at h
  | n :: rest, h => by
    by_cases hlow : n.level < level
    · rw [scanLevel_cons_of_lt key rest hlow] at h
      split at h
      · simp at h
      · rename_i k e hk
        obtain ⟨m, hm, hma⟩ := scanLevel_pos level key rest (by rw [hk]; omega)
        exact ⟨m, List.mem_cons_of_mem n hm, hma⟩
    · refine ⟨n, List.mem_cons_self, ?_⟩
      rw [scanLevel_cons_of_not_lt key rest hlow] at h
      cases hc : key.compare n.key <;> simp_all [Node.notAbove]

/-- On strictly increasing keys the walk at any level passes only nodes below the key; when it
stops on an equal node, that node is the first node not below the key. -/
theorem scanLevel_spec (level : Nat) (key : InternalKey) :
    ∀ rest : List Node, StrictlySorted rest →
      ((scanLevel level key rest).2 = false →
        (scanLevel level key rest).1 ≤ (rest.takeWhile (Node.below key)).length) ∧
      ((scanLevel level key rest).2 = true →
        (scanLevel level key rest).1 = (rest.takeWhile (Node.below key)).length + 1)
  | [], _ => by simp [scanLevel_nil]
  | n :: rest, h => by
    have hcons := List.pairwise_cons.mp h
    have ih := scanLevel_spec level key rest hcons.2
    by_cases hlow : n.level < level
    · rw [scanLevel_cons_of_lt key rest hlow]
      split
      · simp
      · rename_i k e hk
        rw [hk] at ih
        obtain ⟨m, hm, hma⟩ := scanLevel_pos level key rest (by rw [hk]; omega)
        have hn : n.below key = true := Node.below_of_lt_of_notAbove (hcons.1 m hm) hma
        simp only [List.takeWhile_cons, hn, if_true, List.length_cons]
        constructor
        · intro he; have := ih.1 he; omega
        · intro he; have := ih.2 he; omega
    · rw [scanLevel_cons_of_not_lt key rest hlow]
      cases hc : key.compare n.key
      · simp
      · have hn : n.below key = false := by simp [Node.below, hc]
        simp [hn]
      · have hn : n.below key = true := by simp [Node.below, hc]
        simp only [List.takeWhile_cons, hn, if_true, List.length_cons]
        constructor
        · intro he; have := ih.1 he; omega
        · intro he; have := ih.2 he; omega

theorem scanLevel_zero (key : InternalKey) :
    ∀ rest : List Node, (scanLevel 0 key rest).2 = false →
      (scanLevel 0 key rest).1 = (rest.takeWhile (Node.below key)).length
  | [], _ => rfl
  | n :: rest, h => by
    rw [scanLevel_cons_of_not_lt key rest (Nat.not_lt_zero _)] at h ⊢
    cases hc : key.compare n.key
    · simp [Node.below, hc]
    · simp [hc] at h
    · have hn : n.below key = true := by simp [Node.below, hc]
      simp only [hc] at h
      simp only [List.takeWhile_cons, hn, if_true, List.length_cons]
      rw [scanLevel_zero key rest h]

/-- Where `seek` starts reading after `find_previous_node`. -/
def seekIndex (r : Nat × Bool) : Nat := if r.2 then r.1 - 1 else r.1

/-- From any start among the nodes below the key, `find_previous_node` ends on the first node
not below it. -/
theorem findPreviousNode_seekIndex (key : InternalKey) (nodes : List Node)
    (h : StrictlySorted nodes) :
    ∀ level pos : Nat, pos ≤ (nodes.takeWhile (Node.below key)).length →
      seekIndex (findPreviousNode key nodes level pos) = (nodes.takeWhile (Node.below key)).length
  | 0, pos, hpos => by
    have hs := scanLevel_spec 0 key (nodes.drop pos) (List.Pairwise.sublist (List.drop_sublist _ _) h)
    have hz := scanLevel_zero key (nodes.drop pos)
    rw [takeWhile_drop_length _ _ _ hpos] at hs hz
    have hfp : findPreviousNode key nodes 0 pos = (pos + (scanLevel 0 key (nodes.drop pos)).1,
        (scanLevel 0 key (nodes.drop pos)).2) := rfl
    rw [hfp, seekIndex]
    dsimp only
    split
    · rename_i he; rw [hs.2 he]; omega
    · rename_i he; rw [hz (by simpa using he)]; omega
  | level + 1, pos, hpos => by
    have hs := scanLevel_spec (level + 1) key (nodes.drop pos)
      (List.Pairwise.sublist (List.drop_sublist _ _) h)
    rw [takeWhile_drop_length _ _ _ hpos] at hs
    rw [findPreviousNode]
    split
    · -- the walk stopped on the equal node
      rename_i he
      show pos + (scanLevel (level + 1) key (nodes.drop pos)).1 - 1 = _
      rw [hs.2 he]; omega
    · rename_i he
      exact findPreviousNode_seekIndex key nodes h level _
        (by have := hs.1 (by simpa using he); omega)

/-- On strictly increasing keys `seek` yields the nodes from the first one not below the key,
whatever levels the nodes drew. -/
theorem seek_eq (t : SkipListMemtable) (key : InternalKey) (h : StrictlySorted t.nodes) :
    t.seek key = (t.nodes.dropWhile (Node.below key)).map Node.entry := by
  have hi := findPreviousNode_seekIndex key t.nodes h (HEIGHT - 1) 0 (Nat.zero_le _)
  have hseek : t.seek key =
      (t.nodes.drop (seekIndex (findPreviousNode key t.nodes (HEIGHT - 1) 0))).map Node.entry := by
    unfold seek seekIndex
    rcases findPreviousNode key t.nodes (HEIGHT - 1) 0 with ⟨p, e⟩
    rfl
  rw [hseek, hi, drop_takeWhile_length]

/-! ## The skip list as a sorted list -/

/-- What the skip list is for: it holds `entries` as a sorted list. The iterator yields each of
them once, in strictly increasing key order; `seek` yields those not below the key; `key_range`
is `None` only when there are none, and otherwise gives their least and their greatest key. -/
structure HoldsSorted (t : SkipListMemtable) (entries : List KeyValueEntry) : Prop where
  perm : t.iter.Perm entries
  sorted : t.iter.Pairwise fun a b => a.key.compare b.key = .lt
  seek : ∀ key, t.seek key = t.iter.filter fun e => (e.key.compare key).isGE
  keyRange_none : t.keyRange = none ↔ entries = []
  keyRange_some : ∀ smallest largest, t.keyRange = some (smallest, largest) →
    (∃ e ∈ entries, e.key = smallest) ∧ (∃ e ∈ entries, e.key = largest) ∧
      ∀ e ∈ entries, (smallest.compare e.key).isLE ∧ (e.key.compare largest).isLE

/-- The skip list after `insert(key, value)` calls in order, each with its random level. -/
def insertAll (inserts : List (InternalKey × List UInt8 × Nat)) : SkipListMemtable :=
  inserts.foldl (fun t i => t.insertAt i.1 i.2.1 i.2.2) new

theorem iter_sorted_iff (t : SkipListMemtable) :
    t.iter.Pairwise (fun a b => a.key.compare b.key = .lt) ↔ StrictlySorted t.nodes := by
  rw [iter, List.pairwise_map]
  rfl

/-- The insert adds the new entry to what the iterator yields. -/
theorem iter_insertAt_perm {t : SkipListMemtable} (h : StrictlySorted t.nodes) (key : InternalKey)
    (value : List UInt8) (draw : Nat) :
    (t.insertAt key value draw).iter.Perm (t.iter ++ [⟨key, value⟩]) := by
  have hperm : ∀ n : Node, (t.nodes.takeWhile (Node.notAbove key) ++
      n :: t.nodes.dropWhile (Node.notAbove key)).Perm (t.nodes ++ [n]) := fun n =>
    calc List.Perm _ (n :: (t.nodes.takeWhile (Node.notAbove key) ++
          t.nodes.dropWhile (Node.notAbove key))) := List.perm_middle
      _ = n :: t.nodes := by rw [List.takeWhile_append_dropWhile]
      List.Perm _ (t.nodes ++ [n]) := (List.perm_append_singleton n t.nodes).symm
  rw [iter, iter, insertAt_nodes t key value draw (h.prefixClosed_notAbove key)]
  convert (hperm ⟨key, value, min draw (HEIGHT - 1)⟩).map Node.entry using 1
  rw [List.map_append, List.map_singleton]
  rfl

theorem Node.not_below (key : InternalKey) (n : Node) :
    (!n.below key) = (n.key.compare key).isGE := by
  rw [Node.below, InternalKey.compare_swap]
  cases n.key.compare key <;> rfl

/-- On strictly increasing keys `seek` yields the entries not below the key. -/
theorem seek_eq_filter {t : SkipListMemtable} (h : StrictlySorted t.nodes) (key : InternalKey) :
    t.seek key = t.iter.filter fun e => (e.key.compare key).isGE := by
  rw [seek_eq t key h, (h.prefixClosed_below key).dropWhile_eq_filter, iter, List.filter_map]
  congr 1
  exact List.filter_congr fun n _ => Node.not_below key n

theorem keyRange_eq_none_iff (t : SkipListMemtable) : t.keyRange = none ↔ t.nodes = [] := by
  unfold keyRange
  cases t.nodes with
  | nil => simp
  | cons n ns =>
    rw [List.getLast?_eq_some_getLast (List.cons_ne_nil n ns)]
    simp

theorem keyRange_eq_some {t : SkipListMemtable} {smallest largest : InternalKey}
    (h : t.keyRange = some (smallest, largest)) :
    ∃ first last, t.nodes.head? = some first ∧ t.nodes.getLast? = some last ∧
      first.key = smallest ∧ last.key = largest := by
  unfold keyRange at h
  cases hf : t.nodes.head? with
  | none => simp [hf] at h
  | some first =>
    cases hl : t.nodes.getLast? with
    | none => simp [hf, hl] at h
    | some last =>
      simp only [hf, hl, Option.some.injEq, Prod.mk.injEq] at h
      exact ⟨first, last, rfl, rfl, h.1, h.2⟩

theorem StrictlySorted.head_isLE {nodes : List Node} (h : StrictlySorted nodes) {first : Node}
    (hf : nodes.head? = some first) : ∀ n ∈ nodes, (first.key.compare n.key).isLE := by
  obtain ⟨rest, rfl⟩ : ∃ rest, nodes = first :: rest := List.head?_eq_some_iff.mp hf
  intro n hn
  rcases List.mem_cons.mp hn with rfl | hn
  · simp
  · rw [(List.pairwise_cons.mp h).1 n hn]
    rfl

theorem StrictlySorted.getLast_isLE {nodes : List Node} (h : StrictlySorted nodes) {last : Node}
    (hl : nodes.getLast? = some last) : ∀ n ∈ nodes, (n.key.compare last.key).isLE := by
  obtain ⟨init, rfl⟩ := List.getLast?_eq_some_iff.mp hl
  intro n hn
  rcases List.mem_append.mp hn with hn | hn
  · rw [(List.pairwise_append.mp h).2.2 n hn last (List.mem_singleton_self last)]
    rfl
  · rw [List.mem_singleton.mp hn]
    simp

/-- A skip list with strictly increasing keys holds what its iterator yields as a sorted list. -/
theorem HoldsSorted.of_strictlySorted {t : SkipListMemtable} {entries : List KeyValueEntry}
    (h : StrictlySorted t.nodes) (hperm : t.iter.Perm entries) : HoldsSorted t entries where
  perm := hperm
  sorted := (iter_sorted_iff t).mpr h
  seek := seek_eq_filter h
  keyRange_none := by
    have hlen : t.nodes.length = entries.length := by
      rw [← hperm.length_eq, iter, List.length_map]
    rw [keyRange_eq_none_iff, ← List.length_eq_zero_iff, hlen, List.length_eq_zero_iff]
  keyRange_some := by
    intro smallest largest hr
    obtain ⟨first, last, hf, hl, rfl, rfl⟩ := keyRange_eq_some hr
    have hheld : ∀ n ∈ t.nodes, n.entry ∈ entries :=
      fun n hn => hperm.subset (List.mem_map_of_mem hn)
    refine ⟨⟨first.entry, hheld first (List.mem_of_head? hf), rfl⟩,
      ⟨last.entry, hheld last (List.mem_of_getLast? hl), rfl⟩, fun e he => ?_⟩
    obtain ⟨n, hn, rfl⟩ := List.mem_map.mp (hperm.symm.subset he)
    exact ⟨StrictlySorted.head_isLE h hf n hn, StrictlySorted.getLast_isLE h hl n hn⟩

theorem HoldsSorted.new : HoldsSorted new [] :=
  .of_strictlySorted List.Pairwise.nil (List.Perm.refl _)

/-- The step lemma: inserting a key that no held entry has adds its entry to the sorted list. -/
theorem HoldsSorted.insertAt {t : SkipListMemtable} {entries : List KeyValueEntry}
    (h : HoldsSorted t entries) (key : InternalKey) (value : List UInt8) (draw : Nat)
    (hnew : ∀ e ∈ entries, key.compare e.key ≠ .eq) :
    HoldsSorted (t.insertAt key value draw) (entries ++ [⟨key, value⟩]) := by
  have hs : StrictlySorted t.nodes := (iter_sorted_iff t).mp h.sorted
  have hnodes : ∀ n ∈ t.nodes, key.compare n.key ≠ .eq :=
    fun n hn => hnew n.entry (h.perm.subset (List.mem_map_of_mem hn))
  exact .of_strictlySorted (StrictlySorted.insertAt hs key value draw hnodes)
    ((iter_insertAt_perm hs key value draw).trans (h.perm.append_right _))

theorem HoldsSorted.of_nodes_eq {t t' : SkipListMemtable} {entries : List KeyValueEntry}
    (h : HoldsSorted t entries) (heq : t'.nodes = t.nodes) : HoldsSorted t' entries := by
  obtain ⟨nodes', rng'⟩ := t'
  obtain ⟨nodes, rng⟩ := t
  dsimp only at heq
  subst heq
  exact ⟨h.perm, h.sorted, h.seek, h.keyRange_none, h.keyRange_some⟩

/-- `insert` keeps the sorted view whatever level the generator draws. -/
theorem HoldsSorted.insert {t : SkipListMemtable} {entries : List KeyValueEntry}
    (h : HoldsSorted t entries) (key : InternalKey) (value : List UInt8)
    (hnew : ∀ e ∈ entries, key.compare e.key ≠ .eq) :
    HoldsSorted (t.insert key value) (entries ++ [⟨key, value⟩]) :=
  (h.insertAt key value _ hnew).of_nodes_eq rfl

/-- The run lemma: inserts, in order, of keys distinct from each other and from the held entries
add their entries to the sorted list. -/
theorem HoldsSorted.foldl_insertAt : ∀ (inserts : List (InternalKey × List UInt8 × Nat))
    {t : SkipListMemtable} {entries : List KeyValueEntry}, HoldsSorted t entries →
    (inserts.Pairwise fun a b => a.1.compare b.1 ≠ .eq) →
    (∀ i ∈ inserts, ∀ e ∈ entries, i.1.compare e.key ≠ .eq) →
    HoldsSorted (inserts.foldl (fun t i => t.insertAt i.1 i.2.1 i.2.2) t)
      (entries ++ inserts.map fun i => ⟨i.1, i.2.1⟩)
  | [], _, _, h, _, _ => by simpa using h
  | i :: is, t, entries, h, hpair, hfresh => by
    have hstep := h.insertAt i.1 i.2.1 i.2.2 (hfresh i List.mem_cons_self)
    have hfresh' : ∀ j ∈ is, ∀ e ∈ entries ++ [⟨i.1, i.2.1⟩], j.1.compare e.key ≠ .eq := by
      intro j hj e he
      rcases List.mem_append.mp he with he | he
      · exact hfresh j (List.mem_cons_of_mem _ hj) e he
      · rw [List.mem_singleton.mp he, InternalKey.compare_swap, Ne, Ordering.swap_eq_eq]
        exact (List.pairwise_cons.mp hpair).1 j hj
    have ih := HoldsSorted.foldl_insertAt is hstep (List.pairwise_cons.mp hpair).2 hfresh'
    simpa only [List.foldl_cons, List.map_cons, List.append_assoc, List.singleton_append] using ih

/-- For any inserts of pairwise distinct keys, whatever levels they draw, the skip list holds
their entries as a sorted list. -/
theorem insertAll_holdsSorted (inserts : List (InternalKey × List UInt8 × Nat))
    (hdistinct : inserts.Pairwise fun a b => a.1.compare b.1 ≠ .eq) :
    HoldsSorted (insertAll inserts) (inserts.map fun i => ⟨i.1, i.2.1⟩) :=
  HoldsSorted.foldl_insertAt inserts HoldsSorted.new hdistinct (by simp)

/-- Three inserts out of key order, one a deletion, with levels `3`, `0` and `7`. -/
def threeInserts : List (InternalKey × List UInt8 × Nat) :=
  [(⟨[2], 1, .Value⟩, [20], 3), (⟨[1], 2, .Value⟩, [10], 0), (⟨[3], 3, .Deletion⟩, [], 7)]

theorem insertAll_holdsSorted_three :
    (threeInserts.Pairwise fun a b => a.1.compare b.1 ≠ .eq) ∧
      HoldsSorted (insertAll threeInserts) (threeInserts.map fun i => ⟨i.1, i.2.1⟩) :=
  ⟨by decide, insertAll_holdsSorted threeInserts (by decide)⟩

end SkipListMemtable

end Dacha.SSTable
