import Mathlib

/-!
# `upper_bound_by`, `lower_bound_by` (`common/src/algorithms/mod.rs:92-146`) and `merge_by`
(`merge.rs:8-64`)

The search keeps a view `values` of the slice, the `offset` of that view in the whole slice
and the `best` index found so far. When `less_eq` holds at the middle element, everything up to
it is skipped and the middle becomes `best`; otherwise the view is cut to the left half. The
Rust `loop` becomes structural recursion on a fuel argument that starts at the slice's length;
each round removes at least the middle element, so the fuel never runs out.

`LogMetadata` searches a `VecDeque` through its pair of slices (`SliceLike for (&[T], &[T])`,
`mod.rs:45-83`), which is indexed as the two slices concatenated; the model searches that
concatenation as one list.

`lower_bound_by` is the mirror image: when `greater_eq` holds at the middle element it becomes
`best` and the view is cut to the left half; otherwise everything up to it is skipped.

* `upperBoundBy_eq` — when `less_eq` holds on a prefix of the slice and nowhere after it (the
  slice is sorted for the comparison), the result is the last index of that prefix, or `None`
  when the prefix is empty.

`merge_by` takes the head of either list that the comparison puts first, and on `Equal` keeps
only the first list's head: a comparison that never answers `Equal` loses nothing
(`perm_mergeBy`).
-/

namespace Dacha.Common

variable {α β : Type}

/-- One pass of the `loop` in `upper_bound_by`. -/
def upperBoundBy.loop (target : β) (lessEq : α → β → Bool) :
    Nat → List α → Nat → Option Nat → Option Nat
  | 0, _, _, best => best
  | fuel + 1, values, offset, best =>
    if h : values.length = 0 then best
    else if lessEq (values.get ⟨values.length / 2, by omega⟩) target then
      -- `mid_idx` is known to be `<= target`: skip it and everything before it.
      loop target lessEq fuel (values.drop (values.length / 2 + 1))
        (offset + values.length / 2 + 1) (some (values.length / 2 + offset))
    else
      loop target lessEq fuel (values.take (values.length / 2)) offset best

/-- Index of the last element `x` with `less_eq(x, target)`, for a slice sorted for `less_eq`. -/
def upperBoundBy (values : List α) (target : β) (lessEq : α → β → Bool) : Option Nat :=
  upperBoundBy.loop target lessEq values.length values 0 none

/-- What the loop returns is `best` or an index inside the current view. -/
theorem upperBoundBy.loop_some (target : β) (lessEq : α → β → Bool) :
    ∀ (fuel : Nat) (values : List α) (offset : Nat) (best : Option Nat) (i : Nat),
      loop target lessEq fuel values offset best = some i →
        best = some i ∨ (offset ≤ i ∧ i < offset + values.length)
  | 0, _, _, _, _, h => .inl h
  | fuel + 1, values, offset, best, i, h => by
    simp only [loop] at h
    split_ifs at h with h0 hv
    · exact .inl h
    · -- the view moved right past the middle element, which became `best`
      rcases loop_some target lessEq fuel _ _ _ i h with hb | ⟨hlo, hhi⟩
      · simp only [Option.some.injEq] at hb
        right; omega
      · right; simp only [List.length_drop] at hhi; omega
    · rcases loop_some target lessEq fuel _ _ _ i h with hb | ⟨hlo, hhi⟩
      · exact .inl hb
      · right; simp only [List.length_take] at hhi; omega

/-- The index `upper_bound_by` returns is inside the slice, so indexing with it never panics. -/
theorem upperBoundBy_lt {values : List α} {target : β} {lessEq : α → β → Bool} {i : Nat}
    (h : upperBoundBy values target lessEq = some i) : i < values.length := by
  rcases upperBoundBy.loop_some target lessEq _ _ _ _ i h with hb | ⟨-, hi⟩
  · cases hb
  · omega

theorem upperBoundBy_get_eq_bind (values : List α) (target : β) (lessEq : α → β → Bool) :
    (match h : upperBoundBy values target lessEq with
      | none => none
      | some i => some (values.get ⟨i, upperBoundBy_lt h⟩)) =
      (upperBoundBy values target lessEq).bind (values[·]?) := by
  split
  · rename_i h
    rw [h]
    rfl
  · rename_i i h
    conv_rhs => rw [h]
    rw [Option.bind_some, List.getElem?_eq_getElem (upperBoundBy_lt h)]
    rfl

/-- `p` holds on a prefix of the list and nowhere after it. -/
def PrefixClosed (p : α → Bool) (xs : List α) : Prop :=
  xs.Pairwise fun a b => p b = true → p a = true

instance (p : α → Bool) (xs : List α) : Decidable (PrefixClosed p xs) :=
  inferInstanceAs (Decidable (xs.Pairwise _))

section
variable {p : α → Bool}

theorem PrefixClosed.take {xs : List α} (h : PrefixClosed p xs) (n : Nat) :
    PrefixClosed p (xs.take n) :=
  List.Pairwise.sublist (List.take_sublist n xs) h

theorem PrefixClosed.drop {xs : List α} (h : PrefixClosed p xs) (n : Nat) :
    PrefixClosed p (xs.drop n) :=
  List.Pairwise.sublist (List.drop_sublist n xs) h

theorem split_at_get (xs : List α) (n : Nat) (hn : n < xs.length) :
    xs = xs.take n ++ xs.get ⟨n, hn⟩ :: xs.drop (n + 1) := by
  conv => lhs; rw [← List.take_append_drop n xs]
  rw [List.drop_eq_getElem_cons hn]
  rfl

theorem PrefixClosed.countP_of_true {xs : List α} (h : PrefixClosed p xs) (n : Nat)
    (hn : n < xs.length) (hv : p (xs.get ⟨n, hn⟩) = true) :
    xs.countP p = n + 1 + (xs.drop (n + 1)).countP p := by
  have hsplit := split_at_get xs n hn
  have hpw : PrefixClosed p (xs.take n ++ xs.get ⟨n, hn⟩ :: xs.drop (n + 1)) := hsplit ▸ h
  have hall : ∀ a ∈ xs.take n, p a = true := by
    intro a ha
    exact (List.pairwise_append.mp hpw).2.2 a ha _ List.mem_cons_self hv
  have hlen : (xs.take n).length = n := by simp; omega
  rw [hsplit, List.countP_append, List.countP_cons_of_pos hv, List.countP_eq_length.mpr hall,
    hlen, ← hsplit]
  omega

theorem PrefixClosed.countP_of_false {xs : List α} (h : PrefixClosed p xs) (n : Nat)
    (hn : n < xs.length) (hv : ¬ p (xs.get ⟨n, hn⟩) = true) :
    xs.countP p = (xs.take n).countP p := by
  have hsplit := split_at_get xs n hn
  have hpw : PrefixClosed p (xs.take n ++ xs.get ⟨n, hn⟩ :: xs.drop (n + 1)) := hsplit ▸ h
  have hnone : ∀ b ∈ xs.drop (n + 1), ¬ p b = true := by
    intro b hb hpb
    have hcons := (List.pairwise_append.mp hpw).2.1
    exact hv ((List.pairwise_cons.mp hcons).1 b hb hpb)
  rw [hsplit, List.countP_append, List.countP_cons_of_neg hv, List.countP_eq_zero.mpr hnone]
  simp

theorem PrefixClosed.dropWhile_false : ∀ {xs : List α}, PrefixClosed p xs →
    ∀ b ∈ xs.dropWhile p, p b = false
  | [], _, b, hb => by simp at hb
  | x :: xs, h, b, hb => by
    have hcons := List.pairwise_cons.mp h
    by_cases hx : p x
    · simp only [List.dropWhile_cons, hx, if_true] at hb
      exact PrefixClosed.dropWhile_false hcons.2 b hb
    · simp only [List.dropWhile_cons, hx, Bool.false_eq_true, if_false, List.mem_cons] at hb
      rcases hb with rfl | hb
      · simpa using hx
      · -- `p b` would make `p x` hold, `x` being earlier
        by_contra hpb
        exact hx (hcons.1 b hb (by simpa using hpb))

theorem PrefixClosed.dropWhile_eq_filter : ∀ {xs : List α}, PrefixClosed p xs →
    xs.dropWhile p = xs.filter fun x => !p x
  | [], _ => rfl
  | x :: xs, h => by
    have hcons := List.pairwise_cons.mp h
    by_cases hx : p x
    · simp only [List.dropWhile_cons, hx, if_true, List.filter_cons, Bool.not_true,
        Bool.false_eq_true, if_false]
      exact PrefixClosed.dropWhile_eq_filter hcons.2
    · -- nothing after `x` passes `p` either, so the filter keeps all of `x :: xs`
      have hnone : ∀ b ∈ xs, (!p b) = true := by
        intro b hb
        by_contra hpb
        exact hx (hcons.1 b hb (by simpa using hpb))
      simp only [List.dropWhile_cons, hx, Bool.false_eq_true, if_false, List.filter_cons,
        Bool.not_false, if_true, List.filter_eq_self.mpr hnone]

theorem mem_dropWhile_of_mem {xs : List α} {a : α} (ha : a ∈ xs) (hp : p a = false) :
    a ∈ xs.dropWhile p := by
  have hsplit : xs.takeWhile p ++ xs.dropWhile p = xs := List.takeWhile_append_dropWhile
  rw [← hsplit] at ha
  rcases List.mem_append.mp ha with ha | ha
  · rw [List.mem_takeWhile_imp ha] at hp
    cases hp
  · exact ha

theorem PrefixClosed.countP_eq_length_takeWhile : ∀ {xs : List α}, PrefixClosed p xs →
    xs.countP p = (xs.takeWhile p).length
  | [], _ => rfl
  | x :: xs, h => by
    have hcons := List.pairwise_cons.mp h
    by_cases hx : p x
    · rw [List.countP_cons_of_pos hx, List.takeWhile_cons_of_pos hx, List.length_cons,
        PrefixClosed.countP_eq_length_takeWhile hcons.2]
    · -- `x` fails `p`, and so does everything after it
      have hnone : xs.countP p = 0 :=
        List.countP_eq_zero.mpr fun b hb hpb => hx (hcons.1 b hb hpb)
      rw [List.countP_cons_of_neg hx, List.takeWhile_cons_of_neg hx, hnone, List.length_nil]

theorem PrefixClosed.countP_take {xs : List α} (h : PrefixClosed p xs) (n : Nat) :
    (xs.take n).countP p = min n (xs.countP p) := by
  have hsplit : xs.takeWhile p ++ xs.dropWhile p = xs := List.takeWhile_append_dropWhile
  have hfalse := h.dropWhile_false
  rw [h.countP_eq_length_takeWhile]
  conv_lhs => rw [← hsplit]
  rw [List.take_append, List.countP_append,
    List.countP_eq_length.mpr fun a ha => List.mem_takeWhile_imp (List.mem_of_mem_take ha),
    List.countP_eq_zero.mpr fun a ha => by simp [hfalse a (List.mem_of_mem_take ha)]]
  simp

theorem PrefixClosed.countP_drop {xs : List α} (h : PrefixClosed p xs) (n : Nat) :
    (xs.drop n).countP p = xs.countP p - n := by
  have happ : xs.countP p = (xs.take n).countP p + (xs.drop n).countP p := by
    rw [← List.countP_append, List.take_append_drop]
  rw [h.countP_take] at happ
  omega

end

theorem takeWhile_drop_length (p : α → Bool) : ∀ (xs : List α) (n : Nat),
    n ≤ (xs.takeWhile p).length → ((xs.drop n).takeWhile p).length = (xs.takeWhile p).length - n
  | xs, 0, _ => by simp
  | [], _ + 1, _ => by simp
  | x :: xs, n + 1, h => by
    by_cases hx : p x
    · simp only [List.takeWhile_cons, hx, if_true, List.length_cons, List.drop_succ_cons] at h ⊢
      rw [takeWhile_drop_length p xs n (by omega)]
      omega
    · simp [hx] at h

theorem take_takeWhile_length (p : α → Bool) :
    ∀ xs : List α, xs.take (xs.takeWhile p).length = xs.takeWhile p
  | [] => rfl
  | x :: xs => by
    by_cases hx : p x <;> simp [hx, take_takeWhile_length p xs]

theorem drop_takeWhile_length (p : α → Bool) :
    ∀ xs : List α, xs.drop (xs.takeWhile p).length = xs.dropWhile p
  | [] => rfl
  | x :: xs => by
    by_cases hx : p x <;> simp [hx, drop_takeWhile_length p xs]

theorem insertIdx_eq_take_drop (x : α) : ∀ (xs : List α) (n : Nat), n ≤ xs.length →
    xs.insertIdx n x = xs.take n ++ x :: xs.drop n
  | xs, 0, _ => by simp [List.insertIdx_zero]
  | [], _ + 1, h => by simp at h
  | y :: ys, n + 1, h => by
    rw [List.insertIdx_succ_cons, insertIdx_eq_take_drop x ys n (by simpa using h)]
    rfl

/-- The loop invariant: with fuel at least the view's length, the loop returns the last index of
the prefix where `less_eq` holds, shifted by `offset`, or `best` when that prefix is empty. -/
theorem upperBoundBy.loop_eq (target : β) (lessEq : α → β → Bool) :
    ∀ (fuel : Nat) (values : List α) (offset : Nat) (best : Option Nat),
      values.length ≤ fuel → PrefixClosed (fun a => lessEq a target) values →
      loop target lessEq fuel values offset best =
        if values.countP (fun a => lessEq a target) = 0 then best
        else some (offset + values.countP (fun a => lessEq a target) - 1)
  | 0, values, offset, best, hf, _ => by
    have : values = [] := List.eq_nil_of_length_eq_zero (by omega)
    subst this; simp [loop]
  | fuel + 1, values, offset, best, hf, hp => by
    by_cases h0 : values.length = 0
    · have : values = [] := List.eq_nil_of_length_eq_zero h0
      subst this; simp [loop]
    · have hmid : values.length / 2 < values.length := by omega
      by_cases hv : lessEq (values.get ⟨values.length / 2, hmid⟩) target = true
      · -- the middle element and everything before it satisfy `less_eq`
        have hc := hp.countP_of_true _ hmid hv
        have ih := loop_eq target lessEq fuel (values.drop (values.length / 2 + 1))
          (offset + values.length / 2 + 1) (some (values.length / 2 + offset))
          (by simp; omega) (hp.drop _)
        simp only [loop, h0, ↓reduceDIte, hv, ↓reduceIte, ih, hc]
        split <;> simp <;> omega
      · -- nothing from the middle element on satisfies `less_eq`
        have hc := hp.countP_of_false _ hmid hv
        have ih := loop_eq target lessEq fuel (values.take (values.length / 2)) offset best
          (by simp; omega) (hp.take _)
        simp only [loop, h0, ↓reduceDIte, hv, Bool.false_eq_true, ↓reduceIte, ih, hc]

/-- `upper_bound_by` on a slice sorted for `less_eq`: the index of the last element satisfying
it, or `None` when the first element already fails it. -/
theorem upperBoundBy_eq (values : List α) (target : β) (lessEq : α → β → Bool)
    (h : PrefixClosed (fun a => lessEq a target) values) :
    upperBoundBy values target lessEq =
      if values.countP (fun a => lessEq a target) = 0 then none
      else some (values.countP (fun a => lessEq a target) - 1) := by
  rw [upperBoundBy, upperBoundBy.loop_eq target lessEq _ _ 0 none le_rfl h]
  simp

theorem PrefixClosed.takeWhile_eq_filter {p : α → Bool} {xs : List α} (h : PrefixClosed p xs) :
    xs.takeWhile p = xs.filter p := by
  conv_rhs => rw [← @List.takeWhile_append_dropWhile _ p xs]
  rw [List.filter_append, List.filter_eq_self.mpr fun a ha => List.mem_takeWhile_imp ha,
    List.filter_eq_nil_iff.mpr fun a ha => by simp [h.dropWhile_false a ha], List.append_nil]

/-- Where `upper_bound_by` finds an index on a slice sorted for `less_eq`, the slice splits after
it into what satisfies `less_eq` and what does not. -/
theorem upperBoundBy_split {values : List α} {target : β} {lessEq : α → β → Bool}
    (h : PrefixClosed (fun a => lessEq a target) values) {i : Nat}
    (hi : upperBoundBy values target lessEq = some i) :
    values.take (i + 1) = values.filter (fun a => lessEq a target) ∧
      values.drop (i + 1) = values.filter (fun a => !lessEq a target) := by
  rw [upperBoundBy_eq values target lessEq h] at hi
  split_ifs at hi with hc
  cases hi
  have hcount : values.countP (fun a => lessEq a target) - 1 + 1 =
      (values.takeWhile fun a => lessEq a target).length := by
    rw [← h.countP_eq_length_takeWhile]
    omega
  rw [hcount, take_takeWhile_length, drop_takeWhile_length, h.takeWhile_eq_filter,
    h.dropWhile_eq_filter]
  exact ⟨rfl, rfl⟩

/-- `upper_bound_by` on a slice sorted for `less_eq`, read at the index it returns: the last
element satisfying `less_eq`. -/
theorem upperBoundBy_getElem? (values : List α) (target : β) (lessEq : α → β → Bool)
    (h : PrefixClosed (fun a => lessEq a target) values) :
    (upperBoundBy values target lessEq).bind (values[·]?) =
      (values.filter fun a => lessEq a target).getLast? := by
  cases hi : upperBoundBy values target lessEq with
  | none =>
    rw [upperBoundBy_eq values target lessEq h] at hi
    split_ifs at hi with hc
    rw [List.filter_eq_nil_iff.mpr (List.countP_eq_zero.mp hc)]
    rfl
  | some i =>
    have hlt := upperBoundBy_lt hi
    rw [← (upperBoundBy_split h hi).1, List.getLast?_eq_getElem?, List.length_take,
      List.getElem?_take]
    simp only [Option.bind_some]
    rw [if_pos (by omega)]
    congr 1
    omega

/-- One pass of the `loop` in `lower_bound_by`. -/
def lowerBoundBy.loop (target : β) (greaterEq : α → β → Bool) :
    Nat → List α → Nat → Option Nat → Option Nat
  | 0, _, _, best => best
  | fuel + 1, values, offset, best =>
    if h : values.length = 0 then best
    else if greaterEq (values.get ⟨values.length / 2, by omega⟩) target then
      loop target greaterEq fuel (values.take (values.length / 2)) offset
        (some (values.length / 2 + offset))
    else
      loop target greaterEq fuel (values.drop (values.length / 2 + 1))
        (offset + values.length / 2 + 1) best

/-- Index of the first element `x` with `greater_eq(x, target)`, for a slice sorted for it. -/
def lowerBoundBy (values : List α) (target : β) (greaterEq : α → β → Bool) : Option Nat :=
  lowerBoundBy.loop target greaterEq values.length values 0 none

/-- The loop invariant: with fuel at least the view's length, the loop returns the index of the
first element satisfying `greater_eq`, shifted by `offset`, or `best` when none does. -/
theorem lowerBoundBy.loop_eq (target : β) (greaterEq : α → β → Bool) :
    ∀ (fuel : Nat) (values : List α) (offset : Nat) (best : Option Nat),
      values.length ≤ fuel → PrefixClosed (fun a => !greaterEq a target) values →
      loop target greaterEq fuel values offset best =
        if values.countP (fun a => !greaterEq a target) = values.length then best
        else some (offset + values.countP (fun a => !greaterEq a target))
  | 0, values, offset, best, hf, _ => by
    have : values = [] := List.eq_nil_of_length_eq_zero (by omega)
    subst this; simp [loop]
  | fuel + 1, values, offset, best, hf, hp => by
    by_cases h0 : values.length = 0
    · have : values = [] := List.eq_nil_of_length_eq_zero h0
      subst this; simp [loop]
    · have hmid : values.length / 2 < values.length := by omega
      by_cases hv : greaterEq (values.get ⟨values.length / 2, hmid⟩) target = true
      · -- nothing from the middle element on is below the target
        have hc := hp.countP_of_false _ hmid (by simpa using hv)
        have hne : values.countP (fun a => !greaterEq a target) ≠ values.length := by
          rw [Ne, List.countP_eq_length]
          intro hall
          have hx := hall _ (List.get_mem values ⟨values.length / 2, hmid⟩)
          rw [hv] at hx
          exact absurd hx (by decide)
        have ih := loop_eq target greaterEq fuel (values.take (values.length / 2)) offset
          (some (values.length / 2 + offset)) (by simp; omega) (hp.take _)
        have htake : (values.take (values.length / 2)).length = values.length / 2 := by
          simp only [List.length_take]
          omega
        rw [if_neg hne, hc]
        simp only [loop, h0, ↓reduceDIte, hv, ↓reduceIte, ih]
        split
        · rename_i hall
          rw [hall, htake, Nat.add_comm]
        · rfl
      · -- the middle element and everything before it are below the target
        have hc := hp.countP_of_true _ hmid (by simpa using hv)
        have ih := loop_eq target greaterEq fuel (values.drop (values.length / 2 + 1))
          (offset + values.length / 2 + 1) best (by simp; omega) (hp.drop _)
        have hlen : (values.drop (values.length / 2 + 1)).length =
            values.length - (values.length / 2 + 1) := List.length_drop
        simp only [loop, h0, ↓reduceDIte, hv, Bool.false_eq_true, ↓reduceIte, ih, hc, hlen]
        by_cases hall : (values.drop (values.length / 2 + 1)).countP
            (fun a => !greaterEq a target) = values.length - (values.length / 2 + 1)
        · rw [if_pos hall, if_pos (by omega)]
        · rw [if_neg hall, if_neg (by omega)]
          congr 1
          omega

/-- `lower_bound_by` on a slice sorted for `greater_eq`: the index of the first element
satisfying it, or `None` when none does. -/
theorem lowerBoundBy_eq (values : List α) (target : β) (greaterEq : α → β → Bool)
    (h : PrefixClosed (fun a => !greaterEq a target) values) :
    lowerBoundBy values target greaterEq =
      if values.countP (fun a => !greaterEq a target) = values.length then none
      else some (values.countP (fun a => !greaterEq a target)) := by
  rw [lowerBoundBy, lowerBoundBy.loop_eq target greaterEq _ _ 0 none le_rfl h]
  simp

/-- With the slice's length for `None`, `lower_bound_by` counts the elements below the target. -/
theorem lowerBoundBy_getD (values : List α) (target : β) (greaterEq : α → β → Bool)
    (h : PrefixClosed (fun a => !greaterEq a target) values) :
    (lowerBoundBy values target greaterEq).getD values.length =
      values.countP (fun a => !greaterEq a target) := by
  rw [lowerBoundBy_eq values target greaterEq h]
  split
  · rename_i hall
    rw [Option.getD_none, hall]
  · rfl

/-- A search of the window `[lower, upper)` of a slice sorted for `greater_eq`, with `upper - lower`
for `None`: when the first element satisfying it lies in `[lower, upper]` (at `upper` when it is
past the window), the search, shifted back by `lower`, finds it. -/
theorem lowerBoundBy_window {values : List α} {target : β} {greaterEq : α → β → Bool}
    (h : PrefixClosed (fun a => !greaterEq a target) values) {lower upper : Nat}
    (hlo : lower ≤ values.countP (fun a => !greaterEq a target))
    (hup : values.countP (fun a => !greaterEq a target) ≤ upper) (hlen : upper ≤ values.length) :
    (lowerBoundBy ((values.take upper).drop lower) target greaterEq).getD (upper - lower) + lower =
      values.countP (fun a => !greaterEq a target) := by
  have hw : PrefixClosed (fun a => !greaterEq a target) ((values.take upper).drop lower) :=
    (h.take upper).drop lower
  have hwlen : ((values.take upper).drop lower).length = upper - lower := by
    simp only [List.length_drop, List.length_take]
    omega
  rw [← hwlen, lowerBoundBy_getD _ target greaterEq hw, (h.take upper).countP_drop,
    h.countP_take]
  omega

/-! ## Lists sorted by a key -/

section Key

variable {f : α → Nat}

theorem eq_of_key_eq : ∀ {l : List α}, (l.Pairwise fun a b => f a < f b) →
    ∀ {a b : α}, a ∈ l → b ∈ l → f a = f b → a = b
  | [], _, _, _, ha, _, _ => by cases ha
  | x :: xs, hs, a, b, ha, hb, hab => by
    obtain ⟨hx, hxs⟩ := List.pairwise_cons.mp hs
    rcases List.mem_cons.mp ha with rfl | ha' <;> rcases List.mem_cons.mp hb with rfl | hb'
    · rfl
    · exact absurd hab (Nat.ne_of_lt (hx b hb'))
    · exact absurd hab.symm (Nat.ne_of_lt (hx a ha'))
    · exact eq_of_key_eq hxs ha' hb' hab

theorem prefixClosed_key_le {l : List α} (hs : l.Pairwise fun a b => f a < f b) (t : Nat) :
    PrefixClosed (fun a => decide (f a ≤ t)) l :=
  hs.imp fun hab hb => decide_eq_true (Nat.le_trans (Nat.le_of_lt hab) (of_decide_eq_true hb))

/-- In a list strictly sorted by a key, the last element with its key at most `t` is the element
whose key is the largest at most `t`. -/
theorem getLast?_filter_key_le_iff {l : List α} (hs : l.Pairwise fun a b => f a < f b) (t : Nat)
    (r : α) : (l.filter fun a => decide (f a ≤ t)).getLast? = some r ↔
      r ∈ l ∧ f r ≤ t ∧ ∀ a ∈ l, f a ≤ t → f a ≤ f r := by
  have hmax : ∀ r', (l.filter fun a => decide (f a ≤ t)).getLast? = some r' →
      r' ∈ l ∧ f r' ≤ t ∧ ∀ a ∈ l, f a ≤ t → f a ≤ f r' := by
    intro r' hr'
    have hmem := List.mem_of_getLast? hr'
    rw [List.mem_filter, decide_eq_true_iff] at hmem
    refine ⟨hmem.1, hmem.2, fun a ha hat => ?_⟩
    obtain ⟨hne, rfl⟩ := List.mem_getLast?_eq_getLast hr'
    have haf : a ∈ l.filter fun a => decide (f a ≤ t) :=
      List.mem_filter.mpr ⟨ha, decide_eq_true hat⟩
    rw [← List.dropLast_append_getLast hne, List.mem_append, List.mem_singleton] at haf
    rcases haf with haf | rfl
    · exact Nat.le_of_lt (List.Pairwise.rel_dropLast_getLast (hs.filter _) haf)
    · exact le_rfl
  constructor
  · exact hmax r
  · rintro ⟨hr, hrt, hle⟩
    cases h : (l.filter fun a => decide (f a ≤ t)).getLast? with
    | none =>
      rw [List.getLast?_eq_none_iff, List.filter_eq_nil_iff] at h
      exact absurd (decide_eq_true hrt) (h r hr)
    | some r' =>
      obtain ⟨hr', hr't, hle'⟩ := hmax r' h
      exact congrArg some
        (eq_of_key_eq hs hr' hr (Nat.le_antisymm (hle r' hr' hr't) (hle' r hr hrt)))

end Key

/-! ## `merge_by` -/

/-- `merge_by`: of the two heads, the one `f` puts first is taken, the first list's on `Less`.
On `Equal` the first list's head is taken and the second's dropped. When one list is done, the
rest of the other follows. -/
def mergeBy (f : α → α → Ordering) : List α → List α → List α
  | [], bs => bs
  | a :: as, [] => a :: as
  | a :: as, b :: bs =>
    match f a b with
    | .lt => a :: mergeBy f as (b :: bs)
    | .eq => a :: mergeBy f as bs
    | .gt => b :: mergeBy f (a :: as) bs

@[simp] theorem mergeBy_nil_left (f : α → α → Ordering) (bs : List α) : mergeBy f [] bs = bs := by
  rw [mergeBy]

@[simp] theorem mergeBy_nil_right (f : α → α → Ordering) (as : List α) : mergeBy f as [] = as := by
  cases as <;> rw [mergeBy]

theorem mergeBy_cons_cons (f : α → α → Ordering) (a b : α) (as bs : List α) :
    mergeBy f (a :: as) (b :: bs) =
      match f a b with
      | .lt => a :: mergeBy f as (b :: bs)
      | .eq => a :: mergeBy f as bs
      | .gt => b :: mergeBy f (a :: as) bs := by
  rw [mergeBy]

/-- A comparison that never answers `Equal` keeps every element of both lists. -/
theorem perm_mergeBy {f : α → α → Ordering} (hf : ∀ a b, f a b ≠ .eq) :
    ∀ as bs : List α, (mergeBy f as bs).Perm (as ++ bs)
  | [], bs => by simp
  | a :: as, [] => by simp
  | a :: as, b :: bs => by
    rw [mergeBy_cons_cons]
    cases h : f a b with
    | lt => exact (perm_mergeBy hf as (b :: bs)).cons a
    | eq => exact absurd h (hf a b)
    | gt =>
      exact ((perm_mergeBy hf (a :: as) bs).cons b).trans List.perm_middle.symm

end Dacha.Common
