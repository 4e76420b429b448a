import Mathlib
import Dacha.Common.Algorithms

/-!
# `SliceLike` (`common/src/algorithms/mod.rs:10-83`) and the searches over it (`:92-146`)

| here | there |
| --- | --- |
| `SliceLike` | the trait (`:10-20`) |
| `instList` | `impl SliceLike for &[T]` (`:22-43`) |
| `pairIndex`, `pairSlice`, `instPair` | `impl SliceLike for (&[T], &[T])` (`:45-83`) |
| `SliceLike.upperBoundBy`, `SliceLike.lowerBoundBy` | `upper_bound_by`, `lower_bound_by` (`:92-146`), generic in `S: SliceLike` |

A slice is a list; the pair of slices of a `VecDeque` is a pair of lists, indexed as their
concatenation. `slice(start, end)` is `self[start..end]`, which Rust allows only for
`start <= end <= len`; the searches ask only for `slice(0, mid)` and `slice_from(mid + 1)` with
`mid < len`, where the model's `take` and `drop`, which clamp, agree with it.

`View toList` says that `toList` reads a `SliceLike` as the list of its elements: its length, its
index and its slices are the list's. Under a view the generic searches are the list searches of
`Algorithms.lean` (`View.upperBoundBy_eq`, `View.lowerBoundBy_eq`). A slice is its own view, and a
pair of slices is viewed as `a ++ b` (`pairView`): the `min`/`max` arithmetic of its `slice` cuts
the concatenation where `take` and `drop` would, for every split point.
-/

namespace Dacha.Common

/-- `SliceLike`: what the searches read of a slice. An index is in range by its type. -/
class SliceLike (S : Type) (α : outParam Type) where
  len : S → Nat
  index : (s : S) → Fin (len s) → α
  slice : S → Nat → Nat → S
  sliceFrom : S → Nat → S

namespace SliceLike

variable {S α β : Type}

/-- `impl SliceLike for &[T]`: `self[start..stop]` and `self[start..]`. -/
instance instList : SliceLike (List α) α where
  len s := s.length
  index s i := s.get i
  slice s start stop := (s.take stop).drop start
  sliceFrom s start := s.drop start

/-- `index` of a pair of slices: the first slice, then the second. -/
def pairIndex (s : List α × List α) (i : Fin (s.1.length + s.2.length)) : α :=
  if h : i.val < s.1.length then s.1.get ⟨i, h⟩ else s.2.get ⟨i - s.1.length, by omega⟩

/-- `slice` of a pair of slices: each slice is cut to the part of `start..stop` that falls in it,
by `min` against the split point for the first and `max` for the second. -/
def pairSlice (s : List α × List α) (start stop : Nat) : List α × List α :=
  let mid := s.1.length
  let first := (s.1.take (min stop mid)).drop (min start mid)
  let second := (s.2.take (max stop mid - mid)).drop (max start mid - mid)
  (first, second)

/-- `impl SliceLike for (&[T], &[T])`; `slice_from` is `slice(start, self.len())`. -/
instance instPair : SliceLike (List α × List α) α where
  len s := s.1.length + s.2.length
  index := pairIndex
  slice := pairSlice
  sliceFrom s start := pairSlice s start (s.1.length + s.2.length)

variable [SliceLike S α]

/-- One pass of the `loop` in `upper_bound_by`. -/
def upperBoundBy.loop (target : β) (lessEq : α → β → Bool) :
    Nat → S → Nat → Option Nat → Option Nat
  | 0, _, _, best => best
  | fuel + 1, values, offset, best =>
    if h : len values = 0 then best
    else if lessEq (index values ⟨len values / 2, by omega⟩) target then
      loop target lessEq fuel (sliceFrom values (len values / 2 + 1))
        (offset + len values / 2 + 1) (some (len values / 2 + offset))
    else loop target lessEq fuel (slice values 0 (len values / 2)) offset best

/-- `upper_bound_by`: the index of the last element `x` with `less_eq(x, target)`. -/
def upperBoundBy (values : S) (target : β) (lessEq : α → β → Bool) : Option Nat :=
  upperBoundBy.loop target lessEq (len values) values 0 none

/-- One pass of the `loop` in `lower_bound_by`. -/
def lowerBoundBy.loop (target : β) (greaterEq : α → β → Bool) :
    Nat → S → Nat → Option Nat → Option Nat
  | 0, _, _, best => best
  | fuel + 1, values, offset, best =>
    if h : len values = 0 then best
    else if greaterEq (index values ⟨len values / 2, by omega⟩) target then
      loop target greaterEq fuel (slice values 0 (len values / 2)) offset
        (some (len values / 2 + offset))
    else
      loop target greaterEq fuel (sliceFrom values (len values / 2 + 1))
        (offset + len values / 2 + 1) best

/-- `lower_bound_by`: the index of the first element `x` with `greater_eq(x, target)`. -/
def lowerBoundBy (values : S) (target : β) (greaterEq : α → β → Bool) : Option Nat :=
  lowerBoundBy.loop target greaterEq (len values) values 0 none

/-! ## Views -/

/-- `toList` reads every `S` as the list of its elements. -/
structure View (toList : S → List α) : Prop where
  len_eq : ∀ s, len s = (toList s).length
  index_eq : ∀ s i (h : i < len s), index s ⟨i, h⟩ = (toList s).get ⟨i, len_eq s ▸ h⟩
  slice_eq : ∀ s start stop, toList (slice s start stop) = ((toList s).take stop).drop start
  sliceFrom_eq : ∀ s start, toList (sliceFrom s start) = (toList s).drop start

section View

variable {toList : S → List α}

theorem View.index_mid (hv : View toList) (s : S) (h : len s ≠ 0) :
    index s ⟨len s / 2, by omega⟩ =
      (toList s).get ⟨(toList s).length / 2, by have := hv.len_eq s; omega⟩ := by
  rw [hv.index_eq]
  congr 1
  exact Fin.ext (by simp only [hv.len_eq s])

theorem View.upperBoundBy_loop (hv : View toList) (target : β) (lessEq : α → β → Bool) :
    ∀ (fuel : Nat) (values : S) (offset : Nat) (best : Option Nat),
      upperBoundBy.loop target lessEq fuel values offset best =
        Common.upperBoundBy.loop target lessEq fuel (toList values) offset best
  | 0, _, _, _ => rfl
  | fuel + 1, values, offset, best => by
    have hlen := hv.len_eq values
    by_cases h0 : len values = 0
    · rw [upperBoundBy.loop, dif_pos h0, Common.upperBoundBy.loop, dif_pos (hlen ▸ h0)]
    · rw [upperBoundBy.loop, dif_neg h0, Common.upperBoundBy.loop, dif_neg (hlen ▸ h0),
        hv.index_mid values h0]
      split_ifs
      · rw [View.upperBoundBy_loop hv, hv.sliceFrom_eq, hlen]
      · rw [View.upperBoundBy_loop hv, hv.slice_eq, List.drop_zero, hlen]

theorem View.lowerBoundBy_loop (hv : View toList) (target : β) (greaterEq : α → β → Bool) :
    ∀ (fuel : Nat) (values : S) (offset : Nat) (best : Option Nat),
      lowerBoundBy.loop target greaterEq fuel values offset best =
        Common.lowerBoundBy.loop target greaterEq fuel (toList values) offset best
  | 0, _, _, _ => rfl
  | fuel + 1, values, offset, best => by
    have hlen := hv.len_eq values
    by_cases h0 : len values = 0
    · rw [lowerBoundBy.loop, dif_pos h0, Common.lowerBoundBy.loop, dif_pos (hlen ▸ h0)]
    · rw [lowerBoundBy.loop, dif_neg h0, Common.lowerBoundBy.loop, dif_neg (hlen ▸ h0),
        hv.index_mid values h0]
      split_ifs
      · rw [View.lowerBoundBy_loop hv, hv.slice_eq, List.drop_zero, hlen]
      · rw [View.lowerBoundBy_loop hv, hv.sliceFrom_eq, hlen]

/-- Under a view, `upper_bound_by` is the list search on the elements. -/
theorem View.upperBoundBy_eq (hv : View toList) (values : S) (target : β)
    (lessEq : α → β → Bool) :
    upperBoundBy values target lessEq = Common.upperBoundBy (toList values) target lessEq := by
  rw [upperBoundBy, hv.upperBoundBy_loop, hv.len_eq]
  rfl

/-- Under a view, `lower_bound_by` is the list search on the elements. -/
theorem View.lowerBoundBy_eq (hv : View toList) (values : S) (target : β)
    (greaterEq : α → β → Bool) :
    lowerBoundBy values target greaterEq = Common.lowerBoundBy (toList values) target greaterEq := by
  rw [lowerBoundBy, hv.lowerBoundBy_loop, hv.len_eq]
  rfl

end View

/-! ## The two impls -/

/-- A slice is the list of its elements. -/
theorem listView : View (S := List α) id where
  len_eq _ := rfl
  index_eq _ _ _ := rfl
  slice_eq _ _ _ := rfl
  sliceFrom_eq _ _ := rfl

theorem pairIndex_eq (s : List α × List α) (i : Nat) (h : i < s.1.length + s.2.length) :
    pairIndex s ⟨i, h⟩ = (s.1 ++ s.2).get ⟨i, by simpa using h⟩ := by
  unfold pairIndex
  split
  · rename_i hi
    simp [List.getElem_append_left hi]
  · rename_i hi
    simp [List.getElem_append_right (Nat.le_of_not_lt hi)]

/-- The pair's `slice` cuts the concatenation where `take` and `drop` do, wherever `start` and
`stop` fall against the split point. -/
theorem pairSlice_append (s : List α × List α) (start stop : Nat) :
    (pairSlice s start stop).1 ++ (pairSlice s start stop).2 =
      ((s.1 ++ s.2).take stop).drop start := by
  obtain ⟨a, b⟩ := s
  simp only [pairSlice]
  rw [List.take_append, List.drop_append, List.length_take]
  have hsecond : max stop a.length - a.length = stop - a.length := by omega
  rw [hsecond]
  have htake : a.take (min stop a.length) = a.take stop := by
    by_cases ht : stop ≤ a.length
    · rw [Nat.min_eq_left ht]
    · rw [Nat.min_eq_right (by omega), List.take_length, List.take_of_length_le (by omega)]
  have hfirst : (a.take (min stop a.length)).drop (min start a.length) = (a.take stop).drop start := by
    rw [htake]
    by_cases hs : start ≤ a.length
    · rw [Nat.min_eq_left hs]
    · have hlen : (a.take stop).length ≤ a.length := by simp only [List.length_take]; omega
      rw [Nat.min_eq_right (by omega), List.drop_eq_nil_of_le hlen,
        List.drop_eq_nil_of_le (by omega)]
  rw [hfirst]
  congr 1
  by_cases hst : a.length ≤ stop
  · rw [Nat.min_eq_right hst]
    congr 1
    omega
  · rw [show stop - a.length = 0 by omega, List.take_zero, List.drop_nil, List.drop_nil]

/-- A pair of slices is the list of the first's elements, then the second's. -/
theorem pairView : View (S := List α × List α) (fun s => s.1 ++ s.2) where
  len_eq s := (List.length_append).symm
  index_eq s i h := pairIndex_eq s i h
  slice_eq s start stop := pairSlice_append s start stop
  sliceFrom_eq s start := by
    show (pairSlice s start _).1 ++ (pairSlice s start _).2 = _
    rw [pairSlice_append, ← List.length_append, List.take_length]

end SliceLike

/-- The searches on a pair of slices `(a, b)` whose predicate is monotone over `a ++ b`:
`upper_bound_by` gives the index of the last element satisfying `less_eq` (those are the first
`countP` elements), `lower_bound_by` the index of the first satisfying `greater_eq`, and both give
what they give on the one slice `a ++ b`. -/
theorem boundBy_pair_eq_concat {α β : Type} (a b : List α) (target : β)
    (lessEq greaterEq : α → β → Bool) (hle : PrefixClosed (fun x => lessEq x target) (a ++ b))
    (hge : PrefixClosed (fun x => !greaterEq x target) (a ++ b)) :
    (SliceLike.upperBoundBy (a, b) target lessEq =
        (if (a ++ b).countP (fun x => lessEq x target) = 0 then none
          else some ((a ++ b).countP (fun x => lessEq x target) - 1)) ∧
      SliceLike.upperBoundBy (a, b) target lessEq = SliceLike.upperBoundBy (a ++ b) target lessEq) ∧
    (SliceLike.lowerBoundBy (a, b) target greaterEq =
        (if (a ++ b).countP (fun x => !greaterEq x target) = (a ++ b).length then none
          else some ((a ++ b).countP (fun x => !greaterEq x target))) ∧
      SliceLike.lowerBoundBy (a, b) target greaterEq =
        SliceLike.lowerBoundBy (a ++ b) target greaterEq) := by
  have hup := SliceLike.pairView.upperBoundBy_eq (a, b) target lessEq
  have hlo := SliceLike.pairView.lowerBoundBy_eq (a, b) target greaterEq
  refine ⟨⟨?_, ?_⟩, ?_, ?_⟩
  · rw [hup]
    exact upperBoundBy_eq _ _ _ hle
  · rw [hup, SliceLike.listView.upperBoundBy_eq]
    rfl
  · rw [hlo]
    exact lowerBoundBy_eq _ _ _ hge
  · rw [hlo, SliceLike.listView.lowerBoundBy_eq]
    rfl

theorem boundBy_pair_split_after_first :
    PrefixClosed (fun x => decide (x ≤ 2)) ([1, 2] ++ [3]) ∧
      PrefixClosed (fun x => !decide (2 ≤ x)) ([1, 2] ++ [3]) ∧
      SliceLike.upperBoundBy ([1, 2], [3]) 2 (fun x t => decide (x ≤ t)) = some 1 ∧
      SliceLike.lowerBoundBy ([1, 2], [3]) 2 (fun x t => decide (t ≤ x)) = some 1 := by
  obtain ⟨⟨hup, -⟩, hlo, -⟩ := boundBy_pair_eq_concat [1, 2] [3] 2 (fun x t => decide (x ≤ t))
    (fun x t => decide (t ≤ x)) (by decide) (by decide)
  exact ⟨by decide, by decide, hup, hlo⟩

end Dacha.Common
