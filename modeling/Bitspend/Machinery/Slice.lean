import Mathlib.Data.List.Sort

/-!
# Machinery/Slice — sorting where ties are free, and medians

`sort_unstable_by_key` promises a sorted permutation of its input and nothing about elements with
equal keys.  A `SortUnstable key` is any function that keeps the promise; what is proved of code
that calls the sort is proved for all of them.
-/

namespace Bitspend

variable {α κ : Type}

/-- **Some `sort_unstable_by_key`**: the order of elements with equal keys is its own. -/
structure SortUnstable [LE κ] (key : α → κ) where
  sort : List α → List α
  perm : ∀ l, (sort l).Perm l
  sorted : ∀ l, (sort l).Pairwise fun a b => key a ≤ key b

namespace SortUnstable

/-- Insertion sort is one of them. -/
def insertion [LinearOrder κ] (key : α → κ) : SortUnstable key where
  sort := List.insertionSort fun a b => key a ≤ key b
  perm := List.perm_insertionSort _
  sorted l :=
    have : Std.Total fun a b => key a ≤ key b := ⟨fun a b => le_total (key a) (key b)⟩
    have : IsTrans α fun a b => key a ≤ key b := ⟨fun _ _ _ => le_trans⟩
    List.pairwise_insertionSort _ l

end SortUnstable

/-! ## Medians -/

/-- `m` is the median of `l`: the element at half its length once it is sorted, the upper of the two
middle ones where there are two. -/
def IsMedian [LE α] (m : α) (l : List α) : Prop :=
  ∃ s : List α, s.Perm l ∧ s.Pairwise (· ≤ ·) ∧ s[l.length / 2]? = some m

/-- **There is at most one**, since the sorted list is determined… -/
theorem IsMedian.unique [LE α] [Std.Antisymm (α := α) (· ≤ ·)] {m m' : α} {l : List α}
    (h : IsMedian m l) (h' : IsMedian m' l) : m = m' := by
  obtain ⟨s, hperm, hsorted, hm⟩ := h
  obtain ⟨s', hperm', hsorted', hm'⟩ := h'
  have hs : s = s' := List.Perm.eq_of_pairwise' hsorted hsorted' (hperm.trans hperm'.symm)
  rw [hs, hm'] at hm
  exact (Option.some.inj hm).symm

/-- …and sorting finds it. -/
theorem isMedian_insertionSort [LE α] [DecidableLE α] [Std.Total (α := α) (· ≤ ·)]
    [IsTrans α (· ≤ ·)] {m : α} {l : List α}
    (h : (l.insertionSort (· ≤ ·))[l.length / 2]? = some m) : IsMedian m l :=
  ⟨_, l.perm_insertionSort _, l.pairwise_insertionSort _, h⟩

end Bitspend
