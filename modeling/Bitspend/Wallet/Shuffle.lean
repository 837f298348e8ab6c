import Bitspend.Wallet.SelectionSound
import Mathlib.Data.Fintype.BigOperators
import Mathlib.Data.Nat.Factorial.BigOperators

/-!
# Wallet/Shuffle — every order comes up, in exactly one way

`shuffle_slice` fills its list from the end, each place with one of the elements not yet placed.  What
it takes from the random numbers is a choice of one index for each place (`Choices`), and the result
depends on nothing else (`shuffleSlice_eq`).  No place is touched again once it is filled, so different
choices put different elements somewhere, and any order of the list is the result for one choice.
-/

namespace Bitspend.Wallet

open scoped Nat

variable {α : Type}

/-! ## Swaps -/

/-- An element and the last one change places. -/
theorem swapIfInBounds_last (before between after : List α) (x z : α) :
    (before ++ x :: between ++ z :: after).toArray.swapIfInBounds
        (before.length + 1 + between.length) before.length
      = (before ++ z :: between ++ x :: after).toArray := by
  have hi : before.length + 1 + between.length
      < (before ++ x :: between ++ z :: after).toArray.size := by
    simp
    omega
  have hj : before.length < (before ++ x :: between ++ z :: after).toArray.size := by simp
  have hbetween : before.length + 1 + between.length = (before ++ x :: between).length := by
    simp
    omega
  rw [Array.swapIfInBounds_def, dif_pos hi, dif_pos hj]
  apply Array.toList_inj.mp
  rw [Array.toList_swap]
  simp only [List.getElem_toArray, hbetween, List.getElem_append_right, le_refl, Nat.sub_self]
  simp

/-- The last element and itself. -/
theorem swapIfInBounds_self (list : Array α) (i : ℕ) : list.swapIfInBounds i i = list := by
  rw [Array.swapIfInBounds_def]
  split
  · apply Array.toList_inj.mp
    rw [Array.toList_swap, List.set_set]
    exact List.set_getElem_self _
  · rfl

/-- **A swap with the last place** puts an element behind the others. -/
theorem exists_swapped {i : ℕ} {before rest : List α} {x : α}
    (hlen : (before ++ x :: rest).length = i + 1) (after : List α) :
    ∃ swapped : List α, (swapped ++ [x]).Perm (before ++ x :: rest)
      ∧ (before ++ x :: rest ++ after).toArray.swapIfInBounds i before.length
        = (swapped ++ x :: after).toArray := by
  rcases List.eq_nil_or_concat' rest with rfl | ⟨between, z, rfl⟩
  · obtain rfl : before.length = i := by simpa using hlen
    refine ⟨before, .refl _, ?_⟩
    rw [swapIfInBounds_self, List.append_assoc]
    rfl
  · have hi : before.length + 1 + between.length = i := by
      simp at hlen
      omega
    refine ⟨before ++ z :: between, ?_, ?_⟩
    · rw [List.append_assoc, List.cons_append]
      refine List.Perm.append_left before ?_
      exact ((List.perm_append_singleton x between).cons z).trans
        ((List.Perm.swap x z between).trans ((List.perm_append_singleton z between).symm.cons x))
    · have hswap := swapIfInBounds_last before between after x z
      rw [hi] at hswap
      simp only [List.append_assoc, List.cons_append, List.nil_append] at hswap ⊢
      exact hswap

/-- **A swap fills the first place with what was in the second**… -/
theorem getElem?_swapIfInBounds_left {list : Array α} {i j : ℕ} (hi : i < list.size)
    (hj : j < list.size) : (list.swapIfInBounds i j)[i]? = list[j]? := by
  rw [Array.getElem?_eq_getElem (by simpa using hi), Array.getElem?_eq_getElem hj,
    Array.getElem_swapIfInBounds_left hj]

/-- …and touches no third one. -/
theorem getElem?_swapIfInBounds_of_ne {list : Array α} {i j k : ℕ} (hi : k ≠ i) (hj : k ≠ j) :
    (list.swapIfInBounds i j)[k]? = list[k]? := by
  by_cases hk : k < list.size
  · rw [Array.getElem?_eq_getElem (by simpa using hk), Array.getElem?_eq_getElem hk,
      Array.getElem_swapIfInBounds_of_ne_of_ne hi hj]
  · rw [Array.getElem?_eq_none (by simpa using hk), Array.getElem?_eq_none (by omega)]

/-! ## The indices -/

/-- The loop of `shuffle_slice` with its random indices given. -/
def shuffleBy : ℕ → Array α → (ℕ → ℕ) → Array α
  | 0, list, _ => list
  | i + 1, list, index => shuffleBy i (list.swapIfInBounds (i + 1) (index (i + 1))) index

/-- Only the indices of the places that are filled matter. -/
theorem shuffleBy_congr {i : ℕ} {index index' : ℕ → ℕ} (list : Array α)
    (h : ∀ j, 0 < j → j ≤ i → index j = index' j) :
    shuffleBy i list index = shuffleBy i list index' := by
  induction i generalizing list with
  | zero => rfl
  | succ i ih =>
    rw [shuffleBy, shuffleBy, h (i + 1) (Nat.succ_pos i) le_rfl]
    exact ih _ fun j hpos hj => h j hpos (Nat.le_succ_of_le hj)

/-- **The loop draws an index for each place**, the last place first. -/
theorem shuffleFrom_eq (i : ℕ) (list : Array α) (rng : Rng) :
    shuffleFrom i list rng = shuffleBy i list fun j => (rng (i - j)).toNat % (j + 1) := by
  induction i generalizing list rng with
  | zero => rfl
  | succ i ih =>
    rw [shuffleFrom, shuffleBy, ih, Nat.sub_self]
    refine shuffleBy_congr _ fun j _ hj => ?_
    rw [Nat.succ_sub hj]

/-- **A place above the loop is not touched.** -/
theorem getElem?_shuffleBy {i k : ℕ} (hk : i < k) (list : Array α) {index : ℕ → ℕ}
    (hindex : ∀ j, index j ≤ j) : (shuffleBy i list index)[k]? = list[k]? := by
  induction i generalizing list with
  | zero => rfl
  | succ i ih =>
    have hle := hindex (i + 1)
    rw [shuffleBy, ih (by omega), getElem?_swapIfInBounds_of_ne (by omega) (by omega)]

/-- **The result determines the indices**: of distinct elements, the one in each place was at one
index only when the place was filled. -/
theorem shuffleBy_injective {i : ℕ} {list : Array α} (hi : i < list.size)
    (hnodup : list.toList.Nodup) {index index' : ℕ → ℕ} (hindex : ∀ j, index j ≤ j)
    (hindex' : ∀ j, index' j ≤ j) (h : shuffleBy i list index = shuffleBy i list index') {j : ℕ}
    (hpos : 0 < j) (hj : j ≤ i) : index j = index' j := by
  induction i generalizing list with
  | zero => omega
  | succ i ih =>
    have hfilled : ∀ {c : ℕ → ℕ}, (∀ j, c j ≤ j) →
        (shuffleBy (i + 1) list c)[i + 1]? = list[c (i + 1)]? := fun {c} hc => by
      rw [shuffleBy, getElem?_shuffleBy (Nat.lt_succ_self i) _ hc,
        getElem?_swapIfInBounds_left hi ((hc _).trans_lt hi)]
    have hlast : index (i + 1) = index' (i + 1) := by
      have hget : list[index (i + 1)]? = list[index' (i + 1)]? := by
        rw [← hfilled hindex, h, hfilled hindex']
      rw [← Array.getElem?_toList, ← Array.getElem?_toList] at hget
      exact (List.getElem?_inj ((hindex _).trans_lt (by simpa using hi)) hnodup).mp hget
    rcases Nat.lt_or_eq_of_le hj with hlt | rfl
    · rw [shuffleBy, shuffleBy, ← hlast] at h
      refine ih (by simpa using Nat.lt_of_succ_lt hi) ?_ h (Nat.le_of_lt_succ hlt)
      exact (swapIfInBounds_perm list _ _).toList.nodup_iff.mpr hnodup
    · exact hlast

/-- **The places up to `i` can be filled in any order.** -/
theorem exists_shuffleBy {i : ℕ} {front front' : List α} (hlen : front.length = i + 1)
    (hperm : front'.Perm front) (after : List α) :
    ∃ index : ℕ → ℕ, (∀ j, index j ≤ j)
      ∧ shuffleBy i (front ++ after).toArray index = (front' ++ after).toArray := by
  induction i generalizing front front' after with
  | zero =>
    obtain ⟨x, rfl⟩ := List.length_eq_one_iff.mp hlen
    obtain rfl := List.perm_singleton.mp hperm
    exact ⟨fun _ => 0, Nat.zero_le, rfl⟩
  | succ i ih =>
    -- the element wanted in the last place is found somewhere, and changes places with the last
    have hne : front' ≠ [] := by
      rintro rfl
      rw [← hperm.length_eq] at hlen
      cases hlen
    obtain ⟨init, x, rfl⟩ := (List.eq_nil_or_concat' front').resolve_left hne
    obtain ⟨before, rest, rfl⟩ := List.append_of_mem
      (hperm.mem_iff.mp (List.mem_append_right init List.mem_cons_self))
    obtain ⟨swapped, hswapped, hswap⟩ := exists_swapped hlen after
    have hperm' : init.Perm swapped :=
      (List.perm_append_right_iff [x]).mp (hperm.trans hswapped.symm)
    have hlen' : swapped.length = i + 1 := by
      have := hswapped.length_eq
      rw [hlen, List.length_append] at this
      exact Nat.succ.inj this
    have hbefore : before.length ≤ i + 1 := by
      simp at hlen
      omega
    obtain ⟨index, hindex, hshuffle⟩ := ih hlen' hperm' (x :: after)
    refine ⟨Function.update index (i + 1) before.length, fun j => ?_, ?_⟩
    · rcases eq_or_ne j (i + 1) with rfl | hj
      · rwa [Function.update_self]
      · rw [Function.update_of_ne hj]
        exact hindex j
    · rw [shuffleBy, Function.update_self, hswap, List.append_assoc]
      refine Eq.trans (shuffleBy_congr _ fun j _ hj => ?_) hshuffle
      rw [Function.update_of_ne (by omega)]

/-! ## Choices -/

/-- **A choice of an index for every place** of `n`: the places up to it to choose from.  The first
place has no choice, and the loop does not fill it. -/
abbrev Choices (n : ℕ) := (i : Fin n) → Fin (i + 1)

/-- The index for a place. -/
def Choices.index {n : ℕ} (c : Choices n) (i : ℕ) : ℕ := if h : i < n then c ⟨i, h⟩ else 0

theorem Choices.index_le {n : ℕ} (c : Choices n) (i : ℕ) : c.index i ≤ i := by
  rw [index]
  split
  · exact Nat.le_of_lt_succ (c ⟨i, _⟩).isLt
  · exact Nat.zero_le i

/-- There are as many as orders of `n` things. -/
theorem card_choices (n : ℕ) : Fintype.card (Choices n) = n ! := by
  rw [Fintype.card_pi, ← Finset.prod_range_add_one_eq_factorial, ← Fin.prod_univ_eq_prod_range]
  exact Finset.prod_congr rfl fun i _ => Fintype.card_fin _

/-- `shuffle_slice` with its random indices given. -/
def shuffleChoosing (list : List α) (c : Choices list.length) : List α :=
  (shuffleBy (list.length - 1) list.toArray c.index).toList

/-- The indices that a stream of random numbers gives, the last place first. -/
def drawnIndices (n : ℕ) (rng : Rng) : Choices n := fun i =>
  ⟨(rng (n - 1 - i)).toNat % (i + 1), Nat.mod_lt _ (Nat.succ_pos i)⟩

/-- **The shuffle is its indices.** -/
theorem shuffleSlice_eq (list : List α) (rng : Rng) :
    shuffleSlice list rng = shuffleChoosing list (drawnIndices list.length rng) := by
  rw [shuffleSlice, shuffleFrom_eq, shuffleChoosing]
  refine congrArg Array.toList (shuffleBy_congr _ fun j hpos hj => ?_)
  rw [Choices.index, dif_pos (by omega)]
  rfl

/-- **Any choice is drawn by some stream**, where the indices fit the `u32` that is drawn. -/
theorem exists_drawnIndices {n : ℕ} (hn : n ≤ 2 ^ 32) (c : Choices n) :
    ∃ rng, drawnIndices n rng = c := by
  refine ⟨fun k => UInt32.ofNat (c.index (n - 1 - k)), funext fun i => Fin.ext ?_⟩
  have hi := i.isLt
  have hle := c.index_le i
  have hsub : n - 1 - (n - 1 - i) = i := by omega
  have hindex : c.index i = c i := dif_pos hi
  change (UInt32.ofNat (c.index (n - 1 - (n - 1 - i)))).toNat % (i + 1) = c i
  rw [hsub, UInt32.toNat_ofNat_of_lt' (by change _ < 2 ^ 32; omega), hindex,
    Nat.mod_eq_of_lt (c i).isLt]

theorem shuffleBy_perm (i : ℕ) (list : Array α) (index : ℕ → ℕ) :
    (shuffleBy i list index).Perm list := by
  induction i generalizing list with
  | zero => exact .refl _
  | succ i ih => exact (ih _).trans (swapIfInBounds_perm _ _ _)

theorem shuffleChoosing_perm (list : List α) (c : Choices list.length) :
    (shuffleChoosing list c).Perm list :=
  (shuffleBy_perm _ _ _).toList

/-- **Every order of a list is one choice's result**… -/
theorem exists_shuffleChoosing {list p : List α} (hperm : p.Perm list) :
    ∃ c, shuffleChoosing list c = p := by
  rcases list with _ | ⟨x, list⟩
  · exact ⟨fun i => i.elim0, (List.perm_nil.mp hperm).symm⟩
  · obtain ⟨index, hindex, hshuffle⟩ := @exists_shuffleBy _ list.length _ _ rfl hperm []
    rw [List.append_nil, List.append_nil] at hshuffle
    refine ⟨fun i => ⟨index i, Nat.lt_succ_of_le (hindex i)⟩, ?_⟩
    rw [shuffleChoosing]
    refine congrArg Array.toList (Eq.trans (shuffleBy_congr _ fun j _ hj => ?_) hshuffle)
    exact dif_pos (Nat.lt_succ_of_le hj)

/-- …and of no other, if the elements are distinct. -/
theorem shuffleChoosing_injective {list : List α} (hnodup : list.Nodup) :
    Function.Injective (shuffleChoosing list) := by
  intro c c' h
  refine funext fun i => Fin.ext ?_
  have hi := i.isLt
  have hindex : ∀ c : Choices list.length, c.index i = c i := fun c => dif_pos hi
  rcases Nat.eq_zero_or_pos i.val with hzero | hpos
  · have hlt := (c i).isLt
    have hlt' := (c' i).isLt
    omega
  · rw [← hindex, ← hindex]
    exact shuffleBy_injective (by simpa using by omega) hnodup c.index_le c'.index_le
      (Array.toList_inj.mp h) hpos (by omega)

/-- **Every order of a list is drawn by some stream.** -/
theorem exists_shuffleSlice {list p : List α} (hlen : list.length ≤ 2 ^ 32) (hperm : p.Perm list) :
    ∃ rng, shuffleSlice list rng = p := by
  obtain ⟨c, hc⟩ := exists_shuffleChoosing hperm
  obtain ⟨rng, hrng⟩ := exists_drawnIndices hlen c
  exact ⟨rng, by rw [shuffleSlice_eq, hrng, hc]⟩

/-- **The shuffle is an exact Fisher–Yates shuffle**: it permutes; its result is a function of the
indices drawn, of which there are as many choices as orders; and on distinct elements that function
is a bijection onto the orders. -/
theorem shuffleSlice_exact (list : List α) :
    (∀ rng, (shuffleSlice list rng).Perm list)
      ∧ (∀ rng, shuffleSlice list rng = shuffleChoosing list (drawnIndices list.length rng))
      ∧ (list.length ≤ 2 ^ 32 → Function.Surjective (drawnIndices list.length))
      ∧ Fintype.card (Choices list.length) = list.length !
      ∧ (list.Nodup → Set.BijOn (shuffleChoosing list) Set.univ {p | p.Perm list}) := by
  refine ⟨shuffleSlice_perm list, shuffleSlice_eq list, exists_drawnIndices, card_choices _,
    fun hnodup => ?_⟩
  refine ⟨fun c _ => shuffleChoosing_perm list c, (shuffleChoosing_injective hnodup).injOn, ?_⟩
  intro p hp
  obtain ⟨c, hc⟩ := exists_shuffleChoosing hp
  exact ⟨c, Set.mem_univ c, hc⟩

/-- The statement for three elements. -/
theorem shuffleSlice_exact_three :
    Set.BijOn (shuffleChoosing [10, 20, 30]) Set.univ {p | p.Perm [10, 20, 30]} :=
  (shuffleSlice_exact [10, 20, 30]).2.2.2.2 (by decide)

end Bitspend.Wallet
