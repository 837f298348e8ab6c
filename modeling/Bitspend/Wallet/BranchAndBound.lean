import Bitspend.Wallet.CoinSelection

/-!
# Wallet/BranchAndBound — what the search loop keeps track of

The loop never recomputes a sum: `curr_value` and `curr_available_value` are updated by one coin at
a time as the selection grows, flips its last mark or is walked back.  `BnbInv` says what the two
sums are at every pass — the marked coins, and the coins not yet decided — and that the best
selection, once there is one, is worth its recorded value and lies in range.
-/

namespace Bitspend.Wallet

variable {ε : Type}

/-! ## Sums of effective values -/

/-- The effective value of a list of groups. -/
def eff (ogs : List OutputGroup) : ℤ := (ogs.map OutputGroup.effectiveValue).sum

@[simp] theorem eff_nil : eff [] = 0 := rfl

@[simp] theorem eff_cons (og : OutputGroup) (ogs : List OutputGroup) :
    eff (og :: ogs) = og.effectiveValue + eff ogs := by
  simp [eff]

@[simp] theorem eff_append (ogs ogs' : List OutputGroup) : eff (ogs ++ ogs') = eff ogs + eff ogs' := by
  simp [eff]

theorem eff_perm {ogs ogs' : List OutputGroup} (h : ogs.Perm ogs') : eff ogs = eff ogs' :=
  (h.map _).sum_eq

theorem eff_foldl (ogs : List OutputGroup) (a : ℤ) :
    ogs.foldl (fun acc x => acc + x.effectiveValue) a = a + eff ogs := by
  induction ogs generalizing a with
  | nil => simp
  | cons og ogs ih =>
    rw [List.foldl_cons, ih, eff_cons, add_assoc]

/-- **The running sum is the sum.** -/
theorem sumEffective_eq_ok {ogs : List OutputGroup} {v : ℤ}
    (h : (sumEffective ogs : Outcome ε ℤ) = .ok v) : v = eff ogs := by
  have hstep : ∀ (a : ℤ) (x : OutputGroup) (c : ℤ),
      (SignedAmount.add a x.effectiveValue : Outcome ε ℤ) = .ok c → c = a + x.effectiveValue :=
    fun a x c hc => (SignedAmount.add_eq_ok.mp hc).2
  rw [Outcome.foldlM_eq_ok hstep h, eff_foldl, zero_add]

/-! ## The coins a selection marks -/

theorem pick_nil (ogs : List OutputGroup) : pick ogs [] = [] := by
  simp [pick]

theorem pick_cons (og : OutputGroup) (ogs : List OutputGroup) (b : Bool) (bs : List Bool) :
    pick (og :: ogs) (b :: bs) = (if b then [og] else []) ++ pick ogs bs := by
  cases b <;> simp [pick]

/-- **One more mark, one more coin or none.** -/
theorem pick_append_singleton {ogs : List OutputGroup} {bs : List Bool} {og : OutputGroup}
    (hog : ogs[bs.length]? = some og) (b : Bool) :
    pick ogs (bs ++ [b]) = pick ogs bs ++ if b then [og] else [] := by
  induction bs generalizing ogs with
  | nil =>
    rcases ogs with _ | ⟨o, ogs⟩
    · simp at hog
    · obtain rfl : o = og := by simpa using hog
      rw [List.nil_append, pick_cons, pick_nil, pick_nil, List.append_nil, List.nil_append]
  | cons c bs ih =>
    rcases ogs with _ | ⟨o, ogs⟩
    · simp at hog
    · rw [List.cons_append, pick_cons, ih (by simpa using hog), pick_cons, List.append_assoc]

/-- The coins marked are coins of the list, each at most as often as there. -/
theorem pick_sublist (ogs : List OutputGroup) (bs : List Bool) : (pick ogs bs).Sublist ogs := by
  induction ogs generalizing bs with
  | nil => simp [pick]
  | cons og ogs ih =>
    rcases bs with _ | ⟨b, bs⟩
    · simp [pick_nil]
    · rw [pick_cons]
      cases b with
      | true => exact (ih bs).cons_cons og
      | false => exact (ih bs).cons og

/-- The value of a selection held as a stack. -/
def marked (ogs : List OutputGroup) (selection : List Bool) : ℤ := eff (pick ogs selection.reverse)

@[simp] theorem marked_nil (ogs : List OutputGroup) : marked ogs [] = 0 := by
  simp [marked, pick_nil]

/-- **Pushing a mark** adds the coin at its position, or nothing. -/
theorem marked_cons {ogs : List OutputGroup} {selection : List Bool} {og : OutputGroup}
    (hog : ogs[selection.length]? = some og) (b : Bool) :
    marked ogs (b :: selection) = marked ogs selection + if b then og.effectiveValue else 0 := by
  rw [marked, marked, List.reverse_cons, pick_append_singleton (by simpa using hog), eff_append]
  cases b <;> simp

/-- The value of the coins not yet decided on. -/
def undecided (ogs : List OutputGroup) (n : ℕ) : ℤ := eff (ogs.drop n)

theorem undecided_of_getElem? {ogs : List OutputGroup} {n : ℕ} {og : OutputGroup}
    (hog : ogs[n]? = some og) : undecided ogs n = og.effectiveValue + undecided ogs (n + 1) := by
  obtain ⟨hn, rfl⟩ := List.getElem?_eq_some_iff.mp hog
  rw [undecided, List.drop_eq_getElem_cons hn, eff_cons, undecided]

/-! ## The invariant -/

/-- **What holds at every pass of the search.**  `base` is the effective value of the required
coins, counted from the start. -/
structure BnbInv (ogs : List OutputGroup) (base targetAmount costOfChange : ℤ) (s : BnbState) :
    Prop where
  length_le : s.currentSelection.length ≤ ogs.length
  value_eq : s.currValue = base + marked ogs s.currentSelection
  available_eq : s.currAvailableValue = undecided ogs s.currentSelection.length
  best_none : s.bestSelectionValue = none → s.bestSelection = []
  best_some : ∀ v, s.bestSelectionValue = some v → v = base + marked ogs s.bestSelection
    ∧ targetAmount ≤ v ∧ v ≤ targetAmount + costOfChange

/-- A step ends in a state with the invariant, whichever way it ends. -/
def BnbFlow.Keeps (P : BnbState → Prop) : BnbFlow → Prop
  | next s => P s
  | stop s => P s

section Step

variable {ogs : List OutputGroup} {base targetAmount costOfChange : ℤ} {s : BnbState}

/-- The start of the search. -/
theorem BnbInv.init (ogs : List OutputGroup) (base targetAmount costOfChange : ℤ) :
    BnbInv ogs base targetAmount costOfChange
      { currentSelection := [], currValue := base, currAvailableValue := eff ogs
        bestSelection := [], bestSelectionValue := none } where
  length_le := Nat.zero_le _
  value_eq := by simp
  available_eq := by simp [undecided]
  best_none _ := rfl
  best_some v hv := by simp at hv

/-- Keeping the current selection as the best one needs it in range. -/
theorem BnbInv.keepBest (h : BnbInv ogs base targetAmount costOfChange s)
    (hlow : targetAmount ≤ s.currValue) (hhigh : s.currValue ≤ targetAmount + costOfChange) :
    BnbInv ogs base targetAmount costOfChange s.keepBest := by
  unfold BnbState.keepBest
  split
  · exact { h with
      best_none := by simp
      best_some := by
        rintro v ⟨rfl⟩
        exact ⟨h.value_eq, hlow, hhigh⟩ }
  · exact h

/-- **Walking back** drops omitted coins, which are undecided again and were not counted. -/
theorem walkBack_eq_ok {selection : List Bool} {available : ℤ} {p : List Bool × ℤ}
    (h : (walkBack ogs selection available : Outcome ε (List Bool × ℤ)) = .ok p)
    (hlen : selection.length ≤ ogs.length) (hav : available = undecided ogs selection.length) :
    p.1.length ≤ ogs.length ∧ p.2 = undecided ogs p.1.length
      ∧ marked ogs p.1 = marked ogs selection ∧ p.1.head? ≠ some false := by
  induction selection generalizing available with
  | nil =>
    cases h
    exact ⟨hlen, hav, rfl, by simp⟩
  | cons b selection ih =>
    cases b with
    | true =>
      cases h
      exact ⟨hlen, hav, rfl, by simp⟩
    | false =>
      rw [walkBack] at h
      obtain ⟨og, hog, h⟩ := Outcome.bind_eq_ok.mp h
      obtain ⟨a, ha, h⟩ := Outcome.bind_eq_ok.mp h
      have hat : ogs[selection.length]? = some og := Outcome.expect_eq_ok.mp hog
      obtain ⟨-, rfl⟩ := SignedAmount.add_eq_ok.mp ha
      rw [List.length_cons] at hlen hav
      obtain ⟨hl, hp, hm, hhead⟩ := ih h (by omega) (by rw [hav, undecided_of_getElem? hat, add_comm])
      refine ⟨hl, hp, ?_, hhead⟩
      rw [hm, marked_cons hat]
      simp

theorem BnbInv.backtrack (h : BnbInv ogs base targetAmount costOfChange s) {f : BnbFlow}
    (hf : Wallet.backtrack ogs s = .ok f) :
    f.Keeps (BnbInv ogs base targetAmount costOfChange) := by
  rw [Wallet.backtrack] at hf
  obtain ⟨⟨selection, available⟩, hwalk, hf⟩ := Outcome.bind_eq_ok.mp hf
  obtain ⟨hlen, hav, hmarked, hhead⟩ := walkBack_eq_ok hwalk h.length_le h.available_eq
  rcases selection with _ | ⟨b, selection⟩
  · dsimp only at hf
    split at hf
    · cases hf
    · cases hf
      exact { h with length_le := hlen, value_eq := by rw [h.value_eq, ← hmarked], available_eq := hav }
  · obtain rfl : b = true := by simpa using hhead
    obtain ⟨og, hog, hf⟩ := Outcome.bind_eq_ok.mp hf
    obtain ⟨v, hv, hf⟩ := Outcome.bind_eq_ok.mp hf
    cases hf
    have hat : ogs[selection.length]? = some og := Outcome.expect_eq_ok.mp hog
    obtain ⟨-, rfl⟩ := SignedAmount.sub_eq_ok.mp hv
    refine { h with length_le := hlen, value_eq := ?_, available_eq := hav }
    -- the flipped mark stops counting its coin
    rw [h.value_eq, ← hmarked, marked_cons hat, marked_cons hat]
    simp only [if_true, Bool.false_eq_true, if_false]
    omega

theorem BnbInv.forward (h : BnbInv ogs base targetAmount costOfChange s) {f : BnbFlow}
    (hf : Wallet.forward ogs s = .ok f) :
    f.Keeps (BnbInv ogs base targetAmount costOfChange) := by
  rw [Wallet.forward] at hf
  obtain ⟨og, hog, hf⟩ := Outcome.bind_eq_ok.mp hf
  obtain ⟨a, ha, hf⟩ := Outcome.bind_eq_ok.mp hf
  obtain ⟨v, hv, hf⟩ := Outcome.bind_eq_ok.mp hf
  cases hf
  have hat : ogs[s.currentSelection.length]? = some og := Outcome.expect_eq_ok.mp hog
  obtain ⟨-, rfl⟩ := SignedAmount.sub_eq_ok.mp ha
  obtain ⟨-, rfl⟩ := SignedAmount.add_eq_ok.mp hv
  obtain ⟨hlt, -⟩ := List.getElem?_eq_some_iff.mp hat
  refine { h with length_le := hlt, value_eq := ?_, available_eq := ?_ }
  · rw [h.value_eq, marked_cons hat, if_pos rfl, add_assoc]
  · rw [h.available_eq, undecided_of_getElem? hat, List.length_cons]
    exact add_sub_cancel_left _ _

/-- A state that is not out of range is not past the target by more than the cost of change. -/
theorem le_of_outOfRange_eq_false
    (h : (outOfRange targetAmount costOfChange s : Outcome ε Bool) = .ok false) :
    s.currValue ≤ targetAmount + costOfChange := by
  rw [outOfRange] at h
  obtain ⟨reach, -, h⟩ := Outcome.bind_eq_ok.mp h
  split at h
  · cases h
  · obtain ⟨highest, hhigh, h⟩ := Outcome.bind_eq_ok.mp h
    obtain ⟨-, rfl⟩ := SignedAmount.add_eq_ok.mp hhigh
    have : decide (targetAmount + costOfChange < s.currValue) = false := Except.ok.inj h
    simpa using this

/-- **One pass keeps the invariant.** -/
theorem BnbInv.step (h : BnbInv ogs base targetAmount costOfChange s) {f : BnbFlow}
    (hf : bnbStep ogs targetAmount costOfChange s = .ok f) :
    f.Keeps (BnbInv ogs base targetAmount costOfChange) := by
  rw [bnbStep] at hf
  obtain ⟨out, hout, hf⟩ := Outcome.bind_eq_ok.mp hf
  cases out with
  | true => exact h.backtrack hf
  | false =>
    have hhigh := le_of_outOfRange_eq_false hout
    simp only [Bool.false_eq_true, if_false] at hf
    split at hf
    · rename_i hlow
      split at hf
      · cases hf
        exact h.keepBest hlow hhigh
      · exact (h.keepBest hlow hhigh).backtrack hf
    · exact h.forward hf

/-- **…and so does the whole search.** -/
theorem BnbInv.loop (h : BnbInv ogs base targetAmount costOfChange s) {tries : ℕ} {s' : BnbState}
    (hs : bnbLoop ogs targetAmount costOfChange tries s = .ok s') :
    BnbInv ogs base targetAmount costOfChange s' := by
  induction tries generalizing s with
  | zero =>
    cases hs
    exact h
  | succ tries ih =>
    rw [bnbLoop] at hs
    obtain ⟨f, hf, hs⟩ := Outcome.bind_eq_ok.mp hs
    have hkeep := h.step hf
    cases f with
    | next t => exact ih hkeep hs
    | stop t =>
      cases hs
      exact hkeep

/-- **A best selection has a value**, and the target can be taken from it. -/
theorem BnbInv.exists_remaining (h : BnbInv ogs base targetAmount costOfChange s)
    (hcost : costOfChange < 2 ^ 63) (hbest : s.bestSelection ≠ []) :
    ∃ v, s.bestSelectionValue = some v
      ∧ (SignedAmount.sub v targetAmount : Outcome BnbError ℤ) = .ok (v - targetAmount)
      ∧ SignedAmount.toUnsigned (v - targetAmount) = some (v - targetAmount).toNat := by
  obtain ⟨v, hv⟩ := Option.ne_none_iff_exists'.mp fun hnone => hbest (h.best_none hnone)
  obtain ⟨-, hlow, hhigh⟩ := h.best_some v hv
  exact ⟨v, hv, SignedAmount.sub_eq_ok.mpr ⟨⟨by omega, by omega⟩, rfl⟩,
    SignedAmount.toUnsigned_eq_some.mpr (by omega)⟩

end Step

/-! ## The search of a call -/

/-- The coins in the order of the search. -/
def searchOrder (sorter : SortUnstable OutputGroup.effectiveValue) (optional : List OutputGroup) :
    List OutputGroup := (sorter.sort optional).reverse

theorem searchOrder_perm (sorter : SortUnstable OutputGroup.effectiveValue)
    (optional : List OutputGroup) : (searchOrder sorter optional).Perm optional :=
  (List.reverse_perm _).trans (sorter.perm _)

/-- The start of the search. -/
def searchStart (base available : ℤ) : BnbState :=
  { currentSelection := [], currValue := base, currAvailableValue := available
    bestSelection := [], bestSelectionValue := none }

/-- **What the search starts with has the invariant.** -/
theorem BnbInv.start (sorter : SortUnstable OutputGroup.effectiveValue) (optional : List OutputGroup)
    (base targetAmount costOfChange : ℤ) :
    BnbInv (searchOrder sorter optional) base targetAmount costOfChange
      (searchStart base (eff optional)) := by
  rw [← eff_perm (searchOrder_perm sorter optional)]
  exact BnbInv.init _ _ _ _

end Bitspend.Wallet
