import Bitspend.Wallet.Optimal

/-!
# Wallet/Passes — the search loop, pass by pass

`coin_select` calls `bnb` with the sums of what it hands over: `curr_value` of the required groups and
`curr_available_value` of the optional ones, all of them worth something (`BnbCall`).  At the head of
every pass the two sums are those of the marked coins and of the undecided ones, so a pass that moves
forward has a coin to move to, one that walks back reads only coins it had moved past, and what the
search ends with has a value that is not below the target.
-/

namespace Bitspend.Wallet

/-! ## Calls and passes -/

/-- **A call of `bnb` as `coin_select` makes it**, with amounts within the money supply. -/
structure BnbCall (required optional : List OutputGroup)
    (currValue currAvailableValue targetAmount costOfChange : ℤ) : Prop where
  pos : ∀ og ∈ optional, 0 < og.effectiveValue
  value_eq : currValue = eff required
  available_eq : currAvailableValue = eff optional
  value_le : currValue ≤ targetAmount
  value_ge : -(21 * 10 ^ 14) ≤ currValue
  available_le : currAvailableValue ≤ 21 * 10 ^ 14
  target_mem : 0 ≤ targetAmount ∧ targetAmount ≤ 21 * 10 ^ 14
  cost_mem : 0 ≤ costOfChange ∧ costOfChange ≤ 21 * 10 ^ 14

/-- The state at the head of a pass of the loop, by the number of passes before it. -/
inductive Pass (ogs : List OutputGroup) (targetAmount costOfChange : ℤ) (start : BnbState) :
    ℕ → BnbState → Prop
  | first : Pass ogs targetAmount costOfChange start 0 start
  | next {n : ℕ} {s s' : BnbState} : Pass ogs targetAmount costOfChange start n s →
      bnbStep ogs targetAmount costOfChange s = .ok (.next s') →
      Pass ogs targetAmount costOfChange start (n + 1) s'

/-- The positions that backtracking reads: those of the omitted coins it pops, and that of the coin it
omits next. -/
def backtrackIndices : List Bool → List ℕ
  | [] => []
  | true :: selection => [selection.length]
  | false :: selection => selection.length :: backtrackIndices selection

/-- **What holds at the head of a pass.** -/
structure PassHolds (required ogs : List OutputGroup) (targetAmount costOfChange : ℤ)
    (s : BnbState) : Prop where
  value_eq : s.currValue = eff required + marked ogs s.currentSelection
  available_eq : s.currAvailableValue = undecided ogs s.currentSelection.length
  forward_lt : (outOfRange targetAmount costOfChange s : Outcome BnbError Bool) = .ok false →
    s.currValue < targetAmount → s.currentSelection.length < ogs.length
  backtrack_lt : ∀ i ∈ backtrackIndices s.currentSelection, i < ogs.length
  safe : (bnbStep ogs targetAmount costOfChange s).Safe

variable {required optional ogs : List OutputGroup}
  {currValue currAvailableValue targetAmount costOfChange : ℤ} {start s : BnbState} {n : ℕ}

/-- The loop is at this state when so many of its passes are done. -/
theorem Pass.bnbLoop_add (h : Pass ogs targetAmount costOfChange start n s) (tries : ℕ) :
    bnbLoop ogs targetAmount costOfChange (n + tries) start
      = bnbLoop ogs targetAmount costOfChange tries s := by
  induction h generalizing tries with
  | first => rw [Nat.zero_add]
  | next _ hstep ih =>
    rw [Nat.add_assoc, Nat.add_comm 1, ih, bnbLoop, hstep]
    rfl

theorem lt_of_mem_backtrackIndices {selection : List Bool} {i : ℕ}
    (h : i ∈ backtrackIndices selection) : i < selection.length := by
  induction selection with
  | nil => cases h
  | cons b selection ih =>
    cases b with
    | true =>
      obtain rfl := List.mem_singleton.mp h
      exact Nat.lt_succ_self _
    | false =>
      rcases List.mem_cons.mp h with rfl | h
      · exact Nat.lt_succ_self _
      · exact (ih h).trans (Nat.lt_succ_self _)

/-! ## The passes are safe -/

/-- **A pass that moves forward has a coin to move to**: what it lacks is worth of undecided coins. -/
theorem BnbInv.forward_lt {base : ℤ} (h : BnbInv ogs base targetAmount costOfChange s)
    (hin : (outOfRange targetAmount costOfChange s : Outcome BnbError Bool) = .ok false)
    (hlow : s.currValue < targetAmount) : s.currentSelection.length < ogs.length := by
  by_contra hge
  have havailable := h.available_eq
  rw [undecided, List.drop_eq_nil_of_le (by omega), eff_nil] at havailable
  rw [outOfRange] at hin
  obtain ⟨reachable, hadd, hin⟩ := Outcome.bind_eq_ok.mp hin
  obtain ⟨-, rfl⟩ := SignedAmount.add_eq_ok.mp hadd
  rw [havailable, add_zero, if_pos hlow] at hin
  cases hin

namespace BnbCall

theorem bounds (h : BnbCall required optional currValue currAvailableValue targetAmount costOfChange)
    (hperm : ogs.Perm optional) : BnbBounds ogs currValue targetAmount costOfChange where
  nonneg og hog := (h.pos og (hperm.mem_iff.mp hog)).le
  base_ge := by
    have := h.value_ge
    omega
  base_le := by
    have hle := h.value_le
    have htarget := h.target_mem.2
    omega
  eff_le := by
    have hle := h.available_le
    rw [h.available_eq, ← eff_perm hperm] at hle
    omega
  target_nonneg := h.target_mem.1
  target_le := h.target_mem.2.trans (by decide)
  cost_nonneg := h.cost_mem.1
  cost_le := h.cost_mem.2.trans (by decide)

/-- **The invariant holds at the head of every pass.** -/
theorem inv (h : BnbCall required optional currValue currAvailableValue targetAmount costOfChange)
    (hperm : ogs.Perm optional)
    (hpass : Pass ogs targetAmount costOfChange (searchStart currValue currAvailableValue) n s) :
    BnbInv ogs currValue targetAmount costOfChange s := by
  induction hpass with
  | first =>
    rw [h.available_eq, ← eff_perm hperm]
    exact BnbInv.init ogs _ _ _
  | next _ hstep ih => exact ih.step hstep

theorem holds (h : BnbCall required optional currValue currAvailableValue targetAmount costOfChange)
    (hperm : ogs.Perm optional) (hinv : BnbInv ogs currValue targetAmount costOfChange s) :
    PassHolds required ogs targetAmount costOfChange s where
  value_eq := by rw [hinv.value_eq, h.value_eq]
  available_eq := hinv.available_eq
  forward_lt := hinv.forward_lt
  backtrack_lt _ hi := (lt_of_mem_backtrackIndices hi).trans_le hinv.length_le
  safe := hinv.step_safe (h.bounds hperm)

end BnbCall

/-- **The branch-and-bound loop is safe**: in a call that `coin_select` makes, both sums are what they
should be at the head of every pass, no pass reads out of range or panics, and the best selection the
loop ends with has a value with a remainder over the target. -/
theorem bnb_passes (sorter : SortUnstable OutputGroup.effectiveValue)
    (h : BnbCall required optional currValue currAvailableValue targetAmount costOfChange) :
    (∀ n s, Pass (searchOrder sorter optional) targetAmount costOfChange
        (searchStart currValue currAvailableValue) n s →
      (∀ tries, bnbLoop (searchOrder sorter optional) targetAmount costOfChange (n + tries)
          (searchStart currValue currAvailableValue)
        = bnbLoop (searchOrder sorter optional) targetAmount costOfChange tries s)
      ∧ PassHolds required (searchOrder sorter optional) targetAmount costOfChange s)
    ∧ (bnbLoop (searchOrder sorter optional) targetAmount costOfChange BNB_TOTAL_TRIES
        (searchStart currValue currAvailableValue)).Safe
    ∧ ∀ s, bnbLoop (searchOrder sorter optional) targetAmount costOfChange BNB_TOTAL_TRIES
        (searchStart currValue currAvailableValue) = .ok s → s.bestSelection ≠ [] →
      ∃ v, s.bestSelectionValue = some v
        ∧ (SignedAmount.sub v targetAmount : Outcome BnbError ℤ) = .ok (v - targetAmount)
        ∧ SignedAmount.toUnsigned (v - targetAmount) = some (v - targetAmount).toNat := by
  have hperm := searchOrder_perm sorter optional
  have hstart := h.inv hperm (.first)
  refine ⟨fun n s hpass => ⟨hpass.bnbLoop_add, h.holds hperm (h.inv hperm hpass)⟩,
    hstart.loop_safe (h.bounds hperm) _, fun s hloop hbest => ?_⟩
  have hcost := h.cost_mem
  exact (hstart.loop hloop).exists_remaining (by omega) hbest

/-- Two groups, worth five and three. -/
def fiveAndThree : List OutputGroup :=
  [{ (default : OutputGroup) with effectiveValue := 5 },
    { (default : OutputGroup) with effectiveValue := 3 }]

/-- The statement at the third pass of the search for a target of three: five is more than that, so
the first coin has been omitted. -/
theorem bnb_passes_fiveAndThree :
    ∃ s, Pass (searchOrder (.insertion _) fiveAndThree) 3 0 (searchStart 0 8) 2 s
      ∧ s.currentSelection = [false]
      ∧ PassHolds [] (searchOrder (.insertion _) fiveAndThree) 3 0 s := by
  have hcall : BnbCall [] fiveAndThree 0 8 3 0 := by
    refine ⟨?_, rfl, rfl, ?_, ?_, ?_, ⟨?_, ?_⟩, ?_, ?_⟩ <;> simp [fiveAndThree]
  have hpass : Pass (searchOrder (.insertion _) fiveAndThree) 3 0 (searchStart 0 8) 2
      { searchStart 0 3 with currentSelection := [false] } :=
    .next (.next .first rfl) rfl
  exact ⟨_, hpass, rfl, ((bnb_passes (.insertion _) hcall).1 2 _ hpass).2⟩

/-! ## The calls that are made -/

section Calls

variable {costs : SpendCosts} {feeRate : FeeRate}

theorem pos_of_mem_poolOf (costs : SpendCosts) (feeRate : FeeRate) (optional : List WeightedUtxo) :
    ∀ og ∈ poolOf costs feeRate optional, 0 < og.effectiveValue := by
  intro og hog
  obtain ⟨w, hw, rfl⟩ := List.mem_map.mp hog
  exact of_decide_eq_true (List.mem_filter.mp hw).2

/-- **`coin_select` calls `bnb` so**: within the money supply, and unless the required coins alone are
above the target, the arguments `coinSelect_of_reaches` shows it to pass make such a call. -/
theorem WithinSupply.bnbCall {required optional : List WeightedUtxo} {targetAmount sizeOfChange : ℕ}
    (h : WithinSupply costs feeRate (required ++ optional)) (htarget : targetAmount ≤ 21 * 10 ^ 14)
    (hcost : changeCost feeRate sizeOfChange ≤ 21 * 10 ^ 14)
    (hle : ¬(targetAmount : ℤ) < baseOf costs feeRate required) :
    BnbCall (required.map (groupOf costs feeRate)) (poolOf costs feeRate optional)
      (baseOf costs feeRate required) (eff (poolOf costs feeRate optional)) targetAmount
      (changeCost feeRate sizeOfChange) := by
  have hreq := h.of_subperm (List.sublist_append_left required optional).subperm
  have hcand := h.of_subperm ((candidates_sublist costs feeRate optional).trans
    (List.sublist_append_right required optional)).subperm
  have hreqFees := hreq.fees_le
  have hcandValue := hcand.value_le
  have hbase := baseOf_eq costs feeRate required
  have hsum := eff_poolOf costs feeRate optional
  exact ⟨pos_of_mem_poolOf costs feeRate optional, rfl, rfl, by omega, by omega, by omega,
    ⟨by omega, by omega⟩, by omega, by omega⟩

end Calls

end Bitspend.Wallet
