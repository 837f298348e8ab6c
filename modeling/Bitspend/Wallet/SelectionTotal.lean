import Bitspend.Wallet.SelectionSound

/-!
# Wallet/SelectionTotal — when coin selection answers

Amounts within the money supply leave every sum of the selection far inside `i64`, and the search
loop never indexes past its coins: it moves forward only while undecided coins are worth something,
so while there are any.  So within those bounds coin selection does not panic, and it finds a
selection whenever all the coins together pay for the target and their own fees.
-/

namespace Bitspend.Wallet

variable {ε : Type} {costs : SpendCosts} {feeRate : FeeRate}

/-! ## The search does not panic -/

theorem eff_nonneg {ogs : List OutputGroup} (h : ∀ og ∈ ogs, 0 ≤ og.effectiveValue) : 0 ≤ eff ogs := by
  induction ogs with
  | nil => simp
  | cons og ogs ih =>
    have hhead := h og List.mem_cons_self
    have htail := ih fun o ho => h o (List.mem_cons_of_mem og ho)
    rw [eff_cons]
    omega

theorem eff_le_of_sublist {ogs ogs' : List OutputGroup} (h : ∀ og ∈ ogs', 0 ≤ og.effectiveValue)
    (hsub : ogs.Sublist ogs') : eff ogs ≤ eff ogs' := by
  induction hsub with
  | slnil => exact le_refl _
  | cons og hsub ih =>
    have hhead := h og List.mem_cons_self
    have htail := ih fun o ho => h o (List.mem_cons_of_mem og ho)
    rw [eff_cons]
    omega
  | cons_cons og hsub ih =>
    have htail := ih fun o ho => h o (List.mem_cons_of_mem og ho)
    rw [eff_cons, eff_cons]
    omega

/-- **Bounds within which the search does not overflow.** -/
structure BnbBounds (ogs : List OutputGroup) (base targetAmount costOfChange : ℤ) : Prop where
  nonneg : ∀ og ∈ ogs, 0 ≤ og.effectiveValue
  base_ge : -2 ^ 60 ≤ base
  base_le : base ≤ 2 ^ 60
  eff_le : eff ogs ≤ 2 ^ 60
  target_nonneg : 0 ≤ targetAmount
  target_le : targetAmount ≤ 2 ^ 60
  cost_nonneg : 0 ≤ costOfChange
  cost_le : costOfChange ≤ 2 ^ 60

section Search

variable {ogs : List OutputGroup} {base targetAmount costOfChange : ℤ} {s : BnbState}

theorem BnbBounds.marked_mem (hb : BnbBounds ogs base targetAmount costOfChange)
    (selection : List Bool) : 0 ≤ marked ogs selection ∧ marked ogs selection ≤ eff ogs := by
  have hsub := pick_sublist ogs selection.reverse
  exact ⟨eff_nonneg fun og hog => hb.nonneg og (hsub.subset hog), eff_le_of_sublist hb.nonneg hsub⟩

theorem BnbBounds.undecided_mem (hb : BnbBounds ogs base targetAmount costOfChange) (n : ℕ) :
    0 ≤ undecided ogs n ∧ undecided ogs n ≤ eff ogs := by
  have hsub := List.drop_sublist n ogs
  exact ⟨eff_nonneg fun og hog => hb.nonneg og (hsub.subset hog), eff_le_of_sublist hb.nonneg hsub⟩

theorem groupAt_eq_ok {i : ℕ} {og : OutputGroup} (h : ogs[i]? = some og) :
    (groupAt ogs i : Outcome ε OutputGroup) = .ok og :=
  Outcome.expect_eq_ok.mpr h

theorem SignedAmount.add_of_le {a b : ℤ} (h : -2 ^ 62 ≤ a + b) (h' : a + b ≤ 2 ^ 62) :
    (SignedAmount.add a b : Outcome ε ℤ) = .ok (a + b) :=
  SignedAmount.add_eq_ok.mpr ⟨⟨by omega, by omega⟩, rfl⟩

theorem SignedAmount.sub_of_le {a b : ℤ} (h : -2 ^ 62 ≤ a - b) (h' : a - b ≤ 2 ^ 62) :
    (SignedAmount.sub a b : Outcome ε ℤ) = .ok (a - b) :=
  SignedAmount.sub_eq_ok.mpr ⟨⟨by omega, by omega⟩, rfl⟩

/-- The walk back stays inside the coins. -/
theorem walkBack_ok (hb : BnbBounds ogs base targetAmount costOfChange) {selection : List Bool}
    (hlen : selection.length ≤ ogs.length) :
    ∃ p, (walkBack ogs selection (undecided ogs selection.length) : Outcome ε _) = .ok p := by
  induction selection with
  | nil => exact ⟨_, rfl⟩
  | cons b selection ih =>
    cases b with
    | true => exact ⟨_, rfl⟩
    | false =>
      rw [List.length_cons] at hlen
      have hat := List.getElem?_eq_getElem (l := ogs) (i := selection.length) (by omega)
      have hund := undecided_of_getElem? hat
      have hrange := hb.undecided_mem selection.length
      have hle := hb.eff_le
      rw [walkBack, groupAt_eq_ok hat, Outcome.ok_bind, List.length_cons,
        SignedAmount.add_of_le (by omega) (by omega), Outcome.ok_bind, add_comm, ← hund]
      exact ih (by omega)

/-- **No pass of the search panics.** -/
theorem BnbInv.backtrack_safe (hb : BnbBounds ogs base targetAmount costOfChange)
    (h : BnbInv ogs base targetAmount costOfChange s) : (Wallet.backtrack ogs s).Safe := by
  obtain ⟨⟨selection, available⟩, hwalk⟩ := walkBack_ok (ε := BnbError) hb h.length_le
  rw [← h.available_eq] at hwalk
  obtain ⟨hlen, -, hmarked, hhead⟩ := walkBack_eq_ok hwalk h.length_le h.available_eq
  rw [Wallet.backtrack, hwalk, Outcome.ok_bind]
  rcases selection with _ | ⟨b, selection⟩
  · dsimp only
    split
    · exact .err _
    · exact .ok _
  · have hat := List.getElem?_eq_getElem (l := ogs) (i := selection.length)
      (by rwa [List.length_cons, Nat.succ_le_iff] at hlen)
    obtain rfl : b = true := by simpa using hhead
    -- the coin omitted is one of the marked ones, so the value stays in range
    have hvalue := h.value_eq
    rw [← hmarked, marked_cons hat, if_pos rfl] at hvalue
    have hrange := hb.marked_mem selection
    have hge := hb.base_ge
    have hle := hb.base_le
    have heff := hb.eff_le
    dsimp only
    rw [groupAt_eq_ok hat, Outcome.ok_bind, SignedAmount.sub_of_le (by omega) (by omega),
      Outcome.ok_bind]
    exact .ok _

theorem BnbInv.forward_safe (hb : BnbBounds ogs base targetAmount costOfChange)
    (h : BnbInv ogs base targetAmount costOfChange s)
    (hreach : targetAmount ≤ s.currValue + s.currAvailableValue)
    (hlow : s.currValue < targetAmount) : (Wallet.forward ogs s).Safe := by
  have hav := h.available_eq
  -- something undecided is left: otherwise nothing could still be added
  have hlt : s.currentSelection.length < ogs.length := by
    by_contra hge
    rw [undecided, List.drop_eq_nil_of_le (by omega), eff_nil] at hav
    omega
  have hat := List.getElem?_eq_getElem hlt
  have hund := undecided_of_getElem? hat
  have hrange := hb.undecided_mem s.currentSelection.length
  have hrange' := hb.undecided_mem (s.currentSelection.length + 1)
  have hcoin := hb.nonneg _ (List.getElem_mem hlt)
  have hmarked := hb.marked_mem s.currentSelection
  have hvalue := h.value_eq
  have hge := hb.base_ge
  have hle := hb.base_le
  have heff := hb.eff_le
  rw [Wallet.forward, groupAt_eq_ok hat, Outcome.ok_bind,
    SignedAmount.sub_of_le (by omega) (by omega), Outcome.ok_bind,
    SignedAmount.add_of_le (by omega) (by omega), Outcome.ok_bind]
  exact .ok _

theorem BnbInv.step_safe (hb : BnbBounds ogs base targetAmount costOfChange)
    (h : BnbInv ogs base targetAmount costOfChange s) :
    (bnbStep ogs targetAmount costOfChange s).Safe := by
  have hmarked := hb.marked_mem s.currentSelection
  have hund := hb.undecided_mem s.currentSelection.length
  have hvalue := h.value_eq
  have hav := h.available_eq
  have hge := hb.base_ge
  have hle := hb.base_le
  have heff := hb.eff_le
  have htarget := hb.target_nonneg
  have htarget' := hb.target_le
  have hcost := hb.cost_nonneg
  have hcost' := hb.cost_le
  have hout : (outOfRange targetAmount costOfChange s : Outcome BnbError Bool)
      = .ok (decide (s.currValue + s.currAvailableValue < targetAmount)
        || decide (targetAmount + costOfChange < s.currValue)) := by
    rw [outOfRange, SignedAmount.add_of_le (by omega) (by omega), Outcome.ok_bind]
    split
    · rename_i hlow
      simp [hlow, pure, Except.pure]
    · rename_i hlow
      rw [SignedAmount.add_of_le (by omega) (by omega), Outcome.ok_bind]
      simp [hlow, pure, Except.pure]
  rw [bnbStep, hout, Outcome.ok_bind]
  split
  · exact h.backtrack_safe hb
  · rename_i hin
    simp only [Bool.or_eq_true, decide_eq_true_eq, not_or, not_lt] at hin
    split
    · rename_i hlow
      split
      · exact .ok _
      · exact (h.keepBest hlow hin.2).backtrack_safe hb
    · exact h.forward_safe hb hin.1 (by omega)

theorem BnbInv.loop_safe (hb : BnbBounds ogs base targetAmount costOfChange)
    (h : BnbInv ogs base targetAmount costOfChange s) (tries : ℕ) :
    (bnbLoop ogs targetAmount costOfChange tries s).Safe := by
  induction tries generalizing s with
  | zero => exact .ok _
  | succ tries ih =>
    refine (h.step_safe hb).bind fun f hf => ?_
    have hkeep := h.step hf
    cases f with
    | next t => exact ih hkeep
    | stop t => exact .ok _

end Search

/-- Deciding on change only needs the script's length to fit. -/
theorem decideChange_ok {drainScript : Script} (hlen : (serializedLen drainScript + 8) * 4 < 2 ^ 64)
    (rem : ℕ) : ∃ e, (decideChange costs rem feeRate drainScript : Outcome ε Excess) = .ok e := by
  have hweight : Weight.fromVb (serializedLen drainScript + 8)
      = some ((serializedLen drainScript + 8) * 4) := Weight.fromVb_eq_some.mpr ⟨hlen, rfl⟩
  rw [decideChange, Outcome.expect_eq_ok.mpr hweight, Outcome.ok_bind]
  dsimp only
  split
  · exact ⟨_, rfl⟩
  · exact ⟨_, rfl⟩

section Bnb

variable {sorter : SortUnstable OutputGroup.effectiveValue} {required optional : List OutputGroup}
  {base targetAmount costOfChange : ℤ} {drainScript : Script}

/-- **Branch and bound, from the end of its loop**: the best selection, and what its value leaves
over the target. -/
theorem bnb_of_loop {s : BnbState} (hlen : (serializedLen drainScript + 8) * 4 < 2 ^ 64)
    (hcost : costOfChange < 2 ^ 63)
    (hs : bnbLoop (searchOrder sorter optional) targetAmount costOfChange BNB_TOTAL_TRIES
      (searchStart base (eff optional)) = .ok s) (hbest : s.bestSelection ≠ []) :
    ∃ v, s.bestSelectionValue = some v
      ∧ bnb costs sorter required optional base (eff optional) targetAmount costOfChange drainScript
          feeRate
        = .ok (calculateCsResult (pick (searchOrder sorter optional) s.bestSelection.reverse) required
          (excessOf costs feeRate drainScript (v - targetAmount).toNat)) := by
  have hinv := (BnbInv.start sorter optional base targetAmount costOfChange).loop hs
  obtain ⟨v, hv, hdiff, hrem⟩ := hinv.exists_remaining hcost hbest
  obtain ⟨e, he⟩ : ∃ e, (decideChange costs (v - targetAmount).toNat feeRate drainScript :
      Outcome BnbError Excess) = .ok e := decideChange_ok hlen _
  refine ⟨v, hv, ?_⟩
  rw [bnb]
  change (bnbLoop (searchOrder sorter optional) targetAmount costOfChange BNB_TOTAL_TRIES
    (searchStart base (eff optional)) >>= _) = _
  rw [hs, Outcome.ok_bind, if_neg (by rwa [List.isEmpty_iff]), Outcome.expect_eq_ok.mpr hv,
    Outcome.ok_bind, hdiff, Outcome.ok_bind, Outcome.expect_eq_ok.mpr hrem, Outcome.ok_bind, he,
    Outcome.ok_bind, decideChange_eq_ok he]
  rfl

/-- …or, where that is empty, its error. -/
theorem bnb_of_loop_nil {s : BnbState}
    (hs : bnbLoop (searchOrder sorter optional) targetAmount costOfChange BNB_TOTAL_TRIES
      (searchStart base (eff optional)) = .ok s) (hbest : s.bestSelection = []) :
    bnb costs sorter required optional base (eff optional) targetAmount costOfChange drainScript
      feeRate = .error (.error .totalTriesExceeded) := by
  rw [bnb]
  change (bnbLoop (searchOrder sorter optional) targetAmount costOfChange BNB_TOTAL_TRIES
    (searchStart base (eff optional)) >>= _) = _
  rw [hs, Outcome.ok_bind, hbest]
  rfl

/-- …and where the loop fails, so does the whole. -/
theorem bnb_of_loop_error {f : Fault BnbError}
    (hs : bnbLoop (searchOrder sorter optional) targetAmount costOfChange BNB_TOTAL_TRIES
      (searchStart base (eff optional)) = .error f) :
    bnb costs sorter required optional base (eff optional) targetAmount costOfChange drainScript
      feeRate = .error f := by
  rw [bnb]
  change (bnbLoop (searchOrder sorter optional) targetAmount costOfChange BNB_TOTAL_TRIES
    (searchStart base (eff optional)) >>= _) = _
  rw [hs]
  rfl

/-- **Branch and bound does not panic.** -/
theorem bnb_safe (hb : BnbBounds optional base targetAmount costOfChange)
    (hlen : (serializedLen drainScript + 8) * 4 < 2 ^ 64) :
    (bnb costs sorter required optional base (eff optional) targetAmount costOfChange drainScript
      feeRate).Safe := by
  have hperm := searchOrder_perm sorter optional
  have hb' : BnbBounds (searchOrder sorter optional) base targetAmount costOfChange :=
    { hb with
      nonneg := fun og hog => hb.nonneg og (hperm.mem_iff.mp hog)
      eff_le := (eff_perm hperm).trans_le hb.eff_le }
  have hsafe := (BnbInv.start sorter optional base targetAmount costOfChange).loop_safe hb'
    BNB_TOTAL_TRIES
  rcases hs : bnbLoop (searchOrder sorter optional) targetAmount costOfChange BNB_TOTAL_TRIES
    (searchStart base (eff optional)) with f | s
  · rw [bnb_of_loop_error hs]
    rw [hs] at hsafe
    intro msg hpanic
    cases hpanic
    exact hsafe msg rfl
  · by_cases hbest : s.bestSelection = []
    · rw [bnb_of_loop_nil hs hbest]
      exact .err _
    · have hcost := hb.cost_le
      obtain ⟨v, -, hbnb⟩ := bnb_of_loop hlen (by omega) hs hbest
      rw [hbnb]
      exact .ok _

end Bnb

/-! ## The random draw answers -/

/-- **Amounts within which nothing overflows**, for the coins a selection is made from. -/
structure WithinSupply (costs : SpendCosts) (feeRate : FeeRate) (ws : List WeightedUtxo) : Prop where
  weight_lt : ∀ w ∈ ws, costs.segwitWeight + w.satisfactionWeight < 2 ^ 64
  product_lt : ∀ w ∈ ws, feeRate.Multiplies (costs.segwitWeight + w.satisfactionWeight)
  value_le : valueOf ws ≤ 21 * 10 ^ 14
  fees_le : feesOf costs feeRate ws ≤ 21 * 10 ^ 14

theorem inputFee_ok {w : WeightedUtxo} (h : costs.segwitWeight + w.satisfactionWeight < 2 ^ 64) :
    (inputFee costs feeRate w : Outcome ε ℕ) = .ok (feeOf costs feeRate w) := by
  have hweight : Weight.checkedAdd costs.segwitWeight w.satisfactionWeight
      = some (costs.segwitWeight + w.satisfactionWeight) :=
    Weight.checkedAdd_eq_some.mpr ⟨h, rfl⟩
  rw [inputFee, Outcome.expect_eq_ok.mpr hweight, Outcome.ok_bind]
  rfl

theorem Amount.add_of_lt {a b : ℕ} (h : a + b < 2 ^ 64) :
    (Amount.add a b : Outcome ε ℕ) = .ok (a + b) :=
  Amount.add_eq_ok.mpr ⟨h, rfl⟩

/-- **The scan answers**, with every coin or with enough of them. -/
theorem scanSorted_ok {targetAmount : ℕ} (htarget : targetAmount ≤ 21 * 10 ^ 14)
    {utxos : List (Bool × WeightedUtxo)} {a f : ℕ}
    (hweight : ∀ u ∈ utxos, costs.segwitWeight + u.2.satisfactionWeight < 2 ^ 64)
    (hvalue : a + valueOf (utxos.map Prod.snd) ≤ 21 * 10 ^ 14)
    (hfees : f + feesOf costs feeRate (utxos.map Prod.snd) ≤ 21 * 10 ^ 14) :
    ∃ p, (scanSorted costs feeRate targetAmount utxos a f : Outcome ε _) = .ok p
      ∧ (p.1 = utxos.map Prod.snd ∨ targetAmount + p.2.2 ≤ p.2.1) := by
  induction utxos generalizing a f with
  | nil => exact ⟨_, rfl, .inl rfl⟩
  | cons u utxos ih =>
    obtain ⟨mustUse, w⟩ := u
    simp only [List.map_cons, valueOf_cons, feesOf_cons] at hvalue hfees
    have hneeded : (stillNeeded targetAmount mustUse a f : Outcome ε Bool)
        = .ok (mustUse || decide (a < targetAmount + f)) := by
      cases mustUse with
      | true => rfl
      | false =>
        simp only [stillNeeded, Bool.false_eq_true, if_false]
        rw [Amount.add_of_lt (by omega), Outcome.ok_bind]
        rfl
    rw [scanSorted, hneeded, Outcome.ok_bind]
    split
    · obtain ⟨p, hp, hcover⟩ := ih (a := a + w.utxo.txout.value) (f := f + feeOf costs feeRate w)
        (fun u hu => hweight u (List.mem_cons_of_mem _ hu)) (by omega) (by omega)
      rw [inputFee_ok (hweight (mustUse, w) List.mem_cons_self), Outcome.ok_bind]
      dsimp only
      rw [Amount.add_of_lt (by omega),
        Outcome.ok_bind, Amount.add_of_lt (by omega), Outcome.ok_bind, hp, Outcome.ok_bind]
      refine ⟨_, rfl, hcover.imp (fun h => ?_) id⟩
      rw [h, List.map_cons]
    · rename_i hstop
      simp only [Bool.or_eq_true, decide_eq_true_eq, not_or, not_lt] at hstop
      exact ⟨_, rfl, .inr hstop.2⟩

/-- **What the draw makes of its scan**, where this covers the target and the fees. -/
theorem selectSortedUtxos_of_scan {utxos : List (Bool × WeightedUtxo)} {targetAmount a f : ℕ}
    {drainScript : Script} {ws : List WeightedUtxo}
    (hlen : (serializedLen drainScript + 8) * 4 < 2 ^ 64)
    (hscan : (scanSorted costs feeRate targetAmount utxos 0 0 : Outcome InsufficientFunds _)
      = .ok (ws, a, f)) (hcovers : targetAmount + f ≤ a) (hfits : targetAmount + f < 2 ^ 64) :
    selectSortedUtxos costs utxos feeRate targetAmount drainScript
      = .ok { selected := ws.map WeightedUtxo.utxo, feeAmount := f
              excess := excessOf costs feeRate drainScript (a - (targetAmount + f)) } := by
  obtain ⟨e, he⟩ : ∃ e, (decideChange costs (a - (targetAmount + f)) feeRate drainScript :
      Outcome InsufficientFunds Excess) = .ok e := decideChange_ok hlen _
  have hsub : (Amount.sub a (targetAmount + f) : Outcome InsufficientFunds ℕ)
      = .ok (a - (targetAmount + f)) := Amount.sub_eq_ok.mpr ⟨hcovers, rfl⟩
  rw [selectSortedUtxos, hscan, Outcome.ok_bind]
  dsimp only
  rw [Amount.add_of_lt hfits, Outcome.ok_bind, if_neg (not_lt.mpr hcovers), hsub, Outcome.ok_bind, he,
    Outcome.ok_bind, decideChange_eq_ok he]
  rfl

/-- **The random draw answers** when all the coins pay for the target and their own fees. -/
theorem singleRandomDraw_ok {required optional : List WeightedUtxo} {targetAmount : ℕ}
    {drainScript : Script} (hlen : (serializedLen drainScript + 8) * 4 < 2 ^ 64)
    (h : WithinSupply costs feeRate (required ++ optional))
    (henough : targetAmount + feesOf costs feeRate (required ++ optional)
      ≤ valueOf (required ++ optional)) (rand : Rng) :
    ∃ r, SingleRandomDraw.coinSelect costs required optional feeRate targetAmount drainScript rand
      = .ok r := by
  have hle := h.value_le
  have hfees := h.fees_le
  rw [SingleRandomDraw.coinSelect]
  set utxos := required.map (fun u => (true, u))
    ++ (shuffleSlice optional rand).map fun u => (false, u) with hutxos
  -- the coins scanned are the coins given, in another order
  have hperm : (utxos.map Prod.snd).Perm (required ++ optional) := by
    have hsnd : utxos.map Prod.snd = required ++ shuffleSlice optional rand := by
      simp [hutxos, Function.comp_def]
    rw [hsnd]
    exact (List.Perm.refl required).append (shuffleSlice_perm optional rand)
  have hvalue : valueOf (utxos.map Prod.snd) = valueOf (required ++ optional) :=
    (hperm.map _).sum_eq
  have hfee : feesOf costs feeRate (utxos.map Prod.snd) = feesOf costs feeRate (required ++ optional) :=
    (hperm.map _).sum_eq
  obtain ⟨⟨ws, a, f⟩, hscan, hcover⟩ : ∃ p,
      (scanSorted costs feeRate targetAmount utxos 0 0 : Outcome InsufficientFunds _) = .ok p
        ∧ (p.1 = utxos.map Prod.snd ∨ targetAmount + p.2.2 ≤ p.2.1) :=
    scanSorted_ok (by omega)
      (fun u hu => h.weight_lt u.2 (hperm.mem_iff.mp (List.mem_map_of_mem hu)))
      (by omega) (by omega)
  obtain ⟨hfirst, hval, hfees'⟩ := scanSorted_eq_ok hscan
  have hws : feesOf costs feeRate ws ≤ feesOf costs feeRate (required ++ optional) :=
    feesOf_le_of_subperm (hfirst.sublist.subperm.trans hperm.subperm)
  dsimp only at hcover hval hfees'
  have hcovers : targetAmount + f ≤ a := by
    rcases hcover with hall | hcover
    · rw [hall] at hval hfees'
      omega
    · exact hcover
  exact ⟨_, selectSortedUtxos_of_scan hlen hscan hcovers (by omega)⟩

/-! ## Coin selection answers -/

theorem new_ok {w : WeightedUtxo} (hweight : costs.segwitWeight + w.satisfactionWeight < 2 ^ 64)
    (hvalue : w.utxo.txout.value ≤ 21 * 10 ^ 14) (hfee : feeOf costs feeRate w ≤ 21 * 10 ^ 14) :
    (OutputGroup.new costs feeRate w : Outcome ε OutputGroup) = .ok (groupOf costs feeRate w) := by
  have hv : Amount.toSigned w.utxo.txout.value = some (w.utxo.txout.value : ℤ) :=
    Amount.toSigned_eq_some.mpr ⟨by omega, rfl⟩
  have hf : Amount.toSigned (feeOf costs feeRate w) = some (feeOf costs feeRate w : ℤ) :=
    Amount.toSigned_eq_some.mpr ⟨by omega, rfl⟩
  rw [OutputGroup.new, inputFee_ok hweight, Outcome.ok_bind, Outcome.expect_eq_ok.mpr hv,
    Outcome.ok_bind, Outcome.expect_eq_ok.mpr hf, Outcome.ok_bind,
    SignedAmount.sub_of_le (by omega) (by omega), Outcome.ok_bind]
  rfl

theorem le_valueOf_of_mem {w : WeightedUtxo} {ws : List WeightedUtxo} (h : w ∈ ws) :
    w.utxo.txout.value ≤ valueOf ws :=
  List.le_sum_of_mem (List.mem_map_of_mem (f := fun w : WeightedUtxo => w.utxo.txout.value) h)

theorem feeOf_le_feesOf_of_mem {w : WeightedUtxo} {ws : List WeightedUtxo} (h : w ∈ ws) :
    feeOf costs feeRate w ≤ feesOf costs feeRate ws :=
  List.le_sum_of_mem (List.mem_map_of_mem (f := feeOf costs feeRate) h)

theorem mapM_new_ok {ws : List WeightedUtxo} (h : WithinSupply costs feeRate ws) :
    ws.mapM (OutputGroup.new costs feeRate : WeightedUtxo → Outcome ε OutputGroup)
      = .ok (ws.map (groupOf costs feeRate)) := by
  have hvalue := h.value_le
  have hfees := h.fees_le
  refine Outcome.mapM_ok fun w hw => new_ok (h.weight_lt w hw) ?_ ?_
  · exact (le_valueOf_of_mem hw).trans hvalue
  · exact (feeOf_le_feesOf_of_mem hw).trans hfees

theorem WithinSupply.of_subperm {ws ws' : List WeightedUtxo} (h : WithinSupply costs feeRate ws)
    (hsub : ws'.Subperm ws) : WithinSupply costs feeRate ws' where
  weight_lt w hw := h.weight_lt w (hsub.subset hw)
  product_lt w hw := h.product_lt w (hsub.subset hw)
  value_le := (valueOf_le_of_subperm hsub).trans h.value_le
  fees_le := (feesOf_le_of_subperm hsub).trans h.fees_le

/-- The running sum of effective values stays in range. -/
theorem sumEffective_ok {ws : List WeightedUtxo} (h : WithinSupply costs feeRate ws) :
    (sumEffective (ws.map (groupOf costs feeRate)) : Outcome ε ℤ)
      = .ok (eff (ws.map (groupOf costs feeRate))) := by
  suffices hfrom : ∀ done, WithinSupply costs feeRate (done ++ ws) →
      ((ws.map (groupOf costs feeRate)).foldlM
        (fun acc x => SignedAmount.add acc x.effectiveValue)
        (eff (done.map (groupOf costs feeRate))) : Outcome ε ℤ)
          = .ok (eff ((done ++ ws).map (groupOf costs feeRate))) by
    exact hfrom [] h
  clear h
  intro done h
  induction ws generalizing done with
  | nil => simp [pure, Except.pure]
  | cons w ws ih =>
    have hsplit : done ++ w :: ws = (done ++ [w]) ++ ws := by simp
    have hpart := h.of_subperm (hsplit ▸ (List.sublist_append_left (done ++ [w]) ws).subperm)
    have hvalue := hpart.value_le
    have hfees := hpart.fees_le
    have heff : eff (done.map (groupOf costs feeRate)) + (groupOf costs feeRate w).effectiveValue
        = eff ((done ++ [w]).map (groupOf costs feeRate)) := by
      simp
    have hrange := eff_map_groupOf costs feeRate (done ++ [w])
    rw [List.map_cons, List.foldlM_cons, SignedAmount.add_of_le (by omega) (by omega),
      Outcome.ok_bind, heff, ih (done ++ [w]) (hsplit ▸ h), hsplit]

/-- Dropping the coins that cost more than they hold does not lower the effective value. -/
theorem eff_le_eff_candidates (costs : SpendCosts) (feeRate : FeeRate) (ws : List WeightedUtxo) :
    eff (ws.map (groupOf costs feeRate))
      ≤ eff ((candidates costs feeRate ws).map (groupOf costs feeRate)) := by
  induction ws with
  | nil => exact le_refl _
  | cons w ws ih =>
    unfold candidates at ih ⊢
    rw [List.filter_cons]
    split
    · rw [List.map_cons, List.map_cons, eff_cons, eff_cons]
      omega
    · rename_i hneg
      rw [decide_eq_true_eq, not_lt] at hneg
      rw [List.map_cons, eff_cons]
      omega

/-- The effective value of the required coins. -/
abbrev baseOf (costs : SpendCosts) (feeRate : FeeRate) (required : List WeightedUtxo) : ℤ :=
  eff (required.map (groupOf costs feeRate))

/-- The groups branch and bound searches. -/
abbrev poolOf (costs : SpendCosts) (feeRate : FeeRate) (optional : List WeightedUtxo) :
    List OutputGroup :=
  (candidates costs feeRate optional).map (groupOf costs feeRate)

theorem baseOf_eq (costs : SpendCosts) (feeRate : FeeRate) (required : List WeightedUtxo) :
    baseOf costs feeRate required = (valueOf required : ℤ) - feesOf costs feeRate required :=
  eff_map_groupOf costs feeRate required

theorem eff_poolOf (costs : SpendCosts) (feeRate : FeeRate) (optional : List WeightedUtxo) :
    eff (poolOf costs feeRate optional) = (valueOf (candidates costs feeRate optional) : ℤ)
      - feesOf costs feeRate (candidates costs feeRate optional) :=
  eff_map_groupOf costs feeRate _

/-- The cost of change. -/
abbrev changeCost (feeRate : FeeRate) (sizeOfChange : ℕ) : ℕ := feeRate.ceilFee (sizeOfChange * 4)

/-- **Coin selection gets as far as its search**: the groups, their sums and the weight of change are
all within the range of their types. -/
structure Reaches (costs : SpendCosts) (sizeOfChange : ℕ) (feeRate : FeeRate)
    (required optional : List WeightedUtxo) : Prop where
  required_ok : required.mapM (OutputGroup.new costs feeRate : _ → Outcome InsufficientFunds _)
    = .ok (required.map (groupOf costs feeRate))
  optional_ok : optional.mapM (OutputGroup.new costs feeRate : _ → Outcome InsufficientFunds _)
    = .ok (optional.map (groupOf costs feeRate))
  value_ok : (sumEffective (required.map (groupOf costs feeRate)) : Outcome InsufficientFunds ℤ)
    = .ok (baseOf costs feeRate required)
  available_ok : (sumEffective (poolOf costs feeRate optional) : Outcome InsufficientFunds ℤ)
    = .ok (eff (poolOf costs feeRate optional))
  size_lt : sizeOfChange * 4 < 2 ^ 64
  total_mem : SignedAmount.InRange
    (eff (poolOf costs feeRate optional) + baseOf costs feeRate required)

theorem candidates_sublist (costs : SpendCosts) (feeRate : FeeRate) (optional : List WeightedUtxo) :
    (candidates costs feeRate optional).Sublist optional := List.filter_sublist

/-- The groups of the candidates are worth something. -/
theorem nonneg_of_mem_poolOf (costs : SpendCosts) (feeRate : FeeRate) (optional : List WeightedUtxo) :
    ∀ og ∈ poolOf costs feeRate optional, 0 ≤ og.effectiveValue := by
  intro og hog
  obtain ⟨w, hw, rfl⟩ := List.mem_map.mp hog
  exact le_of_lt (of_decide_eq_true (List.mem_filter.mp hw).2)

section Answers

variable {sorter : SortUnstable OutputGroup.effectiveValue} {algorithm : BranchAndBoundCoinSelection}
  {required optional : List WeightedUtxo} {targetAmount : ℕ} {drainScript : Script} {rand : Rng}

/-- The check before the search compares signed values. -/
theorem any_toUnsigned (total : ℤ) (targetAmount : ℕ) :
    (SignedAmount.toUnsigned total).any (fun v => targetAmount ≤ v)
      = decide ((targetAmount : ℤ) ≤ total) := by
  unfold SignedAmount.toUnsigned
  split
  · rw [Option.any_some, decide_eq_decide]
    omega
  · rw [Option.any_none, eq_comm, decide_eq_false_iff_not]
    omega

/-- **What coin selection does once it is there.** -/
theorem coinSelect_of_reaches (h : Reaches costs algorithm.sizeOfChange feeRate required optional)
    (hlen : (serializedLen drainScript + 8) * 4 < 2 ^ 64) :
    algorithm.coinSelect costs sorter required optional feeRate targetAmount drainScript rand
      = if (targetAmount : ℤ)
            ≤ eff (poolOf costs feeRate optional) + baseOf costs feeRate required then
          if (targetAmount : ℤ) < baseOf costs feeRate required then
            .ok (calculateCsResult [] (required.map (groupOf costs feeRate)) (excessOf costs feeRate
              drainScript (baseOf costs feeRate required - targetAmount).toNat))
          else
            match bnb costs sorter (required.map (groupOf costs feeRate))
              (poolOf costs feeRate optional) (baseOf costs feeRate required)
              (eff (poolOf costs feeRate optional)) targetAmount
              (feeRate.mulWeight (algorithm.sizeOfChange * 4)) drainScript feeRate with
            | .ok r => .ok r
            | .error (.error _) => algorithm.fallbackAlgorithm required optional feeRate
              targetAmount drainScript rand
            | .error (.panic msg) => .error (.panic msg)
        else (do
          let sums ← (required.map (groupOf costs feeRate) ++ poolOf costs feeRate optional).foldlM
            (fun ((fees, value) : ℕ × ℕ) u => do
              let fees ← Amount.add fees u.fee
              let value ← Amount.add value u.weightedUtxo.utxo.txout.value
              pure (fees, value)) (0, 0)
          let needed ← Amount.add targetAmount sums.1
          Outcome.err { needed, available := sums.2 }) := by
  obtain ⟨hreq, hopt, hvalue, havailable, hsize, htotal⟩ := h
  have hnonneg := eff_nonneg (nonneg_of_mem_poolOf costs feeRate optional)
  have hrange := htotal
  unfold SignedAmount.InRange at hrange
  have hweight : Weight.fromVb algorithm.sizeOfChange = some (algorithm.sizeOfChange * 4) :=
    Weight.fromVb_eq_some.mpr ⟨hsize, rfl⟩
  have hsigned : Amount.toSigned (feeRate.mulWeight (algorithm.sizeOfChange * 4))
      = some (feeRate.mulWeight (algorithm.sizeOfChange * 4) : ℤ) :=
    Amount.toSigned_eq_some.mpr ⟨(feeRate.mulWeight_lt _).trans (by decide), rfl⟩
  rw [BranchAndBoundCoinSelection.coinSelect, hreq, Outcome.ok_bind, hopt, Outcome.ok_bind]
  dsimp only
  rw [filter_groups, ← candidates, hvalue, Outcome.ok_bind, havailable, Outcome.ok_bind,
    Outcome.expect_eq_ok.mpr hweight, Outcome.ok_bind, Outcome.expect_eq_ok.mpr hsigned,
    Outcome.ok_bind, SignedAmount.add_eq_ok.mpr ⟨htotal, rfl⟩, Outcome.ok_bind, any_toUnsigned]
  by_cases hle : (targetAmount : ℤ)
      ≤ eff (poolOf costs feeRate optional) + baseOf costs feeRate required
  · have htarget : Amount.toSigned targetAmount = some (targetAmount : ℤ) :=
      Amount.toSigned_eq_some.mpr ⟨by omega, rfl⟩
    rw [if_pos (decide_eq_true hle), if_pos hle, Outcome.expect_eq_ok.mpr htarget, Outcome.ok_bind]
    split
    · have hrem : SignedAmount.toUnsigned (baseOf costs feeRate required - targetAmount)
          = some (baseOf costs feeRate required - targetAmount).toNat :=
        SignedAmount.toUnsigned_eq_some.mpr (by omega)
      obtain ⟨e, he⟩ : ∃ e, (decideChange costs (baseOf costs feeRate required - targetAmount).toNat
          feeRate drainScript : Outcome InsufficientFunds Excess) = .ok e := decideChange_ok hlen _
      have hsub : (SignedAmount.sub (baseOf costs feeRate required) targetAmount :
          Outcome InsufficientFunds ℤ) = .ok _ :=
        SignedAmount.sub_eq_ok.mpr ⟨⟨by omega, by omega⟩, rfl⟩
      rw [hsub, Outcome.ok_bind, Outcome.expect_eq_ok.mpr hrem, Outcome.ok_bind, he, Outcome.ok_bind,
        decideChange_eq_ok he]
      rfl
    · rfl
  · rw [if_neg (by rwa [decide_eq_true_eq]), if_neg hle]

/-- Within the money supply it gets there. -/
theorem WithinSupply.reaches {sizeOfChange : ℕ}
    (h : WithinSupply costs feeRate (required ++ optional)) (hsize : sizeOfChange * 4 < 2 ^ 64) :
    Reaches costs sizeOfChange feeRate required optional := by
  have hreq := h.of_subperm (List.sublist_append_left required optional).subperm
  have hopt := h.of_subperm (List.sublist_append_right required optional).subperm
  have hcand := hopt.of_subperm (candidates_sublist costs feeRate optional).subperm
  have hreqValue := hreq.value_le
  have hreqFees := hreq.fees_le
  have hcandValue := hcand.value_le
  have hcandFees := hcand.fees_le
  have hbase := baseOf_eq costs feeRate required
  have hsum := eff_poolOf costs feeRate optional
  refine ⟨mapM_new_ok hreq, mapM_new_ok hopt, sumEffective_ok hreq, sumEffective_ok hcand, hsize, ?_⟩
  constructor
  · omega
  · omega

/-- …and the search stays within its bounds. -/
theorem WithinSupply.bnbBounds (h : WithinSupply costs feeRate (required ++ optional))
    (htarget : targetAmount ≤ 21 * 10 ^ 14) (weight : ℕ) :
    BnbBounds (poolOf costs feeRate optional) (baseOf costs feeRate required) targetAmount
      (feeRate.mulWeight weight) := by
  have hcost := feeRate.mulWeight_lt weight
  have hreq := h.of_subperm (List.sublist_append_left required optional).subperm
  have hcand := h.of_subperm ((candidates_sublist costs feeRate optional).trans
    (List.sublist_append_right required optional)).subperm
  have hreqValue := hreq.value_le
  have hreqFees := hreq.fees_le
  have hcandValue := hcand.value_le
  have hbase := baseOf_eq costs feeRate required
  have hsum := eff_poolOf costs feeRate optional
  exact ⟨nonneg_of_mem_poolOf costs feeRate optional, by omega, by omega, by omega, by omega,
    by omega, by omega, by omega⟩

end Answers

/-- **Coin selection answers** when the coins together pay for the target and their own fees. -/
theorem coinSelect_ok {sorter : SortUnstable OutputGroup.effectiveValue} {sizeOfChange : ℕ}
    {required optional : List WeightedUtxo} {targetAmount : ℕ} {drainScript : Script}
    (hsize : sizeOfChange * 4 < 2 ^ 64)
    (hlen : (serializedLen drainScript + 8) * 4 < 2 ^ 64)
    (h : WithinSupply costs feeRate (required ++ optional))
    (henough : targetAmount + feesOf costs feeRate (required ++ optional)
      ≤ valueOf (required ++ optional)) (rand : Rng) :
    ∃ r, BranchAndBoundCoinSelection.coinSelect costs sorter
      ⟨sizeOfChange, SingleRandomDraw.coinSelect costs⟩ required optional feeRate targetAmount
        drainScript rand = .ok r := by
  have hvalue := h.value_le
  -- the coins worth spending are worth at least as much as all of them
  have htotal : (targetAmount : ℤ)
      ≤ eff (poolOf costs feeRate optional) + baseOf costs feeRate required := by
    have hall := eff_map_groupOf costs feeRate (required ++ optional)
    have hdrop : _ ≤ eff (poolOf costs feeRate optional) :=
      eff_le_eff_candidates costs feeRate optional
    rw [List.map_append, eff_append] at hall
    change baseOf costs feeRate required + _ = _ at hall
    omega
  rw [coinSelect_of_reaches (h.reaches hsize) hlen, if_pos htotal]
  split
  · exact ⟨_, rfl⟩
  · have hbounds := h.bnbBounds (by omega : targetAmount ≤ 21 * 10 ^ 14) (sizeOfChange * 4)
    split
    · exact ⟨_, rfl⟩
    · exact singleRandomDraw_ok hlen h henough rand
    · rename_i msg hpanic
      exact absurd hpanic (bnb_safe hbounds hlen msg)

end Bitspend.Wallet
