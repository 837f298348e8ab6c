import Bitspend.Wallet.BranchAndBound

/-!
# Wallet/SelectionSound — every satoshi of a selection is accounted for

A successful selection leaves by one of three exits: the required coins are worth more than the
target, branch and bound found a subset, or coins were drawn in a random order.  Each does its own
bookkeeping, in signed effective values or in unsigned totals.  All three come down to one equation
between natural numbers, in `Selects`: value = target + fees + remainder.
-/

namespace Bitspend.Wallet

variable {ε : Type} {costs : SpendCosts} {feeRate : FeeRate}

/-! ## Values and fees of coins -/

/-- The fee for spending a coin. -/
def feeOf (costs : SpendCosts) (feeRate : FeeRate) (w : WeightedUtxo) : ℕ :=
  feeRate.mulWeight (costs.segwitWeight + w.satisfactionWeight)

/-- The fees for spending a list of coins. -/
def feesOf (costs : SpendCosts) (feeRate : FeeRate) (ws : List WeightedUtxo) : ℕ :=
  (ws.map (feeOf costs feeRate)).sum

/-- The value of a list of coins. -/
def valueOf (ws : List WeightedUtxo) : ℕ := (ws.map fun w => w.utxo.txout.value).sum

@[simp] theorem feesOf_nil : feesOf costs feeRate [] = 0 := rfl

@[simp] theorem valueOf_nil : valueOf [] = 0 := rfl

@[simp] theorem feesOf_cons (w : WeightedUtxo) (ws : List WeightedUtxo) :
    feesOf costs feeRate (w :: ws) = feeOf costs feeRate w + feesOf costs feeRate ws := by
  simp [feesOf]

@[simp] theorem valueOf_cons (w : WeightedUtxo) (ws : List WeightedUtxo) :
    valueOf (w :: ws) = w.utxo.txout.value + valueOf ws := by
  simp [valueOf]

theorem sum_le_of_subperm {α : Type} {as bs : List α} (h : as.Subperm bs) (f : α → ℕ) :
    (as.map f).sum ≤ (bs.map f).sum := by
  obtain ⟨cs, hperm, hsub⟩ := h
  rw [← (hperm.map f).sum_eq]
  exact (hsub.map f).sum_le_sum fun _ _ => Nat.zero_le _

theorem subperm_map {α β : Type} {as bs : List α} (h : as.Subperm bs) (f : α → β) :
    (as.map f).Subperm (bs.map f) := by
  obtain ⟨cs, hperm, hsub⟩ := h
  exact ⟨cs.map f, hperm.map f, hsub.map f⟩

theorem valueOf_le_of_subperm {ws ws' : List WeightedUtxo} (h : ws.Subperm ws') :
    valueOf ws ≤ valueOf ws' := sum_le_of_subperm h _

theorem feesOf_le_of_subperm {ws ws' : List WeightedUtxo} (h : ws.Subperm ws') :
    feesOf costs feeRate ws ≤ feesOf costs feeRate ws' := sum_le_of_subperm h _

theorem inputFee_eq_ok {w : WeightedUtxo} {f : ℕ}
    (h : (inputFee costs feeRate w : Outcome ε ℕ) = .ok f) : f = feeOf costs feeRate w := by
  obtain ⟨weight, hweight, h⟩ := Outcome.bind_eq_ok.mp h
  obtain ⟨-, rfl⟩ := Weight.checkedAdd_eq_some.mp (Outcome.expect_eq_ok.mp hweight)
  cases h
  rfl

/-! ## Groups -/

/-- The group of a coin, without the range checks. -/
def groupOf (costs : SpendCosts) (feeRate : FeeRate) (w : WeightedUtxo) : OutputGroup :=
  { weightedUtxo := w, fee := feeOf costs feeRate w
    effectiveValue := (w.utxo.txout.value : ℤ) - feeOf costs feeRate w }

theorem OutputGroup.new_eq_ok {w : WeightedUtxo} {og : OutputGroup}
    (h : (OutputGroup.new costs feeRate w : Outcome ε OutputGroup) = .ok og) :
    og = groupOf costs feeRate w := by
  obtain ⟨f, hf, h⟩ := Outcome.bind_eq_ok.mp h
  obtain ⟨v, hv, h⟩ := Outcome.bind_eq_ok.mp h
  obtain ⟨g, hg, h⟩ := Outcome.bind_eq_ok.mp h
  obtain ⟨e, he, h⟩ := Outcome.bind_eq_ok.mp h
  cases h
  obtain rfl := inputFee_eq_ok hf
  obtain ⟨-, rfl⟩ := Amount.toSigned_eq_some.mp (Outcome.expect_eq_ok.mp hv)
  obtain ⟨-, rfl⟩ := Amount.toSigned_eq_some.mp (Outcome.expect_eq_ok.mp hg)
  obtain ⟨-, rfl⟩ := SignedAmount.sub_eq_ok.mp he
  rfl

theorem mapM_new_eq_ok {ws : List WeightedUtxo} {ogs : List OutputGroup}
    (h : ws.mapM (OutputGroup.new costs feeRate : WeightedUtxo → Outcome ε OutputGroup) = .ok ogs) :
    ogs = ws.map (groupOf costs feeRate) :=
  Outcome.mapM_eq_ok (fun _ _ => OutputGroup.new_eq_ok) h

/-- Some of the groups of coins are the groups of some of the coins. -/
theorem exists_coins_of_subperm {ogs : List OutputGroup} {ws : List WeightedUtxo}
    (h : ogs.Subperm (ws.map (groupOf costs feeRate))) :
    ∃ ws' : List WeightedUtxo, ws'.Subperm ws ∧ ogs = ws'.map (groupOf costs feeRate) := by
  refine ⟨ogs.map OutputGroup.weightedUtxo, ?_, ?_⟩
  · simpa [List.map_map, Function.comp_def, groupOf] using subperm_map h OutputGroup.weightedUtxo
  · rw [List.map_map]
    refine (List.map_id _).symm.trans (List.map_congr_left fun og hog => ?_)
    obtain ⟨w, -, rfl⟩ := List.mem_map.mp (h.subset hog)
    rfl

/-- The coins of a result made of groups. -/
theorem selected_calculateCsResult (ws required : List WeightedUtxo) (e : Excess) :
    (calculateCsResult (ws.map (groupOf costs feeRate)) (required.map (groupOf costs feeRate))
      e).selected = (ws ++ required).map WeightedUtxo.utxo := by
  rw [calculateCsResult, ← List.map_append, List.map_map]
  rfl

/-- **Effective value, in natural numbers**: a coin's value is its fee and what is left. -/
theorem eff_map_groupOf (costs : SpendCosts) (feeRate : FeeRate) (ws : List WeightedUtxo) :
    eff (ws.map (groupOf costs feeRate)) = (valueOf ws : ℤ) - feesOf costs feeRate ws := by
  induction ws with
  | nil => rfl
  | cons w ws ih =>
    rw [List.map_cons, eff_cons, ih, valueOf_cons, feesOf_cons, groupOf]
    push_cast
    omega

/-! ## Change -/

/-- The fee for an output with this script. -/
def changeFeeOf (feeRate : FeeRate) (drainScript : Script) : ℕ :=
  feeRate.mulWeight ((serializedLen drainScript + 8) * 4)

/-- **What an excess must say** about a remainder: change and its fee make it up, and the change is
worth an output; or the remainder could not have paid for such an output. -/
def Excess.Accounts (costs : SpendCosts) (feeRate : FeeRate) (drainScript : Script) (rem : ℕ) :
    Excess → Prop
  | .change amount fee => amount + fee = rem ∧ costs.minimalNonDust drainScript ≤ amount
  | .noChange dustThreshold remainingAmount changeFee =>
    remainingAmount = rem ∧ rem < changeFee + dustThreshold
      ∧ dustThreshold = costs.minimalNonDust drainScript
      ∧ changeFee = changeFeeOf feeRate drainScript

/-- The excess of a remainder, without the range check. -/
def excessOf (costs : SpendCosts) (feeRate : FeeRate) (drainScript : Script) (rem : ℕ) : Excess :=
  if rem - changeFeeOf feeRate drainScript < costs.minimalNonDust drainScript then
    .noChange (costs.minimalNonDust drainScript) rem (changeFeeOf feeRate drainScript)
  else .change (rem - changeFeeOf feeRate drainScript) (changeFeeOf feeRate drainScript)

theorem decideChange_eq_ok {rem : ℕ} {drainScript : Script} {e : Excess}
    (h : (decideChange costs rem feeRate drainScript : Outcome ε Excess) = .ok e) :
    e = excessOf costs feeRate drainScript rem := by
  obtain ⟨weight, hweight, h⟩ := Outcome.bind_eq_ok.mp h
  obtain ⟨-, rfl⟩ := Weight.fromVb_eq_some.mp (Outcome.expect_eq_ok.mp hweight)
  dsimp only at h
  -- `checked_sub(..).unwrap_or_default()` is truncated subtraction
  have hsub : (Amount.checkedSub rem (changeFeeOf feeRate drainScript)).getD 0
      = rem - changeFeeOf feeRate drainScript := by
    unfold Amount.checkedSub
    split
    · rfl
    · rw [Option.getD_none]
      omega
  rw [← changeFeeOf, hsub] at h
  unfold excessOf
  split at h
  · rename_i hsmall
    cases h
    rw [if_pos (by simpa [isDust] using hsmall)]
  · rename_i hlarge
    cases h
    rw [if_neg (by simpa [isDust] using hlarge)]

theorem accounts_excessOf {drainScript : Script} (hdust : 0 < costs.minimalNonDust drainScript)
    (rem : ℕ) :
    (excessOf costs feeRate drainScript rem).Accounts costs feeRate drainScript rem := by
  unfold excessOf
  split
  · exact ⟨rfl, by omega, rfl, rfl⟩
  · exact ⟨by omega, by omega⟩

/-! ## The account of a selection -/

/-- **What every exit establishes**: the coins `ws` of the result, and the equation
value = target + fees + remainder. -/
structure Selects (costs : SpendCosts) (feeRate : FeeRate) (targetAmount : ℕ)
    (drainScript : Script) (required optional ws : List WeightedUtxo) (rem : ℕ)
    (r : CoinSelectionResult) : Prop where
  selected_eq : r.selected = ws.map WeightedUtxo.utxo
  subperm : ws.Subperm (required ++ optional)
  required_subperm : required.Subperm ws
  fee_eq : r.feeAmount = feesOf costs feeRate ws % 2 ^ 64
  balanced : valueOf ws = targetAmount + feesOf costs feeRate ws + rem
  excess_eq : r.excess = excessOf costs feeRate drainScript rem

/-- **The account of a selection** `ws` made from required and optional coins. -/
structure Accounted (costs : SpendCosts) (feeRate : FeeRate) (targetAmount : ℕ)
    (drainScript : Script) (required optional ws : List WeightedUtxo) (r : CoinSelectionResult) :
    Prop where
  selected_eq : r.selected = ws.map WeightedUtxo.utxo
  subperm : ws.Subperm (required ++ optional)
  required_subperm : required.Subperm ws
  fee_eq : r.feeAmount = feesOf costs feeRate ws
  covers : targetAmount + r.feeAmount ≤ r.selectedAmount
  excess : r.excess.Accounts costs feeRate drainScript
    (r.selectedAmount - targetAmount - r.feeAmount)

/-- **From the equation to the account**, once the totals stay within the money supply. -/
theorem Selects.accounted {targetAmount rem : ℕ} {drainScript : Script}
    {required optional ws : List WeightedUtxo} {r : CoinSelectionResult}
    (h : Selects costs feeRate targetAmount drainScript required optional ws rem r)
    (hdust : 0 < costs.minimalNonDust drainScript)
    (hvalue : valueOf (required ++ optional) ≤ 21 * 10 ^ 14) :
    Accounted costs feeRate targetAmount drainScript required optional ws r := by
  have hle := valueOf_le_of_subperm h.subperm
  have hbal := h.balanced
  have hamount : r.selectedAmount = valueOf ws := by
    have hsum : (r.selected.map fun u => u.txout.value).sum = valueOf ws := by
      rw [h.selected_eq, List.map_map]
      rfl
    rw [CoinSelectionResult.selectedAmount, Amount.sum_of_lt (by omega), hsum]
  have hfee : r.feeAmount = feesOf costs feeRate ws := by
    rw [h.fee_eq, Nat.mod_eq_of_lt (by omega)]
  refine ⟨h.selected_eq, h.subperm, h.required_subperm, hfee, by omega, ?_⟩
  rw [show r.selectedAmount - targetAmount - r.feeAmount = rem by omega, h.excess_eq]
  exact accounts_excessOf hdust rem

/-! ## The exits -/

section Exits

variable {targetAmount : ℕ} {drainScript : Script} {required optional : List WeightedUtxo}

/-- **A selection of groups whose effective value is the target and a remainder.** -/
theorem Selects.of_groups {ws : List WeightedUtxo} {rem : ℕ} {e : Excess}
    (hws : ws.Subperm optional)
    (heff : eff ((ws ++ required).map (groupOf costs feeRate)) = (targetAmount : ℤ) + rem)
    (hexcess : e = excessOf costs feeRate drainScript rem) :
    Selects costs feeRate targetAmount drainScript required optional (ws ++ required) rem
      (calculateCsResult (ws.map (groupOf costs feeRate)) (required.map (groupOf costs feeRate))
        e) where
  selected_eq := selected_calculateCsResult ws required e
  subperm := List.perm_append_comm.subperm.trans ((List.subperm_append_left required).mpr hws)
  required_subperm := (List.sublist_append_right ws required).subperm
  fee_eq := by
    simp only [calculateCsResult, ← List.map_append, List.map_map]
    rfl
  balanced := by
    rw [eff_map_groupOf] at heff
    omega
  excess_eq := hexcess

/-- **Branch and bound**: the best selection is worth its recorded value. -/
theorem bnb_selects {sorter : SortUnstable OutputGroup.effectiveValue} {costOfChange : ℤ}
    {r : CoinSelectionResult} {candidates : List WeightedUtxo} (hcand : candidates.Subperm optional)
    (h : bnb costs sorter (required.map (groupOf costs feeRate))
      (candidates.map (groupOf costs feeRate)) (eff (required.map (groupOf costs feeRate)))
      (eff (candidates.map (groupOf costs feeRate))) targetAmount costOfChange drainScript feeRate
        = .ok r) :
    ∃ ws rem, Selects costs feeRate targetAmount drainScript required optional ws rem r := by
  obtain ⟨s, hs, h⟩ := Outcome.bind_eq_ok.mp h
  have hinv := (BnbInv.start sorter (candidates.map (groupOf costs feeRate)) _ _ _).loop hs
  split at h
  · cases h
  obtain ⟨v, hv, h⟩ := Outcome.bind_eq_ok.mp h
  obtain ⟨d, hd, h⟩ := Outcome.bind_eq_ok.mp h
  obtain ⟨rem, hrem, h⟩ := Outcome.bind_eq_ok.mp h
  obtain ⟨e, he, h⟩ := Outcome.bind_eq_ok.mp h
  cases h
  obtain ⟨hval, -, -⟩ := hinv.best_some v (Outcome.expect_eq_ok.mp hv)
  obtain ⟨-, rfl⟩ := SignedAmount.sub_eq_ok.mp hd
  have hdiff := SignedAmount.toUnsigned_eq_some.mp (Outcome.expect_eq_ok.mp hrem)
  -- the marked groups are the groups of some of the candidates
  have hpick : (pick (searchOrder sorter (candidates.map (groupOf costs feeRate)))
      s.bestSelection.reverse).Subperm (candidates.map (groupOf costs feeRate)) :=
    (pick_sublist _ _).subperm.trans (searchOrder_perm sorter _).subperm
  obtain ⟨ws, hws, hmap⟩ := exists_coins_of_subperm hpick
  refine ⟨ws ++ required, rem, ?_⟩
  rw [← searchOrder, hmap]
  refine .of_groups (hws.trans hcand) ?_ (decideChange_eq_ok he)
  rw [List.map_append, eff_append, ← hmap]
  unfold marked at hval
  omega

/-- The scan takes a prefix and adds up what it takes. -/
theorem scanSorted_eq_ok {utxos : List (Bool × WeightedUtxo)} {a f : ℕ}
    {p : List WeightedUtxo × ℕ × ℕ}
    (h : (scanSorted costs feeRate targetAmount utxos a f : Outcome ε _) = .ok p) :
    p.1 <+: utxos.map Prod.snd ∧ p.2.1 = a + valueOf p.1 ∧ p.2.2 = f + feesOf costs feeRate p.1 := by
  induction utxos generalizing a f p with
  | nil =>
    cases h
    simp
  | cons u utxos ih =>
    obtain ⟨mustUse, w⟩ := u
    rw [scanSorted] at h
    obtain ⟨needed, -, h⟩ := Outcome.bind_eq_ok.mp h
    cases needed with
    | false =>
      cases h
      simp
    | true =>
      obtain ⟨fee, hfee, h⟩ := Outcome.bind_eq_ok.mp h
      obtain ⟨f', hf', h⟩ := Outcome.bind_eq_ok.mp h
      obtain ⟨a', ha', h⟩ := Outcome.bind_eq_ok.mp h
      obtain ⟨⟨ws, a'', f''⟩, hrest, h⟩ := Outcome.bind_eq_ok.mp h
      cases h
      obtain ⟨hfirst, hval, hfees⟩ := ih hrest
      obtain rfl := inputFee_eq_ok hfee
      obtain ⟨-, rfl⟩ := Amount.add_eq_ok.mp hf'
      obtain ⟨-, rfl⟩ := Amount.add_eq_ok.mp ha'
      refine ⟨by simpa using hfirst, ?_, ?_⟩
      · simp only [valueOf_cons] at hval ⊢
        omega
      · simp only [feesOf_cons] at hfees ⊢
        omega

/-- Required coins in front are all taken. -/
theorem scanSorted_required {rest : List (Bool × WeightedUtxo)} {a f : ℕ}
    {p : List WeightedUtxo × ℕ × ℕ}
    (h : (scanSorted costs feeRate targetAmount (required.map (fun u => (true, u)) ++ rest) a f :
      Outcome ε _) = .ok p) : required <+: p.1 := by
  induction required generalizing a f p with
  | nil => exact List.nil_prefix
  | cons w required ih =>
    rw [List.map_cons, List.cons_append, scanSorted] at h
    obtain ⟨needed, hneeded, h⟩ := Outcome.bind_eq_ok.mp h
    cases hneeded
    obtain ⟨fee, -, h⟩ := Outcome.bind_eq_ok.mp h
    obtain ⟨f', -, h⟩ := Outcome.bind_eq_ok.mp h
    obtain ⟨a', -, h⟩ := Outcome.bind_eq_ok.mp h
    obtain ⟨⟨ws, a'', f''⟩, hrest, h⟩ := Outcome.bind_eq_ok.mp h
    cases h
    simpa using ih hrest

theorem swapIfInBounds_perm {α : Type} (list : Array α) (i j : ℕ) :
    (list.swapIfInBounds i j).Perm list := by
  rw [Array.swapIfInBounds_def]
  split
  · split
    · exact Array.swap_perm _ _
    · exact .refl _
  · exact .refl _

theorem shuffleFrom_perm {α : Type} (i : ℕ) (list : Array α) (rng : Rng) :
    (shuffleFrom i list rng).Perm list := by
  induction i generalizing list rng with
  | zero => exact .refl _
  | succ i ih => exact (ih _ _).trans (swapIfInBounds_perm _ _ _)

/-- **The shuffle loses and duplicates nothing.** -/
theorem shuffleSlice_perm {α : Type} (list : List α) (rng : Rng) : (shuffleSlice list rng).Perm list :=
  (shuffleFrom_perm _ _ rng).toList

/-- **The random draw.** -/
theorem singleRandomDraw_selects {rand : Rng} {r : CoinSelectionResult}
    (h : SingleRandomDraw.coinSelect costs required optional feeRate targetAmount drainScript rand
      = .ok r) :
    ∃ ws rem, Selects costs feeRate targetAmount drainScript required optional ws rem r := by
  obtain ⟨⟨ws, a, f⟩, hscan, h⟩ := Outcome.bind_eq_ok.mp h
  obtain ⟨hfirst, hval, hfees⟩ := scanSorted_eq_ok hscan
  have hreq := scanSorted_required hscan
  obtain ⟨needed, hneeded, h⟩ := Outcome.bind_eq_ok.mp h
  obtain ⟨hlt, rfl⟩ := Amount.add_eq_ok.mp hneeded
  dsimp only at h hval hfees
  split at h
  · cases h
  rename_i henough
  obtain ⟨rem, hrem, h⟩ := Outcome.bind_eq_ok.mp h
  obtain ⟨e, he, h⟩ := Outcome.bind_eq_ok.mp h
  cases h
  obtain ⟨-, rfl⟩ := Amount.sub_eq_ok.mp hrem
  have hall : ws <+: required ++ shuffleSlice optional rand := by
    simpa [Function.comp_def] using hfirst
  refine ⟨ws, _, rfl, ?_, hreq.sublist.subperm, ?_, ?_, decideChange_eq_ok he⟩
  · exact hall.sublist.subperm.trans
      ((List.Perm.refl required).append (shuffleSlice_perm optional rand)).subperm
  · rw [zero_add] at hfees
    rw [← hfees, Nat.mod_eq_of_lt (by omega)]
  · omega

end Exits

/-! ## Coin selection -/

/-- The groups of the coins with a positive effective value. -/
theorem filter_groups (ws : List WeightedUtxo) :
    (ws.map (groupOf costs feeRate)).filter (fun u => 0 < u.effectiveValue)
      = (ws.filter fun w => 0 < (groupOf costs feeRate w).effectiveValue).map
          (groupOf costs feeRate) :=
  List.filter_map

/-- The optional coins that branch and bound searches. -/
def candidates (costs : SpendCosts) (feeRate : FeeRate) (optional : List WeightedUtxo) :
    List WeightedUtxo :=
  optional.filter fun w => 0 < (groupOf costs feeRate w).effectiveValue

/-- **The three exits**: the required coins are worth more than the target; branch and bound
answers; the fallback answers. -/
theorem coinSelect_cases {sorter : SortUnstable OutputGroup.effectiveValue}
    {algorithm : BranchAndBoundCoinSelection} {required optional : List WeightedUtxo}
    {targetAmount : ℕ} {drainScript : Script} {rand : Rng} {r : CoinSelectionResult}
    (h : algorithm.coinSelect costs sorter required optional feeRate targetAmount drainScript rand
      = .ok r) :
    (∃ rem e, eff (required.map (groupOf costs feeRate)) = (targetAmount : ℤ) + (rem : ℕ)
      ∧ (decideChange costs rem feeRate drainScript : Outcome InsufficientFunds Excess) = .ok e
      ∧ r = calculateCsResult [] (required.map (groupOf costs feeRate)) e)
    ∨ (∃ costOfChange, bnb costs sorter (required.map (groupOf costs feeRate))
        ((candidates costs feeRate optional).map (groupOf costs feeRate))
        (eff (required.map (groupOf costs feeRate)))
        (eff ((candidates costs feeRate optional).map (groupOf costs feeRate)))
        targetAmount costOfChange drainScript feeRate = .ok r)
    ∨ algorithm.fallbackAlgorithm required optional feeRate targetAmount drainScript rand
        = .ok r := by
  obtain ⟨requiredOgs, hreq, h⟩ := Outcome.bind_eq_ok.mp h
  obtain rfl := mapM_new_eq_ok hreq
  obtain ⟨optionalOgs, hopt, h⟩ := Outcome.bind_eq_ok.mp h
  obtain rfl := mapM_new_eq_ok hopt
  rw [filter_groups, ← candidates] at h
  obtain ⟨currValue, hcurr, h⟩ := Outcome.bind_eq_ok.mp h
  obtain rfl := sumEffective_eq_ok hcurr
  obtain ⟨available, havail, h⟩ := Outcome.bind_eq_ok.mp h
  obtain rfl := sumEffective_eq_ok havail
  obtain ⟨weight, -, h⟩ := Outcome.bind_eq_ok.mp h
  obtain ⟨cost, -, h⟩ := Outcome.bind_eq_ok.mp h
  obtain ⟨total, -, h⟩ := Outcome.bind_eq_ok.mp h
  dsimp only at h
  split at h
  · obtain ⟨signedTarget, hsigned, h⟩ := Outcome.bind_eq_ok.mp h
    obtain ⟨-, rfl⟩ := Amount.toSigned_eq_some.mp (Outcome.expect_eq_ok.mp hsigned)
    split at h
    · obtain ⟨d, hd, h⟩ := Outcome.bind_eq_ok.mp h
      obtain ⟨rem, hrem, h⟩ := Outcome.bind_eq_ok.mp h
      obtain ⟨e, he, h⟩ := Outcome.bind_eq_ok.mp h
      cases h
      obtain ⟨-, rfl⟩ := SignedAmount.sub_eq_ok.mp hd
      have hdiff := SignedAmount.toUnsigned_eq_some.mp (Outcome.expect_eq_ok.mp hrem)
      exact .inl ⟨rem, e, by omega, he, rfl⟩
    · split at h
      · rename_i r' hbnb
        cases h
        exact .inr (.inl ⟨cost, hbnb⟩)
      · exact .inr (.inr h)
      · cases h
  · obtain ⟨sums, -, h⟩ := Outcome.bind_eq_ok.mp h
    obtain ⟨needed, -, h⟩ := Outcome.bind_eq_ok.mp h
    cases h

/-- **Whichever exit is taken, the equation holds.** -/
theorem coinSelect_selects {sorter : SortUnstable OutputGroup.effectiveValue} {sizeOfChange : ℕ}
    {required optional : List WeightedUtxo} {targetAmount : ℕ} {drainScript : Script} {rand : Rng}
    {r : CoinSelectionResult}
    (h : BranchAndBoundCoinSelection.coinSelect costs sorter
      ⟨sizeOfChange, SingleRandomDraw.coinSelect costs⟩ required optional feeRate targetAmount
        drainScript rand = .ok r) :
    ∃ ws rem, Selects costs feeRate targetAmount drainScript required optional ws rem r := by
  obtain ⟨rem, e, heff, he, rfl⟩ | ⟨cost, hbnb⟩ | hdraw := coinSelect_cases h
  · refine ⟨[] ++ required, rem, .of_groups List.nil_subperm ?_ (decideChange_eq_ok he)⟩
    rw [List.nil_append, heff]
  · exact bnb_selects List.filter_sublist.subperm hbnb
  · exact singleRandomDraw_selects hdraw

/-- **Coin selection accounts for every satoshi**: the coins selected are coins it was given, each
at most as often, with all the required ones among them; the fee is the sum of their fees; their
value covers the target and the fee; and what remains is change worth an output with the fee for
it, or too little for that. -/
theorem coinSelect_accounted (costs : SpendCosts) (sorter : SortUnstable OutputGroup.effectiveValue)
    (sizeOfChange : ℕ) (required optional : List WeightedUtxo) (feeRate : FeeRate)
    (targetAmount : ℕ) (drainScript : Script) (rand : Rng) (r : CoinSelectionResult)
    (hdust : 0 < costs.minimalNonDust drainScript)
    (hvalue : valueOf (required ++ optional) ≤ 21 * 10 ^ 14)
    (h : BranchAndBoundCoinSelection.coinSelect costs sorter
      ⟨sizeOfChange, SingleRandomDraw.coinSelect costs⟩ required optional feeRate targetAmount
        drainScript rand = .ok r) :
    ∃ ws, Accounted costs feeRate targetAmount drainScript required optional ws r := by
  obtain ⟨ws, rem, hws⟩ := coinSelect_selects h
  exact ⟨ws, hws.accounted hdust hvalue⟩

/-- The costs of P2WPKH spending. -/
def sampleCosts : SpendCosts := { segwitWeight := 165, minimalNonDust := fun _ => 294 }

/-- A coin worth one hundred thousand satoshis. -/
def sampleCoin : WeightedUtxo :=
  { satisfactionWeight := 0
    utxo :=
      { outpoint := ⟨⟨List.replicate 32 7, by simp⟩, 0⟩
        txout := { value := 100000, scriptPubkey := 0 :: 20 :: List.replicate 20 3 }
        keychain := .external, isSpent := false, derivationIndex := 0, chainPosition := none } }

/-- A coin worth a given amount. -/
def coinWorth (value : ℕ) : WeightedUtxo :=
  { sampleCoin with utxo := { sampleCoin.utxo with
      txout := { sampleCoin.utxo.txout with value } } }

/-- Sending ten thousand satoshis at three satoshis a virtual byte: two coins have to be spent, and of three
others one is drawn. -/
theorem coinSelect_accounted_sampleCoins :
    ∃ ws, Accounted sampleCosts ⟨750⟩ 10000 (0 :: 20 :: List.replicate 20 5)
      [coinWorth 2000, coinWorth 700] [coinWorth 5000, coinWorth 9000, coinWorth 10] ws
      { selected := [2000, 700, 9000].map fun value => (coinWorth value).utxo
        feeAmount := 372
        excess := .change 1235 93 } := by
  refine coinSelect_accounted sampleCosts (.insertion _) 31 _ _ ⟨750⟩ 10000 (0 :: 20 :: List.replicate 20 5)
    (fun _ => 0) _ (by decide) (by decide) ?_
  decide +kernel

end Bitspend.Wallet
