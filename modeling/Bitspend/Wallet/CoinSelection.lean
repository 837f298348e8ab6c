import Bitspend.Machinery.Slice
import Bitspend.Wallet.Types
import Bitspend.Wire.Basic

/-!
# Wallet/CoinSelection — choosing the coins to spend

`crates/wallet/src/coin_selection.rs` and the shuffle of `utils.rs`.  A selection has a *target* —
the outgoing amount — and each coin costs a fee to spend, so a coin is worth its **effective
value**, what it holds less that fee.  Branch and bound searches the optional coins depth first for
a subset that meets the target without change; when it finds none, coins are drawn in a random
order until the target is met.
-/

namespace Bitspend.Wallet

variable {ε : Type}

/-! ## Results -/

/-- What the selection asks of `bitcoin` about spending: the weight of an input with neither script
nor witness, and the least value worth an output with a given script. -/
structure SpendCosts where
  /-- `TxIn::default().segwit_weight()`. -/
  segwitWeight : ℕ
  /-- `Script::minimal_non_dust`. -/
  minimalNonDust : Script → ℕ

/-- A random source: the results of its successive `next_u32` calls. -/
abbrev Rng := ℕ → UInt32

/-- `InsufficientFunds`. -/
structure InsufficientFunds where
  needed : ℕ
  available : ℕ
  deriving Repr, DecidableEq, Inhabited

/-- `Excess`: what becomes of the amount left over. -/
inductive Excess where
  | noChange (dustThreshold remainingAmount changeFee : ℕ)
  | change (amount fee : ℕ)
  deriving Repr, DecidableEq, Inhabited

/-- `CoinSelectionResult`. -/
structure CoinSelectionResult where
  selected : List Utxo
  feeAmount : ℕ
  excess : Excess
  deriving Repr, DecidableEq, Inhabited

/-- `CoinSelectionResult::selected_amount`. -/
def CoinSelectionResult.selectedAmount (r : CoinSelectionResult) : ℕ :=
  Amount.sum (r.selected.map fun u => u.txout.value)

/-- `CoinSelectionAlgorithm::coin_select`: required coins, optional coins, fee rate, target amount,
drain script, random source. -/
abbrev CoinSelectionAlgorithm :=
  List WeightedUtxo → List WeightedUtxo → FeeRate → ℕ → Script → Rng →
    Outcome InsufficientFunds CoinSelectionResult

/-! ## Change -/

/-- `Amount::is_dust`. -/
def isDust (costs : SpendCosts) (a : ℕ) (script : Script) : Bool := a < costs.minimalNonDust script

/-- `serialize(script).len()`: the length prefix and the bytes. -/
def serializedLen (script : Script) : ℕ := VarInt.sizeLen script + script.length

/-- `decide_change`. -/
def decideChange (costs : SpendCosts) (remainingAmount : ℕ) (feeRate : FeeRate)
    (drainScript : Script) : Outcome ε Excess := do
  let drainOutputLen := serializedLen drainScript + 8
  let weight ← Outcome.expect "overflow occurred" (Weight.fromVb drainOutputLen)
  let changeFee := feeRate.mulWeight weight
  let drainVal := (Amount.checkedSub remainingAmount changeFee).getD 0
  if isDust costs drainVal drainScript then
    pure (.noChange (costs.minimalNonDust drainScript) remainingAmount changeFee)
  else
    pure (.change drainVal changeFee)

/-! ## Drawing coins in a given order -/

/-- The fee for spending a coin: `fee_rate * (segwit_weight + satisfaction_weight)`. -/
def inputFee (costs : SpendCosts) (feeRate : FeeRate) (w : WeightedUtxo) : Outcome ε ℕ := do
  let weight ← Outcome.expect "`Weight` addition should not cause an integer overflow"
    (Weight.checkedAdd costs.segwitWeight w.satisfactionWeight)
  pure (feeRate.mulWeight weight)

/-- `must_use || selected_amount < target_amount + fee_amount`. -/
def stillNeeded (targetAmount : ℕ) (mustUse : Bool) (selectedAmount feeAmount : ℕ) :
    Outcome ε Bool :=
  if mustUse then pure true else do
    let threshold ← Amount.add targetAmount feeAmount
    pure (selectedAmount < threshold)

/-- The `scan` of `select_sorted_utxos`, from the amounts selected and paid so far: it ends at the
first coin that is not required and not needed. -/
def scanSorted (costs : SpendCosts) (feeRate : FeeRate) (targetAmount : ℕ) :
    List (Bool × WeightedUtxo) → ℕ → ℕ → Outcome ε (List WeightedUtxo × ℕ × ℕ)
  | [], selectedAmount, feeAmount => pure ([], selectedAmount, feeAmount)
  | (mustUse, w) :: rest, selectedAmount, feeAmount => do
    if ← stillNeeded targetAmount mustUse selectedAmount feeAmount then
      let fee ← inputFee costs feeRate w
      let feeAmount ← Amount.add feeAmount fee
      let selectedAmount ← Amount.add selectedAmount w.utxo.txout.value
      let (selected, amounts) ← scanSorted costs feeRate targetAmount rest selectedAmount feeAmount
      pure (w :: selected, amounts)
    else
      pure ([], selectedAmount, feeAmount)

/-- `select_sorted_utxos`. -/
def selectSortedUtxos (costs : SpendCosts) (utxos : List (Bool × WeightedUtxo)) (feeRate : FeeRate)
    (targetAmount : ℕ) (drainScript : Script) : Outcome InsufficientFunds CoinSelectionResult := do
  let (selected, selectedAmount, feeAmount) ← scanSorted costs feeRate targetAmount utxos 0 0
  let amountNeededWithFees ← Amount.add targetAmount feeAmount
  if selectedAmount < amountNeededWithFees then
    Outcome.err { needed := amountNeededWithFees, available := selectedAmount }
  else
    let remainingAmount ← Amount.sub selectedAmount amountNeededWithFees
    let excess ← decideChange costs remainingAmount feeRate drainScript
    pure { selected := selected.map WeightedUtxo.utxo, feeAmount, excess }

/-- The loop of `shuffle_slice`, from `current_index` down to `1`. -/
def shuffleFrom {α : Type} : ℕ → Array α → Rng → Array α
  | 0, list, _ => list
  | currentIndex + 1, list, rng =>
    let randomIndex := (rng 0).toNat % (currentIndex + 1 + 1)
    shuffleFrom currentIndex (list.swapIfInBounds (currentIndex + 1) randomIndex)
      fun i => rng (i + 1)

/-- `shuffle_slice`. -/
def shuffleSlice {α : Type} (list : List α) (rng : Rng) : List α :=
  (shuffleFrom (list.length - 1) list.toArray rng).toList

/-- `SingleRandomDraw::coin_select`. -/
def SingleRandomDraw.coinSelect (costs : SpendCosts) : CoinSelectionAlgorithm :=
  fun requiredUtxos optionalUtxos feeRate targetAmount drainScript rand =>
    let utxos := requiredUtxos.map (fun u => (true, u))
      ++ (shuffleSlice optionalUtxos rand).map fun u => (false, u)
    selectSortedUtxos costs utxos feeRate targetAmount drainScript

/-! ## Branch and bound -/

/-- `OutputGroup`: a coin with the fee for spending it and its effective value. -/
structure OutputGroup where
  weightedUtxo : WeightedUtxo
  fee : ℕ
  effectiveValue : ℤ
  deriving Repr, DecidableEq, Inhabited

/-- `OutputGroup::new`. -/
def OutputGroup.new (costs : SpendCosts) (feeRate : FeeRate) (w : WeightedUtxo) :
    Outcome ε OutputGroup := do
  let fee ← inputFee costs feeRate w
  let value ← Outcome.expect "signed amount" (Amount.toSigned w.utxo.txout.value)
  let signedFee ← Outcome.expect "signed amount" (Amount.toSigned fee)
  let effectiveValue ← SignedAmount.sub value signedFee
  pure { weightedUtxo := w, fee, effectiveValue }

/-- `BnbError`. -/
inductive BnbError where
  | noExactMatch
  | totalTriesExceeded
  deriving Repr, DecidableEq, Inhabited

/-- `BranchAndBoundCoinSelection`. -/
structure BranchAndBoundCoinSelection where
  sizeOfChange : ℕ
  fallbackAlgorithm : CoinSelectionAlgorithm

/-- `BNB_TOTAL_TRIES`. -/
def BNB_TOTAL_TRIES : ℕ := 100000

/-- The locals of the search loop.  `current_selection` is a stack: its last element stands first
here, and so for the copy kept in `best_selection`. -/
structure BnbState where
  currentSelection : List Bool
  currValue : ℤ
  currAvailableValue : ℤ
  bestSelection : List Bool
  bestSelectionValue : Option ℤ
  deriving Repr, DecidableEq, Inhabited

/-- How one pass of the loop ends. -/
inductive BnbFlow where
  | next (s : BnbState)
  | stop (s : BnbState)
  deriving Repr, DecidableEq, Inhabited

/-- `optional_utxos[i]`. -/
def groupAt (ogs : List OutputGroup) (i : ℕ) : Outcome ε OutputGroup :=
  Outcome.expect "index out of bounds" ogs[i]?

/-- The `while` loop that walks back over the omitted coins. -/
def walkBack (ogs : List OutputGroup) : List Bool → ℤ → Outcome ε (List Bool × ℤ)
  | false :: selection, available => do
    let utxo ← groupAt ogs selection.length
    walkBack ogs selection (← SignedAmount.add available utxo.effectiveValue)
  | selection, available => pure (selection, available)

/-- Backtracking: the last included coin is omitted instead. -/
def backtrack (ogs : List OutputGroup) (s : BnbState) : Outcome BnbError BnbFlow := do
  let (selection, available) ← walkBack ogs s.currentSelection s.currAvailableValue
  match selection with
  | [] =>
    if s.bestSelection.isEmpty then Outcome.err .noExactMatch
    else pure (.stop { s with currentSelection := [], currAvailableValue := available })
  | _ :: selection =>
    let utxo ← groupAt ogs selection.length
    let value ← SignedAmount.sub s.currValue utxo.effectiveValue
    pure (.next { s with
      currentSelection := false :: selection
      currValue := value
      currAvailableValue := available })

/-- Moving forwards: the next coin is included. -/
def forward (ogs : List OutputGroup) (s : BnbState) : Outcome BnbError BnbFlow := do
  let utxo ← groupAt ogs s.currentSelection.length
  let available ← SignedAmount.sub s.currAvailableValue utxo.effectiveValue
  let value ← SignedAmount.add s.currValue utxo.effectiveValue
  pure (.next { s with
    currentSelection := true :: s.currentSelection
    currValue := value
    currAvailableValue := available })

/-- The current selection becomes the best one, when it is the first or is worth less. -/
def BnbState.keepBest (s : BnbState) : BnbState :=
  if s.bestSelectionValue.all fun best => s.currValue < best then
    { s with bestSelection := s.currentSelection, bestSelectionValue := some s.currValue }
  else s

/-- The test for leaving a branch: the target cannot be reached any more, or the value is past it by
more than the cost of change. -/
def outOfRange (targetAmount costOfChange : ℤ) (s : BnbState) : Outcome ε Bool := do
  let reachable ← SignedAmount.add s.currValue s.currAvailableValue
  if reachable < targetAmount then pure true
  else
    let highest ← SignedAmount.add targetAmount costOfChange
    pure (highest < s.currValue)

/-- One pass of the search loop. -/
def bnbStep (ogs : List OutputGroup) (targetAmount costOfChange : ℤ) (s : BnbState) :
    Outcome BnbError BnbFlow := do
  if ← outOfRange targetAmount costOfChange s then
    backtrack ogs s
  else if targetAmount ≤ s.currValue then
    if s.currValue = targetAmount then pure (.stop s.keepBest) else backtrack ogs s.keepBest
  else
    forward ogs s

/-- The search loop, with the passes it has left. -/
def bnbLoop (ogs : List OutputGroup) (targetAmount costOfChange : ℤ) :
    ℕ → BnbState → Outcome BnbError BnbState
  | 0, s => pure s
  | tries + 1, s => do
    match ← bnbStep ogs targetAmount costOfChange s with
    | .next s => bnbLoop ogs targetAmount costOfChange tries s
    | .stop s => pure s

/-- `optional_utxos.into_iter().zip(best_selection).filter_map(..)`: the coins marked `true`. -/
def pick (ogs : List OutputGroup) (selection : List Bool) : List OutputGroup :=
  (ogs.zip selection).filterMap fun (og, isInBest) => if isInBest then some og else none

/-- `calculate_cs_result`. -/
def calculateCsResult (selectedUtxos requiredUtxos : List OutputGroup) (excess : Excess) :
    CoinSelectionResult :=
  let selectedUtxos := selectedUtxos ++ requiredUtxos
  { selected := selectedUtxos.map fun u => u.weightedUtxo.utxo
    feeAmount := Amount.sum (selectedUtxos.map OutputGroup.fee)
    excess }

/-- `BranchAndBoundCoinSelection::bnb`. -/
def bnb (costs : SpendCosts) (sorter : SortUnstable OutputGroup.effectiveValue)
    (requiredUtxos optionalUtxos : List OutputGroup) (currValue currAvailableValue : ℤ)
    (targetAmount costOfChange : ℤ) (drainScript : Script) (feeRate : FeeRate) :
    Outcome BnbError CoinSelectionResult := do
  let optionalUtxos := (sorter.sort optionalUtxos).reverse
  let s ← bnbLoop optionalUtxos targetAmount costOfChange BNB_TOTAL_TRIES
    { currentSelection := [], currValue, currAvailableValue
      bestSelection := [], bestSelectionValue := none }
  if s.bestSelection.isEmpty then Outcome.err .totalTriesExceeded
  else
    let selectedUtxos := pick optionalUtxos s.bestSelection.reverse
    let selectedAmount ← Outcome.expect "called `Option::unwrap()` on a `None` value"
      s.bestSelectionValue
    let difference ← SignedAmount.sub selectedAmount targetAmount
    let remainingAmount ← Outcome.expect "valid unsigned" (SignedAmount.toUnsigned difference)
    let excess ← decideChange costs remainingAmount feeRate drainScript
    pure (calculateCsResult selectedUtxos requiredUtxos excess)

/-- `acc + x.effective_value`, over a list of groups. -/
def sumEffective (ogs : List OutputGroup) : Outcome ε ℤ :=
  ogs.foldlM (fun acc x => SignedAmount.add acc x.effectiveValue) 0

/-- `BranchAndBoundCoinSelection::coin_select`. -/
def BranchAndBoundCoinSelection.coinSelect (costs : SpendCosts)
    (sorter : SortUnstable OutputGroup.effectiveValue) (algorithm : BranchAndBoundCoinSelection) :
    CoinSelectionAlgorithm :=
  fun requiredUtxos optionalUtxos feeRate targetAmount drainScript rand => do
    let requiredOgs ← requiredUtxos.mapM (OutputGroup.new costs feeRate)
    let optionalOgs := (← optionalUtxos.mapM (OutputGroup.new costs feeRate)).filter
      fun u => 0 < u.effectiveValue
    let currValue ← sumEffective requiredOgs
    let currAvailableValue ← sumEffective optionalOgs
    let changeWeight ← Outcome.expect "overflow occurred" (Weight.fromVb algorithm.sizeOfChange)
    let costOfChange ← Outcome.expect "signed amount"
      (Amount.toSigned (feeRate.mulWeight changeWeight))
    let totalValue := SignedAmount.toUnsigned (← SignedAmount.add currAvailableValue currValue)
    if totalValue.any fun v => targetAmount ≤ v then
      let signedTargetAmount ← Outcome.expect "Bitcoin amount to fit into i64"
        (Amount.toSigned targetAmount)
      if signedTargetAmount < currValue then
        let difference ← SignedAmount.sub currValue signedTargetAmount
        let remainingAmount ← Outcome.expect "remaining amount can't be negative"
          (SignedAmount.toUnsigned difference)
        let excess ← decideChange costs remainingAmount feeRate drainScript
        pure (calculateCsResult [] requiredOgs excess)
      else
        match bnb costs sorter requiredOgs optionalOgs currValue currAvailableValue
          signedTargetAmount costOfChange drainScript feeRate with
        | .ok r => pure r
        | .error (.error _) =>
          algorithm.fallbackAlgorithm requiredUtxos optionalUtxos feeRate targetAmount drainScript
            rand
        | .error (.panic msg) => .error (.panic msg)
    else
      let groups := requiredOgs ++ optionalOgs
      let (utxoFees, utxoValue) ← groups.foldlM (fun ((fees, value) : ℕ × ℕ) u => do
        let fees ← Amount.add fees u.fee
        let value ← Amount.add value u.weightedUtxo.utxo.txout.value
        pure (fees, value)) (0, 0)
      Outcome.err { needed := ← Amount.add targetAmount utxoFees, available := utxoValue }

/-- `BranchAndBoundCoinSelection::default`: the change is a P2WPKH output. -/
def BranchAndBoundCoinSelection.default (costs : SpendCosts) : BranchAndBoundCoinSelection :=
  { sizeOfChange := 8 + 1 + 22, fallbackAlgorithm := SingleRandomDraw.coinSelect costs }

/-- `DefaultCoinSelectionAlgorithm`. -/
def defaultCoinSelectionAlgorithm (costs : SpendCosts)
    (sorter : SortUnstable OutputGroup.effectiveValue) : CoinSelectionAlgorithm :=
  (BranchAndBoundCoinSelection.default costs).coinSelect costs sorter

end Bitspend.Wallet
