import Bitspend.Wallet.Answers
import Bitspend.Wallet.Shuffle

/-!
# Wallet/Insufficient — when coin selection reports insufficient funds

The check before the search and the search itself leave out the coins that cost more to spend than
they hold.  The random draw behind them gets the coins as they came: where it draws such coins first
it may end below a target that the others reach, so coin selection may report insufficient funds for
one random stream and not for another.  `coinSelect_insufficient_iff` says for which coins it never
does.
-/

namespace Bitspend.Wallet

variable {ε : Type} {costs : SpendCosts} {feeRate : FeeRate} {targetAmount : ℕ}
  {required optional : List WeightedUtxo}

/-- Coins suffice exactly when their effective value reaches the target. -/
theorem sufficient_iff {ws : List WeightedUtxo} :
    Sufficient costs feeRate targetAmount ws
      ↔ (targetAmount : ℤ) ≤ eff (ws.map (groupOf costs feeRate)) := by
  rw [Sufficient, eff_map_groupOf]
  omega

theorem WithinSupply.fits {ws : List WeightedUtxo} (h : WithinSupply costs feeRate ws)
    (htarget : targetAmount ≤ 21 * 10 ^ 14) : Fits costs feeRate targetAmount ws := by
  have hvalue := h.value_le
  have hfees := h.fees_le
  exact ⟨h.weight_lt, by omega, by omega⟩

theorem eff_nonpos {ws : List WeightedUtxo}
    (h : ∀ w ∈ ws, (groupOf costs feeRate w).effectiveValue ≤ 0) :
    eff (ws.map (groupOf costs feeRate)) ≤ 0 := by
  induction ws with
  | nil => exact le_refl _
  | cons w ws ih =>
    have hhead := h w List.mem_cons_self
    have htail := ih fun v hv => h v (List.mem_cons_of_mem w hv)
    rw [List.map_cons, eff_cons]
    omega

/-! ## One stream -/

/-- **When a call reports insufficient funds**: below the target; or where the search finds nothing
and no prefix of the order drawn suffices. -/
theorem coinSelect_err_iff (sorter : SortUnstable OutputGroup.effectiveValue) (rand : Rng)
    {sizeOfChange : ℕ} {drainScript : Script}
    (h : WithinSupply costs feeRate (required ++ optional)) (htarget : targetAmount ≤ 21 * 10 ^ 14)
    (hsize : sizeOfChange * 4 < 2 ^ 64) (hcost : changeCost feeRate sizeOfChange ≤ 21 * 10 ^ 14)
    (hlen : (serializedLen drainScript + 8) * 4 < 2 ^ 64) :
    (∃ e, BranchAndBoundCoinSelection.coinSelect costs sorter
        ⟨sizeOfChange, SingleRandomDraw.coinSelect costs⟩ required optional feeRate targetAmount
        drainScript rand = .error (.error e))
      ↔ eff (poolOf costs feeRate optional) + baseOf costs feeRate required < targetAmount
        ∨ (baseOf costs feeRate required ≤ targetAmount
          ∧ (∀ r, bnb costs sorter (required.map (groupOf costs feeRate))
            (poolOf costs feeRate optional) (baseOf costs feeRate required)
            (eff (poolOf costs feeRate optional)) targetAmount (changeCost feeRate sizeOfChange)
            drainScript feeRate ≠ .ok r)
          ∧ ∀ j, ¬Sufficient costs feeRate targetAmount (drawn required optional rand j)) := by
  have hchange : feeRate.mulWeight (sizeOfChange * 4) = changeCost feeRate sizeOfChange :=
    (FeeRate.Multiplies.of_ceilFee_le (hcost.trans (by decide))).mulWeight_eq
  have hbounds := h.bnbBounds htarget (sizeOfChange * 4)
  have hpart := h.of_subperm ((candidates_sublist costs feeRate optional).append_left required).subperm
  have hfees := hpart.fees_le
  have hvalue := hpart.value_le
  -- the search does not panic, so it fails when it does not answer
  have hsearch : (∃ e, searchOf costs sorter sizeOfChange required optional feeRate targetAmount
        drainScript = .error (.error e))
      ↔ ∀ r, searchOf costs sorter sizeOfChange required optional feeRate targetAmount drainScript
        ≠ .ok r := by
    rcases hs : searchOf costs sorter sizeOfChange required optional feeRate targetAmount drainScript
      with (e | msg) | r
    · exact iff_of_true ⟨e, rfl⟩ fun r hr => by cases hr
    · exact absurd hs (bnb_safe hbounds hlen msg)
    · exact iff_of_false (fun ⟨e, he⟩ => by cases he) fun hnot => hnot r rfl
  rw [exists_coinSelect_err_iff hlen, and_iff_right (h.reaches hsize), FallsShort, hsearch, searchOf,
    hchange]
  rcases lt_or_ge (eff (poolOf costs feeRate optional) + baseOf costs feeRate required) targetAmount
    with hlt | hge
  · exact iff_of_true (.inl ⟨hlt, by omega, by omega⟩) (.inl hlt)
  · rw [or_iff_right fun hshort => not_lt.mpr hge hshort.1, or_iff_right (not_lt.mpr hge),
      and_iff_right hge, and_iff_left (h.fits htarget)]

/-! ## For every stream -/

/-- The coins the search leaves out, then the others. -/
def worthlessFirst (costs : SpendCosts) (feeRate : FeeRate) (optional : List WeightedUtxo) :
    List WeightedUtxo :=
  optional.filter (fun w => !decide (0 < (groupOf costs feeRate w).effectiveValue))
    ++ candidates costs feeRate optional

theorem worthlessFirst_perm (costs : SpendCosts) (feeRate : FeeRate) (optional : List WeightedUtxo) :
    (worthlessFirst costs feeRate optional).Perm optional :=
  List.perm_append_comm.trans (List.filter_append_perm _ optional)

/-- **In this order no prefix is worth more than nothing or than all of it**: it falls as long as the
coins cost more than they hold, and rises from there to its end. -/
theorem eff_take_worthlessFirst (costs : SpendCosts) (feeRate : FeeRate)
    (optional : List WeightedUtxo) (j : ℕ) :
    eff (((worthlessFirst costs feeRate optional).take j).map (groupOf costs feeRate)) ≤ 0
      ∨ eff (((worthlessFirst costs feeRate optional).take j).map (groupOf costs feeRate))
        ≤ eff (optional.map (groupOf costs feeRate)) := by
  have hall := eff_perm ((worthlessFirst_perm costs feeRate optional).map (groupOf costs feeRate))
  rw [← hall]
  unfold worthlessFirst
  generalize hout : optional.filter (fun w => !decide (0 < (groupOf costs feeRate w).effectiveValue))
    = out
  have hneg : ∀ w ∈ out, (groupOf costs feeRate w).effectiveValue ≤ 0 := by
    intro w hw
    rw [← hout, List.mem_filter] at hw
    simpa using hw.2
  rcases le_total j out.length with hj | hj
  · left
    rw [List.take_append_of_le_length hj]
    exact eff_nonpos fun w hw => hneg w (List.mem_of_mem_take hw)
  · right
    rw [List.take_append, List.take_of_length_le hj, List.map_append, List.map_append, eff_append,
      eff_append]
    have := eff_le_of_sublist (nonneg_of_mem_poolOf costs feeRate optional)
      ((List.take_sublist (j - out.length) (candidates costs feeRate optional)).map
        (groupOf costs feeRate))
    exact Int.add_le_add_left this _

/-- **The funds suffice in every order**: the required coins alone, or all coins together, reach the
target; or branch and bound finds coins that need no change. -/
def SufficesAnyhow (costs : SpendCosts) (sorter : SortUnstable OutputGroup.effectiveValue)
    (sizeOfChange : ℕ) (required optional : List WeightedUtxo) (feeRate : FeeRate)
    (targetAmount : ℕ) (drainScript : Script) : Prop :=
  (targetAmount : ℤ) ≤ baseOf costs feeRate required
    ∨ (targetAmount : ℤ)
      ≤ baseOf costs feeRate required + eff (optional.map (groupOf costs feeRate))
    ∨ ∃ r, bnb costs sorter (required.map (groupOf costs feeRate)) (poolOf costs feeRate optional)
      (baseOf costs feeRate required) (eff (poolOf costs feeRate optional)) targetAmount
      (changeCost feeRate sizeOfChange) drainScript feeRate = .ok r

/-- Where the search ends within its budget, the coins it finds are there exactly when any are. -/
theorem exists_bnb_iff {sorter : SortUnstable OutputGroup.effectiveValue}
    {required optional : List OutputGroup} {base targetAmount costOfChange : ℤ} {drainScript : Script}
    (hpos : ∀ og ∈ optional, 0 ≤ og.effectiveValue) (hlt : base < targetAmount)
    (hcost : costOfChange < 2 ^ 63) (hlen : (serializedLen drainScript + 8) * 4 < 2 ^ 64)
    (hends : SearchEnds sorter optional base targetAmount costOfChange) :
    (∃ r, bnb costs sorter required optional base (eff optional) targetAmount costOfChange drainScript
        feeRate = .ok r)
      ↔ ∃ S, Changeless optional base targetAmount costOfChange S := by
  obtain ⟨picked, excess, hok, hpicked, -⟩ | ⟨⟨e, he⟩, hno⟩ :=
    bnb_optimal hpos hlt hcost hlen hends
  · exact iff_of_true ⟨_, hok⟩ ⟨picked, hpicked⟩
  · refine iff_of_false ?_ fun ⟨S, hS⟩ => hno S hS
    rintro ⟨r, hr⟩
    rw [he] at hr
    cases hr

section EveryStream

variable {sorter : SortUnstable OutputGroup.effectiveValue} {sizeOfChange : ℕ} {drainScript : Script}

/-- Where the coins suffice in every order, some prefix of the order drawn does. -/
theorem exists_sufficient_drawn
    (h : (targetAmount : ℤ) ≤ baseOf costs feeRate required
      ∨ (targetAmount : ℤ)
        ≤ baseOf costs feeRate required + eff (optional.map (groupOf costs feeRate))) (rand : Rng) :
    ∃ j, Sufficient costs feeRate targetAmount (drawn required optional rand j) := by
  rcases h with h | h
  · refine ⟨0, sufficient_iff.mpr ?_⟩
    rw [drawn, List.take_zero, List.append_nil]
    exact h
  · refine ⟨(shuffleSlice optional rand).length, sufficient_iff.mpr ?_⟩
    rw [eff_perm ((drawn_perm required optional rand).map _), List.map_append, eff_append]
    exact h

/-- Where they do not, some stream draws an order none of whose prefixes does. -/
theorem exists_drawn_insufficient (hcoins : optional.length ≤ 2 ^ 32)
    (hrequired : baseOf costs feeRate required < (targetAmount : ℤ))
    (hall : baseOf costs feeRate required + eff (optional.map (groupOf costs feeRate))
      < (targetAmount : ℤ)) :
    ∃ rand, ∀ j, ¬Sufficient costs feeRate targetAmount (drawn required optional rand j) := by
  obtain ⟨rand, hrand⟩ := exists_shuffleSlice hcoins (worthlessFirst_perm costs feeRate optional)
  refine ⟨rand, fun j hj => ?_⟩
  have hreach := sufficient_iff.mp hj
  rw [drawn, hrand, List.map_append, eff_append] at hreach
  have hbase : (targetAmount : ℤ) ≤ baseOf costs feeRate required
      + eff (((worthlessFirst costs feeRate optional).take j).map (groupOf costs feeRate)) := hreach
  have hfirst := eff_take_worthlessFirst costs feeRate optional j
  omega

/-- **Coin selection reports insufficient funds exactly when they are**, for every random stream,
where the coins suffice in every order, and where they are below the target.  Of any other coins
— fewer than the `u32` indices of the shuffle — some order makes it report insufficient funds for a
target that they reach. -/
theorem coinSelect_insufficient_iff (costs : SpendCosts)
    (sorter : SortUnstable OutputGroup.effectiveValue) (sizeOfChange : ℕ)
    (required optional : List WeightedUtxo) (feeRate : FeeRate) (targetAmount : ℕ)
    (drainScript : Script) (h : WithinSupply costs feeRate (required ++ optional))
    (htarget : targetAmount ≤ 21 * 10 ^ 14) (hsize : sizeOfChange * 4 < 2 ^ 64)
    (hcost : changeCost feeRate sizeOfChange ≤ 21 * 10 ^ 14)
    (hlen : (serializedLen drainScript + 8) * 4 < 2 ^ 64) :
    (baseOf costs feeRate required + eff (poolOf costs feeRate optional) < targetAmount
        ∨ SufficesAnyhow costs sorter sizeOfChange required optional feeRate targetAmount drainScript →
      ∀ rand, (∃ e, BranchAndBoundCoinSelection.coinSelect costs sorter
          ⟨sizeOfChange, SingleRandomDraw.coinSelect costs⟩ required optional feeRate targetAmount
          drainScript rand = .error (.error e))
        ↔ baseOf costs feeRate required + eff (poolOf costs feeRate optional) < targetAmount)
    ∧ (optional.length ≤ 2 ^ 32 →
      (∀ rand, (∃ e, BranchAndBoundCoinSelection.coinSelect costs sorter
          ⟨sizeOfChange, SingleRandomDraw.coinSelect costs⟩ required optional feeRate targetAmount
          drainScript rand = .error (.error e))
        ↔ baseOf costs feeRate required + eff (poolOf costs feeRate optional) < targetAmount) →
      baseOf costs feeRate required + eff (poolOf costs feeRate optional) < targetAmount
        ∨ SufficesAnyhow costs sorter sizeOfChange required optional feeRate targetAmount
          drainScript) := by
  have herr := fun rand => coinSelect_err_iff sorter rand h htarget hsize hcost hlen
  simp only [add_comm (eff (poolOf costs feeRate optional))] at herr
  constructor
  · intro hcond rand
    refine (herr rand).trans (or_iff_left_of_imp ?_)
    rintro ⟨-, hnone, hdrawn⟩
    rcases hcond with hlt | hrequired | hall | ⟨r, hr⟩
    · exact hlt
    · obtain ⟨j, hj⟩ := exists_sufficient_drawn (.inl hrequired) rand
      exact absurd hj (hdrawn j)
    · obtain ⟨j, hj⟩ := exists_sufficient_drawn (.inr hall) rand
      exact absurd hj (hdrawn j)
    · exact absurd hr (hnone r)
  · intro hcoins hiff
    by_contra hcond
    rw [SufficesAnyhow, not_or, not_or, not_or, not_le, not_le, not_exists] at hcond
    obtain ⟨hreach, hrequired, hall, hnone⟩ := hcond
    obtain ⟨rand, hdrawn⟩ := exists_drawn_insufficient hcoins hrequired hall
    exact hreach ((hiff rand).mp ((herr rand).mpr (.inr ⟨hrequired.le, hnone, hdrawn⟩)))

/-- A required coin that falls short, one of ten satoshis that costs 124 to spend, and one that makes up for
both: in whatever order they are drawn, the funds are not insufficient. -/
theorem coinSelect_insufficient_iff_sampleCoins :
    eff ([coinWorth 10].map (groupOf sampleCosts ⟨750⟩)) = -114
      ∧ ¬∃ rand e, BranchAndBoundCoinSelection.coinSelect sampleCosts (.insertion _)
        ⟨31, SingleRandomDraw.coinSelect sampleCosts⟩ [coinWorth 700] [coinWorth 10, coinWorth 5000] ⟨750⟩
          1000 [0x51] rand = .error (.error e) := by
  have hsupply : WithinSupply sampleCosts ⟨750⟩ ([coinWorth 700] ++ [coinWorth 10, coinWorth 5000]) :=
    ⟨by decide, by decide, by decide, by decide⟩
  refine ⟨by decide, fun ⟨rand, h⟩ => ?_⟩
  have hiff := (coinSelect_insufficient_iff sampleCosts (.insertion _) 31 [coinWorth 700]
    [coinWorth 10, coinWorth 5000] ⟨750⟩ 1000 [0x51] hsupply (by decide) (by decide) (by decide)
    (by decide)).1 (.inr (.inr (.inl (by decide)))) rand
  exact absurd (hiff.mp h) (by decide)

/-- **A coin of 1624 satoshis and one of 10, which costs 124 to spend, for a target of 1400**: the
first alone pays for it.  Drawn second, after the other, it does not, and the two together are worth
1386. -/
theorem not_coinSelect_insufficient :
    (1400 : ℤ) ≤ baseOf sampleCosts ⟨750⟩ []
        + eff (poolOf sampleCosts ⟨750⟩ [coinWorth 1624, coinWorth 10])
      ∧ BranchAndBoundCoinSelection.coinSelect sampleCosts (.insertion _)
          ⟨31, SingleRandomDraw.coinSelect sampleCosts⟩ [] [coinWorth 1624, coinWorth 10] ⟨750⟩ 1400
          [0x51] (fun _ => 0) = .error (.error { needed := 1648, available := 1634 })
      ∧ (BranchAndBoundCoinSelection.coinSelect sampleCosts (.insertion _)
          ⟨31, SingleRandomDraw.coinSelect sampleCosts⟩ [] [coinWorth 1624, coinWorth 10] ⟨750⟩ 1400
          [0x51] (fun _ => 1)).isOk := by
  refine ⟨by decide, by decide +kernel, by decide +kernel⟩

end EveryStream

end Bitspend.Wallet
