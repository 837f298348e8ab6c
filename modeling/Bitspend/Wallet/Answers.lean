import Bitspend.Wallet.Optimal

/-!
# Wallet/Answers — exactly when coin selection answers, and when it fails

Coin selection has three ends: a selection, insufficient funds, and a panic where a sum leaves its
type.  Which of them a call comes to is said here in terms of the coins, the amount, the order they
are drawn in and the search, for every input: `Affords` for an answer, `FallsShort` for insufficient
funds, both past the sums that every call works out first (`Reaches`).
-/

namespace Bitspend.Wallet

variable {ε : Type} {costs : SpendCosts} {feeRate : FeeRate} {targetAmount : ℕ}
  {required optional : List WeightedUtxo}

/-! ## Calls that return no error -/

theorem errless_addAmount (a b : ℕ) : (Amount.add a b : Outcome ε ℕ).Errless := by
  unfold Amount.add
  split
  · exact .ok _
  · exact .panic _

theorem errless_subAmount (a b : ℕ) : (Amount.sub a b : Outcome ε ℕ).Errless := by
  unfold Amount.sub
  split
  · exact .ok _
  · exact .panic _

theorem errless_inputFee (w : WeightedUtxo) : (inputFee costs feeRate w : Outcome ε ℕ).Errless :=
  .bind (.expect _ _) fun _ => .ok _

theorem errless_decideChange (rem : ℕ) (drainScript : Script) :
    (decideChange costs rem feeRate drainScript : Outcome ε Excess).Errless := by
  refine .bind (.expect _ _) fun _ => ?_
  dsimp only
  split
  · exact .ok _
  · exact .ok _

theorem errless_scanSorted (utxos : List (Bool × WeightedUtxo)) (a f : ℕ) :
    (scanSorted costs feeRate targetAmount utxos a f : Outcome ε _).Errless := by
  induction utxos generalizing a f with
  | nil => exact .ok _
  | cons u utxos ih =>
    obtain ⟨mustUse, w⟩ := u
    have hneeded : (stillNeeded targetAmount mustUse a f : Outcome ε Bool).Errless := by
      cases mustUse with
      | true => exact .ok _
      | false => exact .bind (errless_addAmount _ _) fun _ => .ok _
    rw [scanSorted]
    refine .bind hneeded fun needed => ?_
    cases needed with
    | false => exact .ok _
    | true =>
      refine .bind (errless_inputFee w) fun _ => .bind (errless_addAmount _ _) fun _ => ?_
      exact .bind (errless_addAmount _ _) fun _ => .bind (ih _ _) fun _ => .ok _

/-! ## The random draw -/

theorem Fits.of_perm {ws ws' : List WeightedUtxo} (h : Fits costs feeRate targetAmount ws)
    (hperm : ws.Perm ws') : Fits costs feeRate targetAmount ws' := by
  have hvalue : valueOf ws = valueOf ws' := (hperm.map _).sum_eq
  have hfees : feesOf costs feeRate ws = feesOf costs feeRate ws' := (hperm.map _).sum_eq
  exact ⟨fun w hw => h.weight_lt w (hperm.mem_iff.mpr hw), hvalue ▸ h.value_lt, hfees ▸ h.needed_lt⟩

/-- The weight of a coin whose fee was worked out. -/
theorem weight_lt_of_inputFee {w : WeightedUtxo} {fee : ℕ}
    (h : (inputFee costs feeRate w : Outcome ε ℕ) = .ok fee) :
    costs.segwitWeight + w.satisfactionWeight < 2 ^ 64 := by
  obtain ⟨weight, hweight, -⟩ := Outcome.bind_eq_ok.mp h
  exact (Weight.checkedAdd_eq_some.mp (Outcome.expect_eq_ok.mp hweight)).1

/-- A coin the scan has taken. -/
theorem scanSorted_cons_taken {mustUse : Bool} {w : WeightedUtxo} {rest : List (Bool × WeightedUtxo)}
    {a f : ℕ} {p : List WeightedUtxo × ℕ × ℕ}
    (hneeded : (stillNeeded targetAmount mustUse a f : Outcome ε Bool) = .ok true)
    (h : (scanSorted costs feeRate targetAmount ((mustUse, w) :: rest) a f : Outcome ε _) = .ok p) :
    ∃ ws, p.1 = w :: ws ∧ costs.segwitWeight + w.satisfactionWeight < 2 ^ 64
      ∧ a + w.utxo.txout.value < 2 ^ 64 ∧ f + feeOf costs feeRate w < 2 ^ 64
      ∧ (scanSorted costs feeRate targetAmount rest (a + w.utxo.txout.value)
        (f + feeOf costs feeRate w) : Outcome ε _) = .ok (ws, p.2) := by
  rw [scanSorted, hneeded, Outcome.ok_bind, if_pos rfl] at h
  obtain ⟨fee, hfee, h⟩ := Outcome.bind_eq_ok.mp h
  obtain ⟨f', hf', h⟩ := Outcome.bind_eq_ok.mp h
  obtain ⟨a', ha', h⟩ := Outcome.bind_eq_ok.mp h
  obtain ⟨⟨ws, amounts⟩, hrest, h⟩ := Outcome.bind_eq_ok.mp h
  cases h
  have hweight := weight_lt_of_inputFee hfee
  obtain rfl := inputFee_eq_ok hfee
  obtain ⟨hflt, rfl⟩ := Amount.add_eq_ok.mp hf'
  obtain ⟨halt, rfl⟩ := Amount.add_eq_ok.mp ha'
  exact ⟨ws, rfl, hweight, halt, hflt, hrest⟩

/-- The sums of a scan that ended, over the coins it took. -/
structure Summed (costs : SpendCosts) (feeRate : FeeRate) (a f : ℕ) (ws : List WeightedUtxo) :
    Prop where
  weight_lt : ∀ w ∈ ws, costs.segwitWeight + w.satisfactionWeight < 2 ^ 64
  value_lt : a + valueOf ws < 2 ^ 64
  fees_lt : f + feesOf costs feeRate ws < 2 ^ 64

theorem Summed.cons {a f : ℕ} {w : WeightedUtxo} {ws : List WeightedUtxo}
    (hweight : costs.segwitWeight + w.satisfactionWeight < 2 ^ 64)
    (h : Summed costs feeRate (a + w.utxo.txout.value) (f + feeOf costs feeRate w) ws) :
    Summed costs feeRate a f (w :: ws) where
  weight_lt := List.forall_mem_cons.mpr ⟨hweight, h.weight_lt⟩
  value_lt := by
    rw [valueOf_cons, ← Nat.add_assoc]
    exact h.value_lt
  fees_lt := by
    rw [feesOf_cons, ← Nat.add_assoc]
    exact h.fees_lt

/-- **Where a scan of optional coins has ended**: at the first place where what is there suffices, or
after the last coin. -/
theorem scanSorted_optional_eq_ok {p ws : List WeightedUtxo} {a f : ℕ} {amounts : ℕ × ℕ}
    (ha : a < 2 ^ 64) (hf : f < 2 ^ 64)
    (h : (scanSorted costs feeRate targetAmount (p.map fun u => (false, u)) a f : Outcome ε _)
      = .ok (ws, amounts)) :
    ∃ k ≤ p.length, ws = p.take k ∧ Summed costs feeRate a f (p.take k)
      ∧ (∀ j < k, a + valueOf (p.take j) < targetAmount + (f + feesOf costs feeRate (p.take j)))
      ∧ (targetAmount + (f + feesOf costs feeRate (p.take k)) ≤ a + valueOf (p.take k)
        ∨ k = p.length) := by
  induction p generalizing a f ws with
  | nil =>
    cases h
    exact ⟨0, le_rfl, rfl, ⟨fun _ h => absurd h List.not_mem_nil, ha, hf⟩,
      fun j hj => absurd hj j.not_lt_zero, .inr rfl⟩
  | cons w p ih =>
    obtain ⟨needed, hneeded, -⟩ := Outcome.bind_eq_ok.mp h
    obtain ⟨threshold, hthreshold, hless⟩ := Outcome.bind_eq_ok.mp hneeded
    obtain ⟨-, rfl⟩ := Amount.add_eq_ok.mp hthreshold
    cases hless
    by_cases hstop : a < targetAmount + f
    · rw [decide_eq_true hstop] at hneeded
      obtain ⟨ws', hws, hweight, halt, hflt, hrest⟩ := scanSorted_cons_taken hneeded h
      obtain ⟨k, hk, rfl, hsummed, hbefore, hend⟩ := ih halt hflt hrest
      refine ⟨k + 1, Nat.succ_le_succ hk, hws, hsummed.cons hweight, fun j hj => ?_, ?_⟩
      · rcases j with _ | j
        · simpa using hstop
        · have := hbefore j (Nat.lt_of_succ_lt_succ hj)
          rw [List.take_succ_cons, valueOf_cons, feesOf_cons]
          omega
      · rw [List.take_succ_cons, valueOf_cons, feesOf_cons, List.length_cons]
        omega
    · rw [decide_eq_false hstop] at hneeded
      rw [List.map_cons, scanSorted, hneeded, Outcome.ok_bind, if_neg Bool.false_ne_true] at h
      cases h
      exact ⟨0, Nat.zero_le _, rfl, ⟨fun _ h => absurd h List.not_mem_nil, ha, hf⟩,
        fun j hj => absurd hj j.not_lt_zero, .inl (by simpa using not_lt.mp hstop)⟩

/-- Required coins in front have all been taken. -/
theorem scanSorted_required_eq_ok {rest : List (Bool × WeightedUtxo)} {ws : List WeightedUtxo}
    {a f : ℕ} {amounts : ℕ × ℕ} (ha : a < 2 ^ 64) (hf : f < 2 ^ 64)
    (h : (scanSorted costs feeRate targetAmount (required.map (fun u => (true, u)) ++ rest) a f :
      Outcome ε _) = .ok (ws, amounts)) :
    ∃ ws', ws = required ++ ws' ∧ Summed costs feeRate a f required
      ∧ (scanSorted costs feeRate targetAmount rest (a + valueOf required)
        (f + feesOf costs feeRate required) : Outcome ε _) = .ok (ws', amounts) := by
  induction required generalizing a f ws with
  | nil => exact ⟨ws, rfl, ⟨fun _ h => absurd h List.not_mem_nil, ha, hf⟩, h⟩
  | cons w required ih =>
    obtain ⟨ws₁, hws, hweight, halt, hflt, hrest⟩ := scanSorted_cons_taken rfl h
    obtain ⟨ws', rfl, hsummed, hscan⟩ := ih halt hflt hrest
    rw [Nat.add_assoc, Nat.add_assoc, ← valueOf_cons, ← feesOf_cons] at hscan
    exact ⟨ws', hws, hsummed.cons hweight, hscan⟩

section Draw

variable {drainScript : Script} {rand : Rng}

/-- **Where the scan of a draw has ended.** -/
theorem scanSorted_draw_eq_ok {ws : List WeightedUtxo} {a f : ℕ}
    (h : (scanSorted costs feeRate targetAmount (required.map (fun u => (true, u))
        ++ (shuffleSlice optional rand).map fun u => (false, u)) 0 0 : Outcome ε _)
      = .ok (ws, a, f)) (hneeded : targetAmount + f < 2 ^ 64) :
    ∃ k ≤ (shuffleSlice optional rand).length, ws = drawn required optional rand k
      ∧ a = valueOf ws ∧ f = feesOf costs feeRate ws ∧ Fits costs feeRate targetAmount ws
      ∧ (∀ j < k, ¬Sufficient costs feeRate targetAmount (drawn required optional rand j))
      ∧ (Sufficient costs feeRate targetAmount ws ∨ k = (shuffleSlice optional rand).length) := by
  obtain ⟨-, hval, hfees⟩ := scanSorted_eq_ok h
  dsimp only at hval hfees
  rw [Nat.zero_add] at hval hfees
  obtain ⟨ws', rfl, hreq, hrest⟩ := scanSorted_required_eq_ok (by decide) (by decide) h
  obtain ⟨k, hk, rfl, hopt, hbefore, hend⟩ :=
    scanSorted_optional_eq_ok hreq.value_lt hreq.fees_lt hrest
  simp only [Nat.zero_add] at hopt hbefore hend
  refine ⟨k, hk, rfl, hval, hfees, ⟨fun w hw => ?_, ?_, ?_⟩, fun j hj => ?_, ?_⟩
  · exact (List.mem_append.mp hw).elim (hreq.weight_lt w) (hopt.weight_lt w)
  · rw [valueOf_append]
    exact hopt.value_lt
  · rwa [← hfees]
  · rw [Sufficient, drawn, valueOf_append, feesOf_append]
    exact not_le.mpr (hbefore j hj)
  · rwa [Sufficient, valueOf_append, feesOf_append]

/-- **The random draw answers exactly when some prefix of its order suffices**, and the sums of the
shortest fit. -/
theorem exists_singleRandomDraw_ok_iff (hlen : (serializedLen drainScript + 8) * 4 < 2 ^ 64) :
    (∃ r, SingleRandomDraw.coinSelect costs required optional feeRate targetAmount drainScript rand
        = .ok r)
      ↔ ∃ k, IsLeast {j | Sufficient costs feeRate targetAmount (drawn required optional rand j)} k
        ∧ Fits costs feeRate targetAmount (drawn required optional rand k) := by
  constructor
  · rintro ⟨r, h⟩
    obtain ⟨⟨ws, a, f⟩, hscan, h⟩ := Outcome.bind_eq_ok.mp h
    obtain ⟨needed, hneeded, h⟩ := Outcome.bind_eq_ok.mp h
    obtain ⟨hlt, rfl⟩ := Amount.add_eq_ok.mp hneeded
    obtain ⟨k, -, rfl, rfl, rfl, hfits, hbefore, -⟩ := scanSorted_draw_eq_ok hscan hlt
    split at h
    · cases h
    · rename_i henough
      refine ⟨k, ⟨not_lt.mp henough, fun j hj => ?_⟩, hfits⟩
      by_contra hgt
      exact hbefore j (not_le.mp hgt) hj
  · rintro ⟨k, hleast, hfits⟩
    obtain ⟨r, hr, -⟩ := singleRandomDraw_of_isLeast hlen hleast hfits
    exact ⟨r, hr⟩

/-- **It fails exactly when none does**, and the sums of all the coins fit. -/
theorem exists_singleRandomDraw_err_iff :
    (∃ e, SingleRandomDraw.coinSelect costs required optional feeRate targetAmount drainScript rand
        = .error (.error e))
      ↔ (∀ j, ¬Sufficient costs feeRate targetAmount (drawn required optional rand j))
        ∧ Fits costs feeRate targetAmount (required ++ optional) := by
  constructor
  · rintro ⟨e, h⟩
    obtain ⟨⟨ws, a, f⟩, hscan, h⟩ := (errless_scanSorted _ _ _).bind_eq_error.mp h
    obtain ⟨needed, hneeded, h⟩ := (errless_addAmount _ _).bind_eq_error.mp h
    obtain ⟨hlt, rfl⟩ := Amount.add_eq_ok.mp hneeded
    obtain ⟨k, -, rfl, rfl, rfl, hfits, hbefore, hend⟩ := scanSorted_draw_eq_ok hscan hlt
    split at h
    · rename_i hless
      -- the scan went through all the coins
      obtain rfl := hend.resolve_left (not_le.mpr hless)
      refine ⟨fun j => ?_, hfits.of_perm (drawn_perm required optional rand)⟩
      rcases lt_or_ge j (shuffleSlice optional rand).length with hj | hj
      · exact hbefore j hj
      · rw [drawn_of_length_le hj]
        exact not_le.mpr hless
    · obtain ⟨rem, -, h⟩ := (errless_subAmount _ _).bind_eq_error.mp h
      obtain ⟨excess, -, h⟩ := (errless_decideChange _ _).bind_eq_error.mp h
      cases h
  · rintro ⟨hnone, hfits⟩
    exact ⟨_, singleRandomDraw_of_not hnone hfits⟩

end Draw

/-! ## The sums before the search -/

/-- The sums of the report are within range. -/
theorem foldlM_sums_ok {ws : List WeightedUtxo} {fees value : ℕ}
    (hfees : fees + feesOf costs feeRate ws < 2 ^ 64) (hvalue : value + valueOf ws < 2 ^ 64) :
    ((ws.map (groupOf costs feeRate)).foldlM (fun ((fees, value) : ℕ × ℕ) u => do
        let fees ← Amount.add fees u.fee
        let value ← Amount.add value u.weightedUtxo.utxo.txout.value
        pure (fees, value)) (fees, value) : Outcome ε (ℕ × ℕ))
      = .ok (fees + feesOf costs feeRate ws, value + valueOf ws) := by
  induction ws generalizing fees value with
  | nil => rfl
  | cons w ws ih =>
    rw [feesOf_cons, ← Nat.add_assoc] at hfees ⊢
    rw [valueOf_cons, ← Nat.add_assoc] at hvalue ⊢
    have hfee : (Amount.add fees (groupOf costs feeRate w).fee : Outcome ε ℕ)
        = .ok (fees + feeOf costs feeRate w) := Amount.add_of_lt (by
      change fees + feeOf costs feeRate w < 2 ^ 64
      omega)
    have hval : (Amount.add value (groupOf costs feeRate w).weightedUtxo.utxo.txout.value :
        Outcome ε ℕ) = .ok (value + w.utxo.txout.value) := Amount.add_of_lt (by
      change value + w.utxo.txout.value < 2 ^ 64
      omega)
    rw [List.map_cons, List.foldlM_cons]
    dsimp only
    rw [hfee, Outcome.ok_bind, hval, Outcome.ok_bind]
    exact ih hfees hvalue

/-- …and where they are worked out they were. -/
theorem foldlM_sums_eq_ok {ws : List WeightedUtxo} {fees value : ℕ} {sums : ℕ × ℕ}
    (hfees : fees < 2 ^ 64) (hvalue : value < 2 ^ 64)
    (h : ((ws.map (groupOf costs feeRate)).foldlM (fun ((fees, value) : ℕ × ℕ) u => do
        let fees ← Amount.add fees u.fee
        let value ← Amount.add value u.weightedUtxo.utxo.txout.value
        pure (fees, value)) (fees, value) : Outcome ε (ℕ × ℕ)) = .ok sums) :
    fees + feesOf costs feeRate ws < 2 ^ 64 ∧ value + valueOf ws < 2 ^ 64
      ∧ sums = (fees + feesOf costs feeRate ws, value + valueOf ws) := by
  induction ws generalizing fees value with
  | nil =>
    cases h
    exact ⟨hfees, hvalue, rfl⟩
  | cons w ws ih =>
    rw [List.map_cons, List.foldlM_cons] at h
    obtain ⟨⟨fees', value'⟩, hstep, hrest⟩ := Outcome.bind_eq_ok.mp h
    obtain ⟨f, hf, hstep⟩ := Outcome.bind_eq_ok.mp hstep
    obtain ⟨v, hv, hstep⟩ := Outcome.bind_eq_ok.mp hstep
    cases hstep
    obtain ⟨hflt, rfl⟩ := Amount.add_eq_ok.mp hf
    obtain ⟨hvlt, rfl⟩ := Amount.add_eq_ok.mp hv
    rw [feesOf_cons, valueOf_cons, ← Nat.add_assoc, ← Nat.add_assoc]
    exact ih hflt hvlt hrest

theorem errless_new (w : WeightedUtxo) :
    (OutputGroup.new costs feeRate w : Outcome ε OutputGroup).Errless := by
  refine .bind (errless_inputFee w) fun _ => .bind (.expect _ _) fun _ => ?_
  exact .bind (.expect _ _) fun _ => .bind (errless_sub _ _) fun _ => .ok _

theorem errless_sumEffective (ogs : List OutputGroup) :
    (sumEffective ogs : Outcome ε ℤ).Errless :=
  .foldlM (fun _ _ => errless_add _ _) ogs 0

theorem errless_sums (sums : ℕ × ℕ) (u : OutputGroup) :
    ((fun ((fees, value) : ℕ × ℕ) (u : OutputGroup) => do
      let fees ← Amount.add fees u.fee
      let value ← Amount.add value u.weightedUtxo.utxo.txout.value
      pure (fees, value)) sums u : Outcome ε (ℕ × ℕ)).Errless :=
  .bind (errless_addAmount _ _) fun _ => .bind (errless_addAmount _ _) fun _ => .ok _

section CoinSelect

variable {sorter : SortUnstable OutputGroup.effectiveValue} {algorithm : BranchAndBoundCoinSelection}
  {sizeOfChange : ℕ} {drainScript : Script} {rand : Rng}

/-- **A call that does not panic gets as far as its search.** -/
theorem reaches_of_safe (h : (algorithm.coinSelect costs sorter required optional feeRate targetAmount
    drainScript rand).Safe) : Reaches costs algorithm.sizeOfChange feeRate required optional := by
  obtain ⟨hsafe, h⟩ := Outcome.safe_bind_iff.mp h
  obtain ⟨requiredOgs, hreq⟩ := (Outcome.Errless.mapM errless_new required).exists_ok hsafe
  replace h := h _ hreq
  obtain rfl := mapM_new_eq_ok hreq
  obtain ⟨hsafe, h⟩ := Outcome.safe_bind_iff.mp h
  obtain ⟨optionalOgs, hopt⟩ := (Outcome.Errless.mapM errless_new optional).exists_ok hsafe
  replace h := h _ hopt
  obtain rfl := mapM_new_eq_ok hopt
  rw [filter_groups, ← candidates] at h
  obtain ⟨hsafe, h⟩ := Outcome.safe_bind_iff.mp h
  obtain ⟨value, hvalue⟩ := (errless_sumEffective _).exists_ok hsafe
  replace h := h _ hvalue
  obtain rfl := sumEffective_eq_ok hvalue
  obtain ⟨hsafe, h⟩ := Outcome.safe_bind_iff.mp h
  obtain ⟨available, havailable⟩ := (errless_sumEffective _).exists_ok hsafe
  replace h := h _ havailable
  obtain rfl := sumEffective_eq_ok havailable
  obtain ⟨hsafe, h⟩ := Outcome.safe_bind_iff.mp h
  obtain ⟨weight, hweight⟩ := (Outcome.Errless.expect _ _).exists_ok hsafe
  replace h := h _ hweight
  obtain ⟨hsize, rfl⟩ := Weight.fromVb_eq_some.mp (Outcome.expect_eq_ok.mp hweight)
  obtain ⟨hsafe, h⟩ := Outcome.safe_bind_iff.mp h
  obtain ⟨cost, hcost⟩ := (Outcome.Errless.expect _ _).exists_ok hsafe
  replace h := h _ hcost
  obtain ⟨total, htotal⟩ := (errless_add _ _).exists_ok (Outcome.safe_bind_iff.mp h).1
  exact ⟨hreq, hopt, hvalue, havailable, hsize, (SignedAmount.add_eq_ok.mp htotal).1⟩

/-- What branch and bound makes of the coins. -/
abbrev searchOf (costs : SpendCosts) (sorter : SortUnstable OutputGroup.effectiveValue)
    (sizeOfChange : ℕ) (required optional : List WeightedUtxo) (feeRate : FeeRate)
    (targetAmount : ℕ) (drainScript : Script) : Outcome BnbError CoinSelectionResult :=
  bnb costs sorter (required.map (groupOf costs feeRate)) (poolOf costs feeRate optional)
    (baseOf costs feeRate required) (eff (poolOf costs feeRate optional)) targetAmount
    (feeRate.mulWeight (sizeOfChange * 4)) drainScript feeRate

/-- **The coins fall short of the target**: those worth spending are worth less than it; or the
search finds nothing and in the order drawn they never pay for it and for their own fees. -/
def FallsShort (costs : SpendCosts) (sorter : SortUnstable OutputGroup.effectiveValue)
    (sizeOfChange : ℕ) (required optional : List WeightedUtxo) (feeRate : FeeRate)
    (targetAmount : ℕ) (drainScript : Script) (rand : Rng) : Prop :=
  (eff (poolOf costs feeRate optional) + baseOf costs feeRate required < targetAmount
      ∧ targetAmount + feesOf costs feeRate (required ++ candidates costs feeRate optional) < 2 ^ 64
      ∧ valueOf (required ++ candidates costs feeRate optional) < 2 ^ 64)
    ∨ ((targetAmount : ℤ) ≤ eff (poolOf costs feeRate optional) + baseOf costs feeRate required
      ∧ baseOf costs feeRate required ≤ targetAmount
      ∧ (∃ e, searchOf costs sorter sizeOfChange required optional feeRate targetAmount drainScript
        = .error (.error e))
      ∧ (∀ j, ¬Sufficient costs feeRate targetAmount (drawn required optional rand j))
      ∧ Fits costs feeRate targetAmount (required ++ optional))

/-- **The coins pay for the target**: those worth spending are worth it, and the required ones
alone, the search or the draw meets it. -/
def Affords (costs : SpendCosts) (sorter : SortUnstable OutputGroup.effectiveValue)
    (sizeOfChange : ℕ) (required optional : List WeightedUtxo) (feeRate : FeeRate)
    (targetAmount : ℕ) (drainScript : Script) (rand : Rng) : Prop :=
  (targetAmount : ℤ) ≤ eff (poolOf costs feeRate optional) + baseOf costs feeRate required
    ∧ ((targetAmount : ℤ) < baseOf costs feeRate required
      ∨ (∃ r, searchOf costs sorter sizeOfChange required optional feeRate targetAmount drainScript
        = .ok r)
      ∨ ((∃ e, searchOf costs sorter sizeOfChange required optional feeRate targetAmount drainScript
          = .error (.error e))
        ∧ ∃ k, IsLeast {j | Sufficient costs feeRate targetAmount (drawn required optional rand j)} k
          ∧ Fits costs feeRate targetAmount (drawn required optional rand k)))

/-- Where the coins are worth less than the target, the report itself may overflow. -/
theorem exists_report_iff {ws : List WeightedUtxo} :
    (∃ e, (do
        let sums ← (ws.map (groupOf costs feeRate)).foldlM (fun ((fees, value) : ℕ × ℕ) u => do
          let fees ← Amount.add fees u.fee
          let value ← Amount.add value u.weightedUtxo.utxo.txout.value
          pure (fees, value)) (0, 0)
        let needed ← Amount.add targetAmount sums.1
        Outcome.err { needed, available := sums.2 } : Outcome InsufficientFunds CoinSelectionResult)
          = .error (.error e))
      ↔ targetAmount + feesOf costs feeRate ws < 2 ^ 64 ∧ valueOf ws < 2 ^ 64 := by
  constructor
  · rintro ⟨e, he⟩
    obtain ⟨sums, hsums, he⟩ :=
      (Outcome.Errless.foldlM (fun _ _ => errless_sums _ _) _ _).bind_eq_error.mp he
    obtain ⟨hfees, hvalue, rfl⟩ := foldlM_sums_eq_ok (by decide) (by decide) hsums
    obtain ⟨needed, hneeded, -⟩ := (errless_addAmount _ _).bind_eq_error.mp he
    obtain ⟨hlt, -⟩ := Amount.add_eq_ok.mp hneeded
    rw [Nat.zero_add] at hlt hvalue
    exact ⟨hlt, hvalue⟩
  · rintro ⟨hneeded, hvalue⟩
    rw [foldlM_sums_ok (by omega) (by omega), Outcome.ok_bind, Amount.add_of_lt (by omega)]
    exact ⟨_, rfl⟩

/-- **When a call reports insufficient funds**, for every input. -/
theorem exists_coinSelect_err_iff (hlen : (serializedLen drainScript + 8) * 4 < 2 ^ 64) :
    (∃ e, BranchAndBoundCoinSelection.coinSelect costs sorter
        ⟨sizeOfChange, SingleRandomDraw.coinSelect costs⟩ required optional feeRate targetAmount
        drainScript rand = .error (.error e))
      ↔ Reaches costs sizeOfChange feeRate required optional
        ∧ FallsShort costs sorter sizeOfChange required optional feeRate targetAmount drainScript
          rand := by
  by_cases hreach : Reaches costs sizeOfChange feeRate required optional
  swap
  · refine iff_of_false ?_ fun h => hreach h.1
    rintro ⟨e, he⟩
    exact hreach (reaches_of_safe (by rw [he]; exact .err e))
  rw [coinSelect_of_reaches hreach hlen, and_iff_right hreach, FallsShort]
  by_cases hle : (targetAmount : ℤ)
      ≤ eff (poolOf costs feeRate optional) + baseOf costs feeRate required
  · rw [if_pos hle, or_iff_right fun h => not_lt.mpr hle h.1, and_iff_right hle]
    by_cases hgt : (targetAmount : ℤ) < baseOf costs feeRate required
    · rw [if_pos hgt]
      refine iff_of_false ?_ fun h => not_le.mpr hgt h.1
      rintro ⟨e, he⟩
      cases he
    · rw [if_neg hgt, and_iff_right (not_lt.mp hgt)]
      split
      · rename_i r hr
        refine iff_of_false ?_ ?_
        · rintro ⟨e, he⟩
          cases he
        · rintro ⟨⟨e, he⟩, -⟩
          cases hr.symm.trans he
      · rename_i e he
        rw [and_iff_right ⟨e, he⟩]
        exact exists_singleRandomDraw_err_iff
      · rename_i msg hpanic
        refine iff_of_false ?_ ?_
        · rintro ⟨e, he⟩
          cases he
        · rintro ⟨⟨e, he⟩, -⟩
          cases hpanic.symm.trans he
  · rw [if_neg hle, or_iff_left fun h => hle h.1, and_iff_right (not_le.mp hle), ← List.map_append]
    exact exists_report_iff

/-- **When a call answers**, for every input. -/
theorem exists_coinSelect_ok_iff (hlen : (serializedLen drainScript + 8) * 4 < 2 ^ 64) :
    (∃ r, BranchAndBoundCoinSelection.coinSelect costs sorter
        ⟨sizeOfChange, SingleRandomDraw.coinSelect costs⟩ required optional feeRate targetAmount
        drainScript rand = .ok r)
      ↔ Reaches costs sizeOfChange feeRate required optional
        ∧ Affords costs sorter sizeOfChange required optional feeRate targetAmount drainScript
          rand := by
  by_cases hreach : Reaches costs sizeOfChange feeRate required optional
  swap
  · refine iff_of_false ?_ fun h => hreach h.1
    rintro ⟨r, hr⟩
    exact hreach (reaches_of_safe (.of_eq_ok hr))
  rw [coinSelect_of_reaches hreach hlen, and_iff_right hreach, Affords]
  by_cases hle : (targetAmount : ℤ)
      ≤ eff (poolOf costs feeRate optional) + baseOf costs feeRate required
  · rw [if_pos hle, and_iff_right hle]
    by_cases hgt : (targetAmount : ℤ) < baseOf costs feeRate required
    · rw [if_pos hgt]
      exact iff_of_true ⟨_, rfl⟩ (.inl hgt)
    · rw [if_neg hgt, or_iff_right hgt]
      split
      · rename_i r hr
        exact iff_of_true ⟨r, rfl⟩ (.inl ⟨r, hr⟩)
      · rename_i e he
        have hnot : ¬∃ r, searchOf costs sorter sizeOfChange required optional feeRate targetAmount
            drainScript = .ok r := by
          rintro ⟨r, hr⟩
          cases hr.symm.trans he
        rw [or_iff_right hnot, and_iff_right ⟨e, he⟩]
        exact exists_singleRandomDraw_ok_iff hlen
      · rename_i msg hpanic
        refine iff_of_false ?_ ?_
        · rintro ⟨r, hr⟩
          cases hr
        · rintro (⟨r, hr⟩ | ⟨⟨e, he⟩, -⟩)
          · cases hr.symm.trans hpanic
          · cases he.symm.trans hpanic
  · rw [if_neg hle]
    refine iff_of_false ?_ fun h => hle h.1
    rintro ⟨r, hr⟩
    obtain ⟨sums, -, hr⟩ := Outcome.bind_eq_ok.mp hr
    obtain ⟨needed, -, hr⟩ := Outcome.bind_eq_ok.mp hr
    cases hr

end CoinSelect

/-! ## Without required coins -/

/-- **The coins can be added up**: their weights fit a `u64`, their values and the effective values
of those worth spending an `i64`. -/
structure Tallies (costs : SpendCosts) (feeRate : FeeRate) (ws : List WeightedUtxo) : Prop where
  weight_lt : ∀ w ∈ ws, costs.segwitWeight + w.satisfactionWeight < 2 ^ 64
  value_lt : ∀ w ∈ ws, w.utxo.txout.value < 2 ^ 63
  total_lt : eff (poolOf costs feeRate ws) < 2 ^ 63

/-- The group of a coin is made exactly when its weight and its value fit. -/
theorem exists_new_ok_iff {w : WeightedUtxo} :
    (∃ og, (OutputGroup.new costs feeRate w : Outcome ε OutputGroup) = .ok og)
      ↔ costs.segwitWeight + w.satisfactionWeight < 2 ^ 64 ∧ w.utxo.txout.value < 2 ^ 63 := by
  constructor
  · rintro ⟨og, h⟩
    obtain ⟨fee, hfee, h⟩ := Outcome.bind_eq_ok.mp h
    obtain ⟨value, hvalue, -⟩ := Outcome.bind_eq_ok.mp h
    exact ⟨weight_lt_of_inputFee hfee,
      (Amount.toSigned_eq_some.mp (Outcome.expect_eq_ok.mp hvalue)).1⟩
  · rintro ⟨hweight, hvalue⟩
    have hfee : feeOf costs feeRate w < 2 ^ 55 := feeRate.mulWeight_lt _
    have hv : Amount.toSigned w.utxo.txout.value = some (w.utxo.txout.value : ℤ) :=
      Amount.toSigned_eq_some.mpr ⟨hvalue, rfl⟩
    have hf : Amount.toSigned (feeOf costs feeRate w) = some (feeOf costs feeRate w : ℤ) :=
      Amount.toSigned_eq_some.mpr ⟨hfee.trans (by decide), rfl⟩
    have hsub : (SignedAmount.sub (w.utxo.txout.value : ℤ) (feeOf costs feeRate w) : Outcome ε ℤ)
        = .ok _ := SignedAmount.sub_eq_ok.mpr ⟨⟨by omega, by omega⟩, rfl⟩
    rw [OutputGroup.new, inputFee_ok hweight, Outcome.ok_bind, Outcome.expect_eq_ok.mpr hv,
      Outcome.ok_bind, Outcome.expect_eq_ok.mpr hf, Outcome.ok_bind, hsub, Outcome.ok_bind]
    exact ⟨_, rfl⟩

/-- A sum of values that are worth something stays in range when its total does. -/
theorem sumEffective_ok_of_nonneg {ogs : List OutputGroup} (hpos : ∀ og ∈ ogs, 0 ≤ og.effectiveValue)
    (htotal : eff ogs < 2 ^ 63) : (sumEffective ogs : Outcome ε ℤ) = .ok (eff ogs) := by
  suffices hfrom : ∀ acc : ℤ, 0 ≤ acc → acc + eff ogs < 2 ^ 63 →
      (ogs.foldlM (fun acc x => SignedAmount.add acc x.effectiveValue) acc : Outcome ε ℤ)
        = .ok (acc + eff ogs) by
    rw [sumEffective, hfrom 0 le_rfl (by rwa [zero_add]), zero_add]
  clear htotal
  induction ogs with
  | nil =>
    intro acc _ _
    simp [pure, Except.pure]
  | cons og ogs ih =>
    intro acc hacc hlt
    have hhead := hpos og List.mem_cons_self
    have htail := eff_nonneg fun o ho => hpos o (List.mem_cons_of_mem og ho)
    rw [eff_cons, ← add_assoc] at hlt ⊢
    have hadd : (SignedAmount.add acc og.effectiveValue : Outcome ε ℤ) = .ok _ :=
      SignedAmount.add_eq_ok.mpr ⟨⟨by omega, by omega⟩, rfl⟩
    rw [List.foldlM_cons, hadd, Outcome.ok_bind]
    exact ih (fun o ho => hpos o (List.mem_cons_of_mem og ho)) _ (by omega) hlt

/-- **A call without required coins gets to its search exactly when these can be added up.** -/
theorem reaches_nil_iff {sizeOfChange : ℕ} {ws : List WeightedUtxo}
    (hsize : sizeOfChange * 4 < 2 ^ 64) :
    Reaches costs sizeOfChange feeRate [] ws ↔ Tallies costs feeRate ws := by
  have hpos := nonneg_of_mem_poolOf costs feeRate ws
  have hbase : baseOf costs feeRate [] = 0 := rfl
  constructor
  · intro h
    have htotal := h.total_mem.2
    refine ⟨weight_lt_of_mapM_new h.optional_ok, fun w hw => ?_, by omega⟩
    obtain ⟨og, -, hog⟩ :=
      Outcome.exists_right_of_forall₂ (Outcome.forall₂_of_mapM_eq_ok h.optional_ok) hw
    exact (exists_new_ok_iff.mp ⟨og, hog⟩).2
  · intro h
    have htotal := h.total_lt
    have hnonneg := eff_nonneg hpos
    refine ⟨rfl, Outcome.mapM_ok fun w hw => ?_, rfl, sumEffective_ok_of_nonneg hpos htotal, hsize,
      ⟨by omega, by omega⟩⟩
    obtain ⟨og, hog⟩ := exists_new_ok_iff.mpr ⟨h.weight_lt w hw, h.value_lt w hw⟩
    rw [hog, OutputGroup.new_eq_ok hog]

/-- At the target the search ends in its first pass. -/
theorem searchEnds_of_eq {sorter : SortUnstable OutputGroup.effectiveValue}
    {pool : List OutputGroup} {target costOfChange : ℤ} (hpos : ∀ og ∈ pool, 0 ≤ og.effectiveValue)
    (hcost : 0 ≤ costOfChange) (hall : SignedAmount.InRange (target + eff pool))
    (hhighest : SignedAmount.InRange (target + costOfChange)) :
    SearchEnds sorter pool target target costOfChange := by
  have hnonneg := eff_nonneg hpos
  have hout : (outOfRange target costOfChange (searchStart target (eff pool)) :
      Outcome BnbError Bool) = .ok false := by
    have hadd : (SignedAmount.add (searchStart target (eff pool)).currValue
        (searchStart target (eff pool)).currAvailableValue : Outcome BnbError ℤ) = .ok _ :=
      SignedAmount.add_eq_ok.mpr ⟨hall, rfl⟩
    rw [outOfRange, hadd, Outcome.ok_bind, if_neg (not_lt.mpr ?_),
      SignedAmount.add_eq_ok.mpr ⟨hhighest, rfl⟩, Outcome.ok_bind, decide_eq_false (not_lt.mpr ?_)]
    · rfl
    · change target ≤ target + costOfChange
      omega
    · change target ≤ target + eff pool
      omega
  rw [SearchEnds, show BNB_TOTAL_TRIES = 99999 + 1 from rfl, EndsWithin, bnbStep_of_inRange hout]
  trivial

/-- **Nothing is selected for nothing.** -/
theorem selected_eq_nil_of_zero {sorter : SortUnstable OutputGroup.effectiveValue} {sizeOfChange : ℕ}
    {ws : List WeightedUtxo} {drainScript : Script} {rand : Rng} {r : CoinSelectionResult}
    (hlen : (serializedLen drainScript + 8) * 4 < 2 ^ 64)
    (h : BranchAndBoundCoinSelection.coinSelect costs sorter
      ⟨sizeOfChange, SingleRandomDraw.coinSelect costs⟩ [] ws feeRate 0 drainScript rand = .ok r) :
    r.selected = [] := by
  have hreach := reaches_of_safe (.of_eq_ok h)
  have hpos := nonneg_of_mem_poolOf costs feeRate ws
  have hnonneg := eff_nonneg hpos
  have hbase : baseOf costs feeRate [] = ((0 : ℕ) : ℤ) := rfl
  have hcost := feeRate.mulWeight_lt (sizeOfChange * 4)
  have hall := hreach.total_mem
  rw [hbase, add_comm] at hall
  have hends : SearchEnds sorter (poolOf costs feeRate ws) ((0 : ℕ) : ℤ) ((0 : ℕ) : ℤ)
      (feeRate.mulWeight (sizeOfChange * 4)) :=
    searchEnds_of_eq hpos (Int.natCast_nonneg _) hall ⟨by omega, by omega⟩
  have hnil : drawn [] ws rand 0 = [] := rfl
  obtain ⟨r', hr', hsel⟩ : ∃ r', SingleRandomDraw.coinSelect costs [] ws feeRate 0 drainScript rand
      = .ok r' ∧ r'.selected = (drawn [] ws rand 0).map WeightedUtxo.utxo := by
    refine singleRandomDraw_of_isLeast hlen ⟨?_, fun j _ => j.zero_le⟩ ?_
    · change Sufficient costs feeRate 0 (drawn [] ws rand 0)
      rw [hnil]
      exact le_rfl
    · rw [hnil]
      exact ⟨fun _ h => absurd h List.not_mem_nil, Nat.two_pow_pos 64, Nat.two_pow_pos 64⟩
  rw [coinSelect_of_reaches hreach hlen, if_pos (by rw [hbase]; omega),
    if_neg (by rw [hbase]; exact lt_irrefl _), hbase,
    bnb_of_eq hpos (Int.natCast_nonneg _) hends] at h
  obtain rfl : r' = r := Except.ok.inj (hr'.symm.trans h)
  rw [hsel, hnil]
  rfl

/-! ## The default algorithm -/

section Default

variable {sorter : SortUnstable OutputGroup.effectiveValue} {ws : List WeightedUtxo}
  {drainScript : Script} {rand : Rng}

theorem errless_defaultCoinSelection_iff (hlen : (serializedLen drainScript + 8) * 4 < 2 ^ 64) :
    (defaultCoinSelectionAlgorithm costs sorter [] ws feeRate targetAmount drainScript rand).Errless
      ↔ (Tallies costs feeRate ws →
        ¬FallsShort costs sorter 31 [] ws feeRate targetAmount drainScript rand) := by
  have herr : (∃ e, defaultCoinSelectionAlgorithm costs sorter [] ws feeRate targetAmount drainScript
        rand = .error (.error e))
      ↔ Reaches costs 31 feeRate [] ws
        ∧ FallsShort costs sorter 31 [] ws feeRate targetAmount drainScript rand :=
    exists_coinSelect_err_iff hlen
  rw [reaches_nil_iff (by decide)] at herr
  rw [Outcome.Errless, ← not_exists, herr, not_and]

theorem exists_defaultCoinSelection_ok_iff (hlen : (serializedLen drainScript + 8) * 4 < 2 ^ 64) :
    (∃ r, defaultCoinSelectionAlgorithm costs sorter [] ws feeRate targetAmount drainScript rand
        = .ok r)
      ↔ Tallies costs feeRate ws
        ∧ Affords costs sorter 31 [] ws feeRate targetAmount drainScript rand := by
  have hok : (∃ r, defaultCoinSelectionAlgorithm costs sorter [] ws feeRate targetAmount drainScript
        rand = .ok r)
      ↔ Reaches costs 31 feeRate [] ws
        ∧ Affords costs sorter 31 [] ws feeRate targetAmount drainScript rand :=
    exists_coinSelect_ok_iff hlen
  rwa [reaches_nil_iff (by decide)] at hok

end Default

end Bitspend.Wallet
