import Bitspend.Wallet.SelectionTotal
import Mathlib.Order.Bounds.Basic

/-!
# Wallet/RandomDraw — the random draw takes the shortest prefix that suffices

`SingleRandomDraw::coin_select` scans the required coins and then the shuffled optional ones.  Every
coin taken raises the value selected and also the fee to be paid, so the shortfall may grow on the
way; the scan tests before each optional coin and so stops at the first place where what it has
suffices.  Sums are kept in `u64`: a scan whose sums leave it panics.
-/

namespace Bitspend.Wallet

variable {ε : Type} {costs : SpendCosts} {feeRate : FeeRate} {targetAmount : ℕ}

theorem valueOf_append (ws ws' : List WeightedUtxo) :
    valueOf (ws ++ ws') = valueOf ws + valueOf ws' := by
  rw [valueOf, List.map_append, List.sum_append]
  rfl

theorem feesOf_append (ws ws' : List WeightedUtxo) :
    feesOf costs feeRate (ws ++ ws') = feesOf costs feeRate ws + feesOf costs feeRate ws' := by
  rw [feesOf, List.map_append, List.sum_append]
  rfl

/-- **Coins that suffice**: they pay for the target and for their own fees. -/
def Sufficient (costs : SpendCosts) (feeRate : FeeRate) (targetAmount : ℕ)
    (ws : List WeightedUtxo) : Prop :=
  targetAmount + feesOf costs feeRate ws ≤ valueOf ws

/-- The weights and the sums of some coins fit a `u64`. -/
structure Fits (costs : SpendCosts) (feeRate : FeeRate) (targetAmount : ℕ)
    (ws : List WeightedUtxo) : Prop where
  weight_lt : ∀ w ∈ ws, costs.segwitWeight + w.satisfactionWeight < 2 ^ 64
  value_lt : valueOf ws < 2 ^ 64
  needed_lt : targetAmount + feesOf costs feeRate ws < 2 ^ 64

/-- …and so do the products of the fee rate with the weights. -/
structure FitsExactly (costs : SpendCosts) (feeRate : FeeRate) (targetAmount : ℕ)
    (ws : List WeightedUtxo) : Prop extends Fits costs feeRate targetAmount ws where
  product_lt : ∀ w ∈ ws, feeRate.Multiplies (costs.segwitWeight + w.satisfactionWeight)

/-! ## The scan -/

/-- A coin the scan takes. -/
theorem scanSorted_cons_of_needed {mustUse : Bool} {w : WeightedUtxo}
    {rest : List (Bool × WeightedUtxo)} {a f x y : ℕ} {ws : List WeightedUtxo}
    (hneeded : (stillNeeded targetAmount mustUse a f : Outcome ε Bool) = .ok true)
    (hweight : costs.segwitWeight + w.satisfactionWeight < 2 ^ 64)
    (hvalue : a + w.utxo.txout.value < 2 ^ 64) (hfee : f + feeOf costs feeRate w < 2 ^ 64)
    (hrest : (scanSorted costs feeRate targetAmount rest (a + w.utxo.txout.value)
      (f + feeOf costs feeRate w) : Outcome ε _) = .ok (ws, x, y)) :
    (scanSorted costs feeRate targetAmount ((mustUse, w) :: rest) a f : Outcome ε _)
      = .ok (w :: ws, x, y) := by
  rw [scanSorted, hneeded, Outcome.ok_bind, if_pos rfl, inputFee_ok hweight, Outcome.ok_bind]
  dsimp only
  rw [Amount.add_of_lt hfee, Outcome.ok_bind, Amount.add_of_lt hvalue, Outcome.ok_bind, hrest,
    Outcome.ok_bind]
  rfl

/-- Required coins in front are taken one and all. -/
theorem scanSorted_required_ok {required : List WeightedUtxo} {rest : List (Bool × WeightedUtxo)}
    {a f x y : ℕ} {ws : List WeightedUtxo}
    (hweight : ∀ w ∈ required, costs.segwitWeight + w.satisfactionWeight < 2 ^ 64)
    (hvalue : a + valueOf required < 2 ^ 64) (hfees : f + feesOf costs feeRate required < 2 ^ 64)
    (hrest : (scanSorted costs feeRate targetAmount rest (a + valueOf required)
      (f + feesOf costs feeRate required) : Outcome ε _) = .ok (ws, x, y)) :
    (scanSorted costs feeRate targetAmount (required.map (fun u => (true, u)) ++ rest) a f :
      Outcome ε _) = .ok (required ++ ws, x, y) := by
  induction required generalizing a f with
  | nil => simpa using hrest
  | cons w required ih =>
    rw [valueOf_cons, ← Nat.add_assoc] at hvalue hrest
    rw [feesOf_cons, ← Nat.add_assoc] at hfees hrest
    have htail := ih (fun u hu => hweight u (List.mem_cons_of_mem _ hu)) hvalue hfees hrest
    exact scanSorted_cons_of_needed rfl (hweight w List.mem_cons_self) (by omega) (by omega) htail

/-- **Optional coins are taken up to the first place where what is there suffices**, or to the
end. -/
theorem scanSorted_optional_ok {p : List WeightedUtxo} {a f k : ℕ} (hk : k ≤ p.length)
    (hbefore : ∀ j < k,
      a + valueOf (p.take j) < targetAmount + (f + feesOf costs feeRate (p.take j)))
    (hstop : targetAmount + (f + feesOf costs feeRate (p.take k)) ≤ a + valueOf (p.take k)
      ∨ k = p.length)
    (hweight : ∀ w ∈ p.take k, costs.segwitWeight + w.satisfactionWeight < 2 ^ 64)
    (hvalue : a + valueOf (p.take k) < 2 ^ 64)
    (hneeded : targetAmount + (f + feesOf costs feeRate (p.take k)) < 2 ^ 64) :
    (scanSorted costs feeRate targetAmount (p.map fun u => (false, u)) a f : Outcome ε _)
      = .ok (p.take k, a + valueOf (p.take k), f + feesOf costs feeRate (p.take k)) := by
  induction p generalizing a f k with
  | nil =>
    obtain rfl : k = 0 := Nat.le_zero.mp hk
    rfl
  | cons w p ih =>
    have hask : targetAmount + f < 2 ^ 64 := by omega
    have hstill : (stillNeeded targetAmount false a f : Outcome ε Bool)
        = .ok (decide (a < targetAmount + f)) := by
      rw [stillNeeded, if_neg Bool.false_ne_true, Amount.add_of_lt hask, Outcome.ok_bind]
      rfl
    rcases k with _ | k
    · have henough : ¬a < targetAmount + f := by
        rcases hstop with h | h
        · simpa using h
        · cases h
      rw [List.map_cons, scanSorted, hstill, Outcome.ok_bind, decide_eq_false henough,
        if_neg Bool.false_ne_true]
      rfl
    · have hless : a < targetAmount + f := by simpa using hbefore 0 k.succ_pos
      rw [decide_eq_true hless] at hstill
      simp only [List.take_succ_cons, valueOf_cons, feesOf_cons, List.length_cons] at *
      have hrest := ih (a := a + w.utxo.txout.value) (f := f + feeOf costs feeRate w) (k := k)
        (by omega)
        (fun j hj => by
          have := hbefore (j + 1) (by omega)
          rw [List.take_succ_cons, valueOf_cons, feesOf_cons] at this
          omega)
        (by omega) (fun u hu => hweight u (List.mem_cons_of_mem _ hu)) (by omega) (by omega)
      rw [List.map_cons, scanSorted_cons_of_needed hstill (hweight w List.mem_cons_self) (by omega)
        (by omega) hrest]
      simp only [Nat.add_assoc]

/-! ## The draw -/

/-- The required coins and the first `j` of the shuffled optional ones. -/
def drawn (required optional : List WeightedUtxo) (rand : Rng) (j : ℕ) : List WeightedUtxo :=
  required ++ (shuffleSlice optional rand).take j

section Draw

variable {required optional : List WeightedUtxo} {drainScript : Script} {rand : Rng} {k : ℕ}

/-- Past the last coin there is nothing to add. -/
theorem drawn_of_length_le (hk : (shuffleSlice optional rand).length ≤ k) :
    drawn required optional rand k
      = drawn required optional rand (shuffleSlice optional rand).length := by
  rw [drawn, drawn, List.take_of_length_le hk, List.take_length]

/-- All the coins are drawn in the end. -/
theorem drawn_perm (required optional : List WeightedUtxo) (rand : Rng) :
    (drawn required optional rand (shuffleSlice optional rand).length).Perm
      (required ++ optional) := by
  rw [drawn, List.take_length]
  exact (shuffleSlice_perm optional rand).append_left required

/-- The scan of the draw, where it stops. -/
theorem scanSorted_draw (hk : k ≤ (shuffleSlice optional rand).length)
    (hbefore : ∀ j < k, ¬Sufficient costs feeRate targetAmount (drawn required optional rand j))
    (hstop : Sufficient costs feeRate targetAmount (drawn required optional rand k)
      ∨ k = (shuffleSlice optional rand).length)
    (hfits : Fits costs feeRate targetAmount (drawn required optional rand k)) :
    (scanSorted costs feeRate targetAmount (required.map (fun u => (true, u))
        ++ (shuffleSlice optional rand).map fun u => (false, u)) 0 0 : Outcome ε _)
      = .ok (drawn required optional rand k, valueOf (drawn required optional rand k),
        feesOf costs feeRate (drawn required optional rand k)) := by
  obtain ⟨hweight, hvalue, hneeded⟩ := hfits
  unfold Sufficient at hbefore hstop
  unfold drawn at *
  simp only [valueOf_append, feesOf_append] at hbefore hstop hvalue hneeded ⊢
  refine scanSorted_required_ok (fun w hw => hweight w (List.mem_append_left _ hw)) (by omega)
    (by omega) ?_
  rw [Nat.zero_add, Nat.zero_add]
  exact scanSorted_optional_ok hk (fun j hj => Nat.lt_of_not_le (hbefore j hj)) hstop
    (fun w hw => hweight w (List.mem_append_right _ hw)) hvalue hneeded

/-- **The shortest prefix that suffices is drawn…** -/
theorem singleRandomDraw_of_isLeast (hlen : (serializedLen drainScript + 8) * 4 < 2 ^ 64)
    (hleast : IsLeast {j | Sufficient costs feeRate targetAmount (drawn required optional rand j)} k)
    (hfits : Fits costs feeRate targetAmount (drawn required optional rand k)) :
    ∃ r, SingleRandomDraw.coinSelect costs required optional feeRate targetAmount drainScript rand
        = .ok r
      ∧ r.selected = (drawn required optional rand k).map WeightedUtxo.utxo := by
  have henough : Sufficient costs feeRate targetAmount (drawn required optional rand k) := hleast.1
  have hk : k ≤ (shuffleSlice optional rand).length := by
    by_contra hgt
    rw [drawn_of_length_le (not_le.mp hgt).le] at henough
    exact hgt (hleast.2 henough)
  have hscan := scanSorted_draw (ε := InsufficientFunds) hk
    (fun j hj hsuff => not_le.mpr hj (hleast.2 hsuff)) (.inl henough) hfits
  exact ⟨_, selectSortedUtxos_of_scan hlen hscan henough hfits.needed_lt, rfl⟩

/-- **…and if none suffices, the draw fails with the totals.** -/
theorem singleRandomDraw_of_not
    (hnone : ∀ j, ¬Sufficient costs feeRate targetAmount (drawn required optional rand j))
    (hfits : Fits costs feeRate targetAmount (required ++ optional)) :
    SingleRandomDraw.coinSelect costs required optional feeRate targetAmount drainScript rand
      = Outcome.err { needed := targetAmount + feesOf costs feeRate (required ++ optional)
                      available := valueOf (required ++ optional) } := by
  have hperm := drawn_perm required optional rand
  have hvalue : valueOf (drawn required optional rand (shuffleSlice optional rand).length)
      = valueOf (required ++ optional) := (hperm.map _).sum_eq
  have hfees : feesOf costs feeRate
      (drawn required optional rand (shuffleSlice optional rand).length)
        = feesOf costs feeRate (required ++ optional) := (hperm.map _).sum_eq
  have hfits' : Fits costs feeRate targetAmount
      (drawn required optional rand (shuffleSlice optional rand).length) :=
    ⟨fun w hw => hfits.weight_lt w (hperm.mem_iff.mp hw), by rw [hvalue]; exact hfits.value_lt,
      by rw [hfees]; exact hfits.needed_lt⟩
  have hscan := scanSorted_draw (ε := InsufficientFunds) le_rfl (fun j _ => hnone j) (.inr rfl) hfits'
  have hless := hnone (shuffleSlice optional rand).length
  unfold Sufficient at hless
  rw [hvalue, hfees] at hscan hless
  rw [SingleRandomDraw.coinSelect, selectSortedUtxos, hscan, Outcome.ok_bind]
  dsimp only
  rw [Amount.add_of_lt hfits.needed_lt, Outcome.ok_bind, if_pos (not_le.mp hless)]

end Draw

end Bitspend.Wallet
