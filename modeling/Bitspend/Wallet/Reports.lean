import Bitspend.Wallet.Runs

/-!
# Wallet/Reports — what a list of reports does to the wallet

For each outpoint the wallet holds a coin or not.  A report about a coin it holds only changes the
mark; a report about another files it as reported.  So what a list of reports does at an outpoint
depends on the reports about that outpoint alone, and the last one decides the mark.
-/

namespace Bitspend.Wallet

open Std

variable {Xpub : Type}

namespace WatchOnly

/-- The coin at an outpoint, as the wallet would report it. -/
def coin (s : WatchOnly Xpub) (o : OutPoint) : Option PartialUtxo :=
  s.utxoMap[o]?.map fun w => w.utxo.toPartial

/-- What a report does at its own outpoint. -/
def reportAt (c : Option PartialUtxo) (u : PartialUtxo) : Option PartialUtxo :=
  match c with
  | none => some u
  | some x => some { x with isSpent := u.isSpent }

theorem mem_getUtxos {s : WatchOnly Xpub} {u : PartialUtxo} :
    u ∈ s.getUtxos ↔ ∃ o, s.coin o = some u := by
  simp only [getUtxos, List.mem_map, mem_utxos, coin, Option.map_eq_some_iff]
  constructor
  · rintro ⟨w, ⟨o, hw⟩, rfl⟩
    exact ⟨o, w, hw, rfl⟩
  · rintro ⟨o, w, hw, rfl⟩
    exact ⟨w, ⟨o, hw⟩, rfl⟩

/-- Coins under their own outpoints are all different. -/
theorem nodup_getUtxos {s : WatchOnly Xpub} (h : ∀ o u, s.coin o = some u → u.outpoint = o) :
    s.getUtxos.Nodup := by
  have hown : ∀ (o : OutPoint) (w : WeightedUtxo), s.utxoMap[o]? = some w → w.utxo.outpoint = o :=
    fun o w hw => h o w.utxo.toPartial (by rw [coin, hw]; rfl)
  refine List.Nodup.of_map PartialUtxo.outpoint ?_
  rw [getUtxos, List.map_map]
  exact nodup_outpoints hown

theorem coin_record (o o' : OutPoint) (w : WeightedUtxo) (s : WatchOnly Xpub) :
    (s.record o w).coin o' = if o = o' then some w.utxo.toPartial else s.coin o' := by
  rw [coin, getElem?_record]
  split_ifs
  · rfl
  · rfl

/-! ## One report -/

/-- **A report is either taken or refused**, and refused only when neither the coin nor its script is
known. -/
theorem insertUtxo_spec (u : PartialUtxo) (s : WatchOnly Xpub) :
    (∃ s', insertUtxo u s = (.ok (), s') ∧ s'.pubkeyMap = s.pubkeyMap
      ∧ ∀ o, s'.coin o = if u.outpoint = o then reportAt (s.coin o) u else s.coin o)
    ∨ (insertUtxo u s = (.error (.error .noPubKey), s) ∧ s.coin u.outpoint = none
      ∧ s.pubkeyMap[u.script]? = none) := by
  obtain ⟨w, hw, h⟩ | ⟨d, hu, -, h⟩ | ⟨hu, hs, h⟩ := insertUtxo_cases u s
  · refine .inl ⟨_, h, rfl, fun o => ?_⟩
    rw [coin_record]
    split_ifs with ho
    · subst ho
      rw [coin, hw]
      rfl
    · rfl
  · refine .inl ⟨_, h, rfl, fun o => ?_⟩
    rw [coin_record]
    split_ifs with ho
    · subst ho
      rw [coin, hu]
      rfl
    · rfl
  · exact .inr ⟨h, by rw [coin, hu]; rfl, hs⟩

/-! ## Lists of reports -/

/-- The reports about an outpoint. -/
def about (o : OutPoint) (us : List PartialUtxo) : List PartialUtxo :=
  us.filter fun u => u.outpoint = o

theorem about_append (o : OutPoint) (us us' : List PartialUtxo) :
    about o (us ++ us') = about o us ++ about o us' := List.filter_append us us'

theorem reportAt_ne_none (c : Option PartialUtxo) (u : PartialUtxo) : reportAt c u ≠ none := by
  rcases c with _ | x
  · exact Option.some_ne_none _
  · exact Option.some_ne_none _

/-- **Reports about known coins or known scripts are all taken.** -/
theorem insertUtxos_ok {us : List PartialUtxo} {s : WatchOnly Xpub}
    (h : ∀ u ∈ us, s.coin u.outpoint ≠ none ∨ s.pubkeyMap[u.script]? ≠ none) :
    ∃ s', insertUtxos us s = (.ok (), s') := by
  induction us generalizing s with
  | nil => exact ⟨s, rfl⟩
  | cons u us ih =>
    obtain ⟨s₁, h₁, hpk, hcoin⟩ | ⟨-, hno, hnos⟩ := insertUtxo_spec u s
    · have hrest : ∀ u' ∈ us, s₁.coin u'.outpoint ≠ none ∨ s₁.pubkeyMap[u'.script]? ≠ none := by
        intro u' hu'
        rw [hpk, hcoin]
        split_ifs
        · exact .inl (reportAt_ne_none _ _)
        · exact h u' (List.mem_cons_of_mem u hu')
      obtain ⟨s', h'⟩ := ih hrest
      exact ⟨s', Op.forM_cons_eq_ok.mpr ⟨(), s₁, h₁, h'⟩⟩
    · rcases h u List.mem_cons_self with hc | hc
      · exact absurd hno hc
      · exact absurd hnos hc

/-- **What reports that are taken do**: at each outpoint, what those about it do, in order. -/
theorem insertUtxos_eq_ok {us : List PartialUtxo} {s s' : WatchOnly Xpub} {v : PUnit}
    (h : insertUtxos us s = (.ok v, s')) :
    s'.pubkeyMap = s.pubkeyMap ∧ ∀ o, s'.coin o = (about o us).foldl reportAt (s.coin o) := by
  induction us generalizing s with
  | nil =>
    obtain ⟨-, rfl⟩ := Op.pure_eq_ok.mp h
    exact ⟨rfl, fun o => rfl⟩
  | cons u us ih =>
    obtain ⟨_, s₁, h₁, h₂⟩ := Op.forM_cons_eq_ok.mp h
    obtain ⟨hpk', hcoin'⟩ := ih h₂
    obtain ⟨s₂, hs₂, hpk, hcoin⟩ | ⟨hs₂, -, -⟩ := insertUtxo_spec u s
    · rw [hs₂] at h₁
      cases h₁
      refine ⟨hpk'.trans hpk, fun o => ?_⟩
      rw [hcoin' o, hcoin o, about, about, List.filter_cons]
      split_ifs <;> simp_all
    · rw [hs₂] at h₁
      cases h₁

/-- The last of the reports decides the mark, if they agree on everything else. -/
theorem foldl_reportAt {x : PartialUtxo} {us : List PartialUtxo}
    (hus : ∀ u ∈ us, u = { x with isSpent := u.isSpent }) (m : Option Bool) :
    us.foldl reportAt (m.map fun b => { x with isSpent := b })
      = ((us.getLast?.map PartialUtxo.isSpent).or m).map fun b => { x with isSpent := b } := by
  induction us generalizing m with
  | nil => rfl
  | cons u us ih =>
    have hu := hus u List.mem_cons_self
    have hstep : reportAt (m.map fun b => { x with isSpent := b }) u
        = (some u.isSpent).map fun b => { x with isSpent := b } := by
      rcases m with _ | b
      · exact congrArg some hu
      · rfl
    rw [List.foldl_cons, hstep, ih (fun u' hu' => hus u' (List.mem_cons_of_mem u hu')) (some u.isSpent)]
    rcases us with _ | ⟨u', us⟩
    · rfl
    · rw [List.getLast?_cons_cons]
      rcases hl : (u' :: us).getLast? with _ | v
      · simp at hl
      · rfl

/-! ## The balance -/

/-- The value of the coins that are not marked as spent. -/
def unspentValue (us : List PartialUtxo) : ℕ :=
  ((us.filter fun u => !u.isSpent).map PartialUtxo.amount).sum

theorem unspentValue_cons (u : PartialUtxo) (us : List PartialUtxo) :
    unspentValue (u :: us) = (if u.isSpent then 0 else u.amount) + unspentValue us := by
  unfold unspentValue
  rcases h : u.isSpent
  · simp [h]
  · simp [h]

theorem unspentValue_perm {us us' : List PartialUtxo} (h : us.Perm us') :
    unspentValue us = unspentValue us' := ((h.filter _).map _).sum_eq

/-- The sum of `balance`, from a value on. -/
theorem foldlM_balance {ws : List WeightedUtxo} {acc b : ℕ} (hacc : acc < 2 ^ 64) :
    (ws.foldlM (fun balance w =>
      if w.utxo.isSpent then pure balance
      else Outcome.expect "called `Option::unwrap()` on a `None` value"
        (Amount.checkedAdd balance w.utxo.txout.value)) acc : Outcome Error ℕ) = .ok b
    ↔ acc + unspentValue (ws.map fun w => w.utxo.toPartial) < 2 ^ 64
      ∧ b = acc + unspentValue (ws.map fun w => w.utxo.toPartial) := by
  induction ws generalizing acc with
  | nil =>
    change (.ok acc : Outcome Error ℕ) = .ok b ↔ _
    simp only [Except.ok.injEq, unspentValue, List.map_nil, List.filter_nil, List.sum_nil, add_zero,
      hacc, true_and, eq_comm]
  | cons w ws ih =>
    rw [List.foldlM_cons, List.map_cons, unspentValue_cons]
    rcases hw : w.utxo.isSpent
    · rw [if_neg Bool.false_ne_true, Utxo.toPartial, if_neg (by simp [hw]), Amount.checkedAdd]
      split_ifs with hlt
      · rw [Outcome.expect, Outcome.ok_bind, ih hlt, add_assoc]
      · constructor
        · intro h
          cases h
        · rintro ⟨h, -⟩
          dsimp only at h
          omega
    · rw [if_pos rfl, Utxo.toPartial, if_pos hw]
      exact (ih hacc).trans (by rw [zero_add])

/-- **The balance is the value of the coins not marked as spent**, unless that does not fit a
`u64`. -/
theorem balance_eq_ok_iff {s : WatchOnly Xpub} {b : ℕ} :
    s.balance = .ok b ↔ unspentValue s.getUtxos < 2 ^ 64 ∧ b = unspentValue s.getUtxos := by
  have hperm := (List.perm_insertionSort (fun a b : WeightedUtxo => a.utxo.isSpent ≤ b.utxo.isSpent)
    s.utxos).map fun w => w.utxo.toPartial
  rw [balance, foldlM_balance (by decide), unspentValue_perm hperm, zero_add]
  rfl

end WatchOnly

end Bitspend.Wallet
