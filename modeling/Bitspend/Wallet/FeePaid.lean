import Bitspend.Wallet.Spending

/-!
# Wallet/FeePaid — the fee a created transaction pays

The documented contract of coin selection is that the target already holds the fees of the header
and of the outputs.  `create_psbt_tx` passes the bare amount, so what a transaction pays is the fee
of its inputs and, if there is change, of the change output.  The header and the recipient's output
are not paid for: at any positive rate, for any recipient and amount, a wallet with one coin comes
out short.
-/

namespace Bitspend.Wallet

open Std

variable {Xpub PublicKey : Type}

/-! ## Sizes and values of transactions -/

/-- The bytes of an input outside the witness: outpoint, script, sequence. -/
def TxIn.baseSize (i : TxIn) : ℕ := 36 + serializedLen i.scriptSig + 4

/-- The bytes of an output: value and script. -/
def TxOut.size (o : TxOut) : ℕ := 8 + serializedLen o.scriptPubkey

/-- **The virtual size of a transaction without witnesses**: its bytes — version, inputs, outputs,
lock time. -/
def Transaction.vsize (tx : Transaction) : ℕ :=
  4 + VarInt.sizeLen tx.input + (tx.input.map TxIn.baseSize).sum
    + VarInt.sizeLen tx.output + (tx.output.map TxOut.size).sum + 4

/-- The value a transaction pays out. -/
def Transaction.outputValue (tx : Transaction) : ℕ := (tx.output.map TxOut.value).sum

/-- The value of the stored coins a transaction spends. -/
def WatchOnly.inputValue (s : WatchOnly Xpub) (tx : Transaction) : ℕ :=
  (tx.spends.map fun o => (s.utxoMap[o]?.map fun w => w.utxo.txout.value).getD 0).sum

/-- **The transaction pays `r` satoshis for each virtual byte.** -/
def PaysFeeRate (s : WatchOnly Xpub) (r : ℕ) (tx : Transaction) : Prop :=
  (r * tx.vsize : ℤ) ≤ (s.inputValue tx : ℤ) - tx.outputValue

/-- The value of the change. -/
def Excess.changeValue : Excess → ℕ
  | .change amount _ => amount
  | .noChange .. => 0

namespace WalletLib

variable {lib : WalletLib Xpub PublicKey}

theorem outputValue_unsignedTxOf (recipient changeScript : Script) (amount : ℕ)
    (cs : CoinSelectionResult) :
    (unsignedTxOf recipient changeScript amount cs).outputValue
      = amount + cs.excess.changeValue := by
  rcases h : cs.excess with ⟨_, _, _⟩ | ⟨_, _⟩ <;>
    simp [Transaction.outputValue, unsignedTxOf, outputs, h, Excess.changeValue]

theorem inputValue_unsignedTxOf {s : WatchOnly Xpub} (hs : s.Filed) (recipient changeScript : Script)
    (amount : ℕ) {cs : CoinSelectionResult} {ws : List WeightedUtxo}
    (hsel : cs.selected = ws.map WeightedUtxo.utxo) (hsub : ws.Subperm s.utxos) :
    s.inputValue (unsignedTxOf recipient changeScript amount cs) = valueOf ws := by
  rw [WatchOnly.inputValue, spends_unsignedTxOf _ _ _ hsel, List.map_map, valueOf]
  refine congrArg List.sum (List.map_congr_left fun w hw => ?_)
  rw [Function.comp_apply, stored_of_subperm hs hsub hw]
  rfl

/-- **What is paid**: the remainder that does not come back as change, and the fees of the coins. -/
theorem paid_unsignedTxOf {s : WatchOnly Xpub} (hs : s.Filed) {feeRate : FeeRate} {amount rem : ℕ}
    {recipient changeScript : Script} {cs : CoinSelectionResult} {ws : List WeightedUtxo}
    (hsel : Selects lib.costs feeRate amount changeScript [] s.utxos ws rem cs) :
    (s.inputValue (unsignedTxOf recipient changeScript amount cs) : ℤ)
        - (unsignedTxOf recipient changeScript amount cs).outputValue
      = feesOf lib.costs feeRate ws + rem - cs.excess.changeValue := by
  have hbal := hsel.balanced
  rw [inputValue_unsignedTxOf hs recipient changeScript amount hsel.selected_eq hsel.subperm,
    outputValue_unsignedTxOf]
  omega

theorem changeValue_excessOf_le (costs : SpendCosts) (feeRate : FeeRate) (drainScript : Script)
    (rem : ℕ) : (excessOf costs feeRate drainScript rem).changeValue ≤ rem := by
  unfold excessOf
  split
  · exact Nat.zero_le _
  · exact Nat.sub_le _ _

/-! ## A wallet with one coin -/

theorem utxos_record_of_empty {s : WatchOnly Xpub} (hs : s.utxoMap = ∅) (o : OutPoint)
    (w : WeightedUtxo) : (s.record o w).utxos = [w] := by
  have hperm : (s.record o w).utxoMap.toList.Perm [(o, w)] := by
    rw [WatchOnly.record, hs]
    exact TreeMap.toList_insert_perm
  rw [WatchOnly.utxos, List.perm_singleton.mp hperm]
  rfl

/-- **Any coin can be the only one**: a new wallet that hands out an address and is told of a coin
for it. -/
theorem exists_oneCoinWallet [Inhabited Xpub] (hckd : ∀ x i, ∃ y, lib.ckdPub x i = .ok y)
    (value : ℕ) :
    ∃ s w, lib.Reachable s ∧ s.utxos = [w] ∧ w.utxo.txout.value = value
      ∧ w.satisfactionWeight = 0 := by
  obtain ⟨pk, hpk⟩ := childPub_ok hckd default 0 0
  let u : PartialUtxo :=
    { outpoint := default, amount := value, script := lib.p2wpkh pk, isSpent := false }
  let start : WatchOnly Xpub := WatchOnly.new default .bitcoin [] default
  let tracking := start.track (lib.p2wpkh pk) { keyType := .external, keyDepth := 0 }
  have haddress : lib.step start .getReceiveAddress = tracking := by
    rw [step]
    obtain ⟨pk', hpk', h⟩ | ⟨e, he, -⟩ := lib.getReceiveAddress_cases start
    · obtain rfl : pk' = pk := Except.ok.inj (hpk'.symm.trans hpk)
      rw [h]
      rfl
    · rw [show lib.childPub start.accountXpub 0 start.receiveDepth = .ok pk from hpk] at he
      cases he
  have hknown : tracking.pubkeyMap[u.script]? = some { keyType := .external, keyDepth := 0 } := by
    rw [WatchOnly.getElem?_track, if_pos rfl]
  refine ⟨lib.run [.getReceiveAddress, .insertUtxos [u]] start,
    WatchOnly.newUtxo u { keyType := .external, keyDepth := 0 }, ⟨_, _, _, _, _, rfl⟩, ?_, rfl, rfl⟩
  rw [run, List.foldl_cons, List.foldl_cons, List.foldl_nil, haddress, step, WatchOnly.insertUtxos,
    List.forM_cons, Op.bind_apply]
  obtain ⟨w, hw, -⟩ | ⟨d, -, hd, h⟩ | ⟨-, hd, -⟩ := WatchOnly.insertUtxo_cases u tracking
  · simp [tracking, start, WatchOnly.new] at hw
  · rw [hknown] at hd
    obtain rfl := Option.some_inj.mp hd
    rw [h]
    exact utxos_record_of_empty rfl _ _
  · rw [hknown] at hd
    cases hd

/-! ## The rate is not paid -/

theorem eq_nil_or_singleton_of_subperm {ws : List WeightedUtxo} {w : WeightedUtxo}
    (h : ws.Subperm [w]) : ws = [] ∨ ws = [w] := by
  obtain ⟨vs, hperm, hsub⟩ := h
  rcases List.sublist_singleton.mp hsub with rfl | rfl
  · exact .inl (List.nil_perm.mp hperm)
  · exact .inr (List.singleton_perm.mp hperm).symm

theorem P2wpkhLaws.minimalNonDust_of_childPub (laws : lib.P2wpkhLaws) {x : Xpub}
    {chain index : UInt32} {pk : PublicKey} (hpk : lib.childPub x chain index = .ok pk) :
    lib.costs.minimalNonDust (lib.p2wpkh pk) = 294 := by
  obtain ⟨-, z, -, -, rfl⟩ := childPub_eq_ok.mp hpk
  exact laws.minimalNonDust_eq z

/-- One input, the recipient's output and a P2WPKH change output take 91 bytes and the recipient's
script. -/
theorem le_vsize_of_change {recipient changeScript : Script} {amount : ℕ}
    {cs : CoinSelectionResult} {w : WeightedUtxo} {change fee : ℕ}
    (hlen : serializedLen changeScript = 23) (hsel : cs.selected = [w].map WeightedUtxo.utxo)
    (hexcess : cs.excess = .change change fee) :
    91 ≤ (unsignedTxOf recipient changeScript amount cs).vsize := by
  have hin := VarInt.one_le_size (UInt64.ofNat (0 + 1))
  have hout := VarInt.one_le_size (UInt64.ofNat (0 + 1 + 1))
  have hempty : serializedLen [] = 1 := rfl
  have hscript : 1 ≤ serializedLen recipient := by
    have := VarInt.one_le_size (UInt64.ofNat recipient.length)
    unfold serializedLen VarInt.sizeLen
    omega
  simp only [Transaction.vsize, unsignedTxOf, outputs, hsel, hexcess, unsignedInput, TxIn.baseSize,
    TxOut.size, List.map_cons, List.map_nil, List.sum_cons, List.sum_nil, VarInt.sizeLen,
    List.length_cons, List.length_nil, hlen, hempty]
  omega

/-- The rate `r` satoshis for each virtual byte. -/
theorem fromSatPerVb_eq {r : ℕ} {feeRate : FeeRate} (h : FeeRate.fromSatPerVb r = some feeRate) :
    feeRate = ⟨r * 250⟩ := by
  unfold FeeRate.fromSatPerVb at h
  split at h
  · exact (Option.some_inj.mp h).symm
  · cases h

/-- At a rate that can be paid for a whole block, the products with the weights of an input and of a
change output are in range. -/
theorem multiplies_of_le {r w : ℕ} (hr : r ≤ 2 ^ 46) (hw : w ≤ 165) :
    (⟨r * 250⟩ : FeeRate).Multiplies w := by
  have hprod : r * 250 * w ≤ 2 ^ 46 * 250 * 165 :=
    Nat.mul_le_mul (Nat.mul_le_mul_right 250 hr) hw
  have hroom : 2 ^ 46 * 250 * 165 + 999 < 2 ^ 64 := by decide
  exact (Nat.add_le_add_right hprod 999).trans_lt hroom

/-- The fee of a P2WPKH change output. -/
theorem mulWeight_change {r : ℕ} (hr : r ≤ 2 ^ 46) :
    (⟨r * 250⟩ : FeeRate).mulWeight 124 = 31 * r := by
  rw [(multiplies_of_le hr (by decide)).mulWeight_eq]
  simp only [FeeRate.ceilFee]
  omega

/-- **A wallet whose one coin leaves the least change worth an output** pays the fee of its input
only, which is less than the rate. -/
theorem P2wpkhLaws.not_paysFeeRate_oneCoin (laws : lib.P2wpkhLaws) {r : ℕ} (hr : r ≠ 0)
    (hle : r ≤ 2 ^ 46) {s : WatchOnly Xpub} (hs : s.Filed) {w : WeightedUtxo}
    (hutxos : s.utxos = [w]) {amount : ℕ}
    (hvalue : valueOf [w] = amount + feesOf lib.costs ⟨r * 250⟩ [w] + 31 * r + 294)
    (hfees : feesOf lib.costs ⟨r * 250⟩ [w] ≤ 42 * r) {x : Xpub} {chain index : UInt32}
    {pk : PublicKey} (hpk : lib.childPub x chain index = .ok pk) {ws : List WeightedUtxo} {rem : ℕ}
    {cs : CoinSelectionResult} (recipient : Script)
    (hsel : Selects lib.costs ⟨r * 250⟩ amount (lib.p2wpkh pk) [] s.utxos ws rem cs) :
    ¬PaysFeeRate s r (unsignedTxOf recipient (lib.p2wpkh pk) amount cs) := by
  intro hpaid
  rw [PaysFeeRate, paid_unsignedTxOf hs hsel] at hpaid
  have hbal := hsel.balanced
  obtain rfl | rfl : ws = [] ∨ ws = [w] := by
    have hsub := hsel.subperm
    rw [hutxos, List.nil_append] at hsub
    exact eq_nil_or_singleton_of_subperm hsub
  · -- nothing is spent, so nothing is paid
    rw [valueOf_nil, feesOf_nil] at hbal
    have hpos : 0 < r * (unsignedTxOf recipient (lib.p2wpkh pk) amount cs).vsize :=
      Nat.mul_pos (Nat.pos_of_ne_zero hr) (by unfold Transaction.vsize; omega)
    rw [feesOf_nil] at hpaid
    omega
  · have hrem : rem = 31 * r + 294 := by omega
    have hexcess : cs.excess = .change 294 (31 * r) := by
      rw [hsel.excess_eq, excessOf, changeFeeOf, laws.serializedLen_eq hpk, mulWeight_change hle,
        laws.minimalNonDust_of_childPub hpk, hrem, Nat.add_sub_cancel_left, if_neg (by decide)]
    have hlow : r * 91 ≤ r * (unsignedTxOf recipient (lib.p2wpkh pk) amount cs).vsize :=
      Nat.mul_le_mul_left r
        (le_vsize_of_change (laws.serializedLen_eq hpk) hsel.selected_eq hexcess)
    rw [hexcess, Excess.changeValue] at hpaid
    omega

/-- **At every positive rate some wallet pays less**, whatever it is to send. -/
theorem P2wpkhLaws.exists_not_paysFeeRate [Inhabited Xpub] (laws : lib.P2wpkhLaws) {r : ℕ}
    (hr : r ≠ 0) (recipient : Script) {amount : ℕ} (hamount : amount + 73 * r + 1000 ≤ 21 * 10 ^ 14) :
    ∃ s rand psbt t, lib.Reachable s
      ∧ lib.createPsbtTx recipient ⟨r * 250⟩ amount rand s = (.ok psbt, t)
      ∧ ¬PaysFeeRate s r psbt.unsignedTx := by
  have hle : r ≤ 2 ^ 46 := by omega
  have hproduct : (⟨r * 250⟩ : FeeRate).Multiplies 165 := multiplies_of_le hle le_rfl
  have hfee : (⟨r * 250⟩ : FeeRate).mulWeight 165 ≤ 42 * r := by
    rw [hproduct.mulWeight_eq]
    simp only [FeeRate.ceilFee]
    omega
  obtain ⟨s, w, hreach, hutxos, hvalue, hweight⟩ := exists_oneCoinWallet laws.ckdPub_ok
    (amount + (⟨r * 250⟩ : FeeRate).mulWeight 165 + 31 * r + 294)
  have hfees : feesOf lib.costs ⟨r * 250⟩ [w] = (⟨r * 250⟩ : FeeRate).mulWeight 165 := by
    rw [feesOf_cons, feesOf_nil, feeOf, laws.segwitWeight_eq, hweight]
    rfl
  have htotal : valueOf [w] = amount + (⟨r * 250⟩ : FeeRate).mulWeight 165 + 31 * r + 294 := by
    rw [valueOf_cons, valueOf_nil, hvalue, Nat.add_zero]
  have hsupply : WithinSupply lib.costs ⟨r * 250⟩ s.utxos := by
    rw [hutxos]
    refine ⟨?_, ?_, by omega, by omega⟩
    · simp only [List.mem_singleton, forall_eq, laws.segwitWeight_eq, hweight]
      decide
    · simp only [List.mem_singleton, forall_eq, laws.segwitWeight_eq, hweight]
      exact hproduct
  obtain ⟨pk, cs, psbt, t, hpk, hcs, hcreate, htx⟩ := laws.createPsbtTx_ok s recipient
    ⟨r * 250⟩ amount (fun _ => 0) hsupply (by rw [hutxos]; omega)
  obtain ⟨ws, rem, hsel⟩ := coinSelect_selects hcs
  refine ⟨s, _, psbt, t, hreach, hcreate, ?_⟩
  rw [htx]
  exact laws.not_paysFeeRate_oneCoin hr hle (filed_of_reachable hreach) hutxos (by omega) (by omega)
    hpk recipient hsel

/-- At rate zero there is nothing to pay. -/
theorem paysFeeRate_zero {s t : WatchOnly Xpub} (hs : lib.Reachable s) {recipient : Script}
    {amount : ℕ} {rand : Rng} {psbt : Psbt PublicKey}
    (h : lib.createPsbtTx recipient ⟨0 * 250⟩ amount rand s = (.ok psbt, t)) :
    PaysFeeRate s 0 psbt.unsignedTx := by
  obtain ⟨pk, cs, -, -, hcs, htx, -⟩ := lib.createPsbtTx_eq_ok h
  obtain ⟨ws, rem, hsel⟩ := coinSelect_selects hcs
  have hle := changeValue_excessOf_le lib.costs ⟨0 * 250⟩ (lib.p2wpkh pk) rem
  rw [htx, PaysFeeRate, paid_unsignedTxOf (filed_of_reachable hs) hsel, hsel.excess_eq]
  omega

/-- **The fee rate is paid at rate zero only**: for every recipient and amount, at every positive
rate, some wallet pays less than the rate. -/
theorem paysFeeRate_iff [Inhabited Xpub] (lib : WalletLib Xpub PublicKey) (laws : lib.P2wpkhLaws)
    (r : ℕ) (feeRate : FeeRate) (hrate : FeeRate.fromSatPerVb r = some feeRate) (recipient : Script)
    (amount : ℕ) (hamount : 0 < r → amount + 73 * r + 1000 ≤ 21 * 10 ^ 14) :
    (∀ s, lib.Reachable s → ∀ rand psbt t,
        lib.createPsbtTx recipient feeRate amount rand s = (.ok psbt, t) →
          PaysFeeRate s r psbt.unsignedTx)
      ↔ r = 0 := by
  obtain rfl := fromSatPerVb_eq hrate
  constructor
  · intro hpays
    by_contra hr
    obtain ⟨s, rand, psbt, t, hreach, hcreate, hless⟩ :=
      laws.exists_not_paysFeeRate hr recipient (hamount (Nat.pos_of_ne_zero hr))
    exact hless (hpays s hreach rand psbt t hcreate)
  · rintro rfl s hs rand psbt t h
    exact paysFeeRate_zero hs h

end WalletLib

/-- At three satoshis a virtual byte, not every wallet pays the rate. -/
theorem paysFeeRate_iff_three :
    FeeRate.fromSatPerVb 3 = some ⟨750⟩
      ∧ ¬ ∀ s, segwitLib.Reachable s → ∀ rand psbt t,
        segwitLib.createPsbtTx (segwitLib.p2wpkh [7]) ⟨750⟩ 1000 rand s = (.ok psbt, t) →
          PaysFeeRate s 3 psbt.unsignedTx := by
  refine ⟨by decide, fun h => ?_⟩
  have := (WalletLib.paysFeeRate_iff segwitLib segwitLib_laws 3 ⟨750⟩ (by decide)
    (segwitLib.p2wpkh [7]) 1000 (fun _ => by decide)).mp h
  cases this

/-- **One coin of a hundred thousand satoshis, a thousand to send, three satoshis a virtual byte**:
the transaction takes 113 virtual bytes and pays 217 satoshis. -/
theorem not_paysFeeRate_reported :
    ¬ ∀ s, segwitLib.Reachable s → ∀ recipient amount rand psbt t r feeRate,
      FeeRate.fromSatPerVb r = some feeRate →
      segwitLib.createPsbtTx recipient feeRate amount rand s = (.ok psbt, t) →
        PaysFeeRate s r psbt.unsignedTx := by
  intro hall
  have hsizes : (fun psbt : Psbt (List UInt32) =>
        (psbt.unsignedTx.vsize, (reportedWallet [false]).inputValue psbt.unsignedTx,
          psbt.unsignedTx.outputValue)) <$>
      (segwitLib.createPsbtTx (segwitLib.p2wpkh [7]) ⟨750⟩ 1000 (fun _ => 0)
        (reportedWallet [false])).1 = .ok (113, 100000, 99783) := by decide +kernel
  rcases h : segwitLib.createPsbtTx (segwitLib.p2wpkh [7]) ⟨750⟩ 1000 (fun _ => 0)
      (reportedWallet [false]) with ⟨e | psbt, t⟩
  · rw [h] at hsizes
    cases hsizes
  · rw [h] at hsizes
    have hpays := hall _ (reachable_reportedWallet _) _ _ _ psbt t 3 ⟨750⟩ (by decide) h
    obtain ⟨hsize, hin, hout⟩ : psbt.unsignedTx.vsize = 113
        ∧ (reportedWallet [false]).inputValue psbt.unsignedTx = 100000
        ∧ psbt.unsignedTx.outputValue = 99783 := by
      simpa using Except.ok.inj hsizes
    rw [PaysFeeRate, hsize, hin, hout] at hpays
    omega

end Bitspend.Wallet
