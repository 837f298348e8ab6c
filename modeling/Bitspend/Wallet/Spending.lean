import Bitspend.Wallet.Runs
import Bitspend.Wallet.SelectionTotal

/-!
# Wallet/Spending — what a created transaction spends and pays

`create_psbt_tx` hands every stored coin to coin selection, whether or not it is flagged spent, and
passes the recipient's amount as the target, without the fees of the header and the outputs that
`CoinSelectionAlgorithm` expects in it.  So the coins spent are distinct stored coins, and unspent
ones as long as none is flagged; and the fee paid is that of the inputs and of the change output
alone.
-/

namespace Bitspend.Wallet

open Std

variable {Xpub PublicKey : Type}

/-! ## The inputs of a created transaction -/

/-- The outpoints a transaction spends. -/
def Transaction.spends (tx : Transaction) : List OutPoint := tx.input.map TxIn.previousOutput

/-- **The transaction spends distinct stored coins, none of them flagged spent.** -/
def SpendsUnspent (s : WatchOnly Xpub) (tx : Transaction) : Prop :=
  tx.spends.Nodup
    ∧ ∀ o ∈ tx.spends, ∃ w : WeightedUtxo, s.utxoMap[o]? = some w ∧ w.utxo.isSpent = false

namespace WalletLib

variable {lib : WalletLib Xpub PublicKey}

theorem spends_unsignedTxOf (recipient changeScript : Script) (amount : ℕ)
    {cs : CoinSelectionResult} {ws : List WeightedUtxo}
    (h : cs.selected = ws.map WeightedUtxo.utxo) :
    (unsignedTxOf recipient changeScript amount cs).spends
      = ws.map fun w => w.utxo.outpoint := by
  rw [Transaction.spends, unsignedTxOf, h, List.map_map, List.map_map]
  rfl

/-- A selected coin is stored, under its own outpoint. -/
theorem stored_of_subperm {s : WatchOnly Xpub} (hs : s.Filed) {ws : List WeightedUtxo}
    (hsub : ws.Subperm s.utxos) {w : WeightedUtxo} (hw : w ∈ ws) :
    s.utxoMap[w.utxo.outpoint]? = some w := by
  obtain ⟨o, ho⟩ := WatchOnly.mem_utxos.mp (hsub.subset hw)
  rwa [← (hs o w ho).1] at ho

theorem nodup_of_subperm {s : WatchOnly Xpub} (hs : s.Filed) {ws : List WeightedUtxo}
    (hsub : ws.Subperm s.utxos) : (ws.map fun w => w.utxo.outpoint).Nodup := by
  obtain ⟨vs, hperm, hvs⟩ := hsub
  have hnodup := (hvs.map fun w => w.utxo.outpoint).nodup (WatchOnly.nodup_outpoints fun o w h => (hs o w h).1)
  exact (hperm.map _).nodup_iff.mp hnodup

/-- **Distinct stored coins, always.** -/
theorem createPsbtTx_spends {s t : WatchOnly Xpub} (hs : s.Filed) {recipient : Script}
    {feeRate : FeeRate} {amount : ℕ} {rand : Rng} {psbt : Psbt PublicKey}
    (h : lib.createPsbtTx recipient feeRate amount rand s = (.ok psbt, t)) :
    psbt.unsignedTx.spends.Nodup
      ∧ ∀ o ∈ psbt.unsignedTx.spends, ∃ w : WeightedUtxo, s.utxoMap[o]? = some w := by
  obtain ⟨pk, cs, -, -, hcs, htx, -⟩ := lib.createPsbtTx_eq_ok h
  obtain ⟨ws, rem, hsel⟩ := coinSelect_selects hcs
  rw [htx, spends_unsignedTxOf _ _ _ hsel.selected_eq]
  refine ⟨nodup_of_subperm hs hsel.subperm, fun o ho => ?_⟩
  obtain ⟨w, hw, rfl⟩ := List.mem_map.mp ho
  exact ⟨w, stored_of_subperm hs hsel.subperm hw⟩

/-! ## When a transaction is created -/

/-- **What `bitcoin` computes for P2WPKH**: derivation succeeds, an input without script and witness
weighs 165 units, a script has 22 bytes and 294 satoshis are worth an output with it. -/
structure P2wpkhLaws (lib : WalletLib Xpub PublicKey) : Prop where
  ckdPub_ok : ∀ x i, ∃ y, lib.ckdPub x i = .ok y
  segwitWeight_eq : lib.costs.segwitWeight = 165
  length_p2wpkh : ∀ x, (lib.p2wpkh (lib.toPub x)).length = 22
  minimalNonDust_eq : ∀ x, lib.costs.minimalNonDust (lib.p2wpkh (lib.toPub x)) = 294

/-- Inputs without scripts and witnesses pass the checks. -/
theorem unsignedTxChecks_ok {is : List TxIn} (h : ∀ i ∈ is, i.scriptSig = [] ∧ i.witness = []) :
    Psbt.unsignedTxChecks is = .ok () := by
  induction is with
  | nil => rfl
  | cons i is ih =>
    obtain ⟨⟨hscript, hwitness⟩, hrest⟩ := List.forall_mem_cons.mp h
    rw [Psbt.unsignedTxChecks, hscript, hwitness]
    exact ih hrest

theorem fromUnsignedTx_unsignedTxOf (recipient changeScript : Script) (amount : ℕ)
    (cs : CoinSelectionResult) :
    ∃ psbt : Psbt PublicKey, Psbt.fromUnsignedTx (unsignedTxOf recipient changeScript amount cs)
      = .ok psbt ∧ psbt.unsignedTx = unsignedTxOf recipient changeScript amount cs := by
  rw [Psbt.fromUnsignedTx, unsignedTxChecks_ok (by simp [unsignedTxOf, unsignedInput])]
  exact ⟨_, rfl, rfl⟩

theorem psbtInput_ok (hckd : ∀ x i, ∃ y, lib.ckdPub x i = .ok y) (s : WatchOnly Xpub)
    (utxo : Utxo) : ∃ input, lib.psbtInput s utxo = .ok input := by
  obtain ⟨pk, hpk⟩ := childPub_ok hckd s.accountXpub utxo.keychain.asU32 utxo.derivationIndex
  rw [psbtInput, derivePubkey, hpk, Outcome.ok_bind]
  exact ⟨_, rfl⟩

/-- **A selection becomes a PSBT**, once the keys can be derived. -/
theorem createPsbtTx_ok (hckd : ∀ x i, ∃ y, lib.ckdPub x i = .ok y) {s : WatchOnly Xpub}
    (recipient : Script) {feeRate : FeeRate} {amount : ℕ} {rand : Rng} {pk : PublicKey}
    {cs : CoinSelectionResult} (hpk : lib.childPub s.accountXpub 1 s.changeDepth = .ok pk)
    (hcs : defaultCoinSelectionAlgorithm lib.costs lib.sorter [] s.utxos feeRate amount
      (lib.p2wpkh pk) rand = .ok cs) :
    ∃ psbt t, lib.createPsbtTx recipient feeRate amount rand s = (.ok psbt, t)
      ∧ psbt.unsignedTx = unsignedTxOf recipient (lib.p2wpkh pk) amount cs := by
  have hchange : lib.getChangeScript s = (.ok (lib.p2wpkh pk), afterChangeScript (lib.p2wpkh pk) s) :=
    Op.ask_bind_of_ok hpk
  obtain ⟨psbt, hpsbt, htx⟩ : ∃ psbt : Psbt PublicKey, Psbt.fromUnsignedTx
      (unsignedTxOf recipient (lib.p2wpkh pk) amount cs) = .ok psbt ∧ psbt.unsignedTx = _ :=
    fromUnsignedTx_unsignedTxOf recipient (lib.p2wpkh pk) amount cs
  choose input hinput using psbtInput_ok hckd (afterChangeScript (lib.p2wpkh pk) s)
  have hinputs : cs.selected.mapM (lib.psbtInput (afterChangeScript (lib.p2wpkh pk) s))
      = .ok (cs.selected.map input) := Outcome.mapM_ok fun u _ => hinput u
  refine ⟨{ psbt with inputs := cs.selected.map input }, afterChangeScript (lib.p2wpkh pk) s,
    Op.bind_eq_ok.mpr ⟨_, _, hchange, ?_⟩, htx⟩
  refine Op.bind_eq_ok.mpr ⟨cs, _, Op.ask_eq_ok.mpr ⟨Outcome.mapErr_eq_ok.mpr hcs, rfl⟩, ?_⟩
  refine Op.bind_eq_ok.mpr ⟨psbt, _, Op.lift_eq_ok.mpr ⟨Outcome.mapErr_eq_ok.mpr hpsbt, rfl⟩, ?_⟩
  refine Op.bind_eq_ok.mpr ⟨cs.selected.map input, _, Op.ask_eq_ok.mpr ⟨hinputs, rfl⟩, ?_⟩
  exact Op.pure_eq_ok.mpr ⟨rfl, rfl⟩

/-- The length of a P2WPKH output. -/
theorem serializedLen_of_childPub (hscript : ∀ x, (lib.p2wpkh (lib.toPub x)).length = 22) {x : Xpub}
    {chain index : UInt32} {pk : PublicKey} (hpk : lib.childPub x chain index = .ok pk) :
    serializedLen (lib.p2wpkh pk) = 23 := by
  obtain ⟨-, z, -, -, rfl⟩ := childPub_eq_ok.mp hpk
  rw [serializedLen, VarInt.sizeLen, hscript z]
  rfl

theorem P2wpkhLaws.serializedLen_eq (laws : lib.P2wpkhLaws) {x : Xpub} {chain index : UInt32}
    {pk : PublicKey} (hpk : lib.childPub x chain index = .ok pk) :
    serializedLen (lib.p2wpkh pk) = 23 :=
  serializedLen_of_childPub laws.length_p2wpkh hpk

/-- **A wallet whose coins pay for an amount and their own fees makes the transaction.** -/
theorem P2wpkhLaws.createPsbtTx_ok (laws : lib.P2wpkhLaws) (s : WatchOnly Xpub)
    (recipient : Script) (feeRate : FeeRate) (amount : ℕ) (rand : Rng)
    (hsupply : WithinSupply lib.costs feeRate s.utxos)
    (henough : amount + feesOf lib.costs feeRate s.utxos ≤ valueOf s.utxos) :
    ∃ pk cs psbt t, lib.childPub s.accountXpub 1 s.changeDepth = .ok pk
      ∧ defaultCoinSelectionAlgorithm lib.costs lib.sorter [] s.utxos feeRate amount
          (lib.p2wpkh pk) rand = .ok cs
      ∧ lib.createPsbtTx recipient feeRate amount rand s = (.ok psbt, t)
      ∧ psbt.unsignedTx = unsignedTxOf recipient (lib.p2wpkh pk) amount cs := by
  obtain ⟨pk, hpk⟩ := childPub_ok laws.ckdPub_ok s.accountXpub 1 s.changeDepth
  have hlen := laws.serializedLen_eq hpk
  obtain ⟨cs, hcs⟩ : ∃ cs, defaultCoinSelectionAlgorithm lib.costs lib.sorter [] s.utxos feeRate
      amount (lib.p2wpkh pk) rand = .ok cs :=
    coinSelect_ok (by decide) (by rw [hlen]; decide) hsupply henough rand
  obtain ⟨psbt, t, hcreate, htx⟩ := WalletLib.createPsbtTx_ok laws.ckdPub_ok recipient hpk hcs
  exact ⟨pk, cs, psbt, t, hpk, hcs, hcreate, htx⟩

/-! ## Spent coins -/

theorem feesOf_zero_rate (costs : SpendCosts) (ws : List WeightedUtxo) :
    feesOf costs ⟨0⟩ ws = 0 := by
  induction ws with
  | nil => rfl
  | cons w ws ih =>
    rw [feesOf_cons, ih]
    simp [feeOf, FeeRate.mulWeight]

/-- A selection worth as much as all the stored coins leaves none with a value behind. -/
theorem mem_of_valueOf_le {s : WatchOnly Xpub} {ws : List WeightedUtxo}
    (hsub : ws.Subperm s.utxos) (hall : valueOf s.utxos ≤ valueOf ws) {w : WeightedUtxo}
    (hw : w ∈ s.utxos) (hpos : 0 < w.utxo.txout.value) : w ∈ ws := by
  by_contra hnot
  have hle := valueOf_le_of_subperm (List.cons_subperm_of_not_mem_of_mem hnot hw hsub)
  rw [valueOf_cons] at hle
  omega

/-- **Every coin with a value is spent by some transaction**: asking for all there is, at no fee, takes each
of them. -/
theorem P2wpkhLaws.exists_spends (laws : lib.P2wpkhLaws) {s : WatchOnly Xpub} (hfiled : s.Filed)
    (hvalue : valueOf s.utxos ≤ 21 * 10 ^ 14) {w : WeightedUtxo} (hw : w ∈ s.utxos)
    (hpos : 0 < w.utxo.txout.value) :
    ∃ psbt t, lib.createPsbtTx [] ⟨0⟩ (valueOf s.utxos) (fun _ => 0) s = (.ok psbt, t)
      ∧ w.utxo.outpoint ∈ psbt.unsignedTx.spends := by
  have hsupply : WithinSupply lib.costs ⟨0⟩ s.utxos := by
    have hweight : ∀ v ∈ s.utxos, lib.costs.segwitWeight + v.satisfactionWeight = 165 := by
      intro v hv
      obtain ⟨o, ho⟩ := WatchOnly.mem_utxos.mp hv
      rw [laws.segwitWeight_eq, (hfiled o v ho).2]
    refine ⟨fun v hv => ?_, fun v hv => ?_, hvalue, by rw [feesOf_zero_rate]; exact Nat.zero_le _⟩
    · rw [hweight v hv]
      decide
    · rw [hweight v hv]
      decide
  have henough : valueOf s.utxos + feesOf lib.costs ⟨0⟩ s.utxos ≤ valueOf s.utxos := by
    rw [feesOf_zero_rate, Nat.add_zero]
  obtain ⟨pk, cs, psbt, t, -, hcs, hcreate, htx⟩ :=
    laws.createPsbtTx_ok s [] ⟨0⟩ _ (fun _ => 0) hsupply henough
  obtain ⟨ws, rem, hsel⟩ := coinSelect_selects hcs
  have hmem : w ∈ ws := by
    refine mem_of_valueOf_le hsel.subperm ?_ hw hpos
    have hbal := hsel.balanced
    omega
  refine ⟨psbt, t, hcreate, ?_⟩
  rw [htx, spends_unsignedTxOf _ _ _ hsel.selected_eq]
  exact List.mem_map_of_mem hmem

/-- **The wallet spends only unspent coins as long as it has no others**; and a coin with a value
that is flagged spent gets spent again, by some transaction. -/
theorem createPsbtTx_spendsUnspent (lib : WalletLib Xpub PublicKey) (s : WatchOnly Xpub)
    (hs : lib.Reachable s) :
    ((∀ (o : OutPoint) (w : WeightedUtxo), s.utxoMap[o]? = some w → w.utxo.isSpent = false) →
      ∀ recipient feeRate amount rand psbt t,
        lib.createPsbtTx recipient feeRate amount rand s = (.ok psbt, t) →
          SpendsUnspent s psbt.unsignedTx)
    ∧ (lib.P2wpkhLaws → valueOf s.utxos ≤ 21 * 10 ^ 14 →
      (∃ (o : OutPoint) (w : WeightedUtxo), s.utxoMap[o]? = some w ∧ w.utxo.isSpent = true
        ∧ 0 < w.utxo.txout.value) →
      ∃ recipient feeRate amount rand psbt t,
        lib.createPsbtTx recipient feeRate amount rand s = (.ok psbt, t)
          ∧ ¬ SpendsUnspent s psbt.unsignedTx) := by
  have hfiled := filed_of_reachable hs
  refine ⟨fun hnone recipient feeRate amount rand psbt t h => ?_, ?_⟩
  · obtain ⟨hnodup, hstored⟩ := createPsbtTx_spends hfiled h
    refine ⟨hnodup, fun o ho => ?_⟩
    obtain ⟨w, hw⟩ := hstored o ho
    exact ⟨w, hw, hnone o w hw⟩
  · rintro laws hvalue ⟨o, w, hw, hspent, hpos⟩
    obtain ⟨psbt, t, hcreate, hspends⟩ :=
      laws.exists_spends hfiled hvalue (WatchOnly.mem_utxos.mpr ⟨o, hw⟩) hpos
    refine ⟨_, _, _, _, psbt, t, hcreate, ?_⟩
    rintro ⟨-, hunspent⟩
    obtain ⟨v, hv, hflag⟩ := hunspent w.utxo.outpoint hspends
    rw [(hfiled o w hw).1, hw] at hv
    obtain rfl := Option.some_inj.mp hv
    rw [hspent] at hflag
    cases hflag

end WalletLib

/-! ## A wallet with one address -/

/-- Keys are the paths they were derived along, and a script holds the first twenty bytes of its
path, padded. -/
def segwitLib : WalletLib (List UInt32) (List UInt32) where
  costs := sampleCosts
  sorter := .insertion _
  ckdPub path i := .ok (path ++ [i])
  toPub path := path
  p2wpkh path := 0 :: 20 :: (path.flatMap u32LE ++ List.replicate 20 9).take 20
  address path _ := "bc1q" ++ String.join (path.map toString)

theorem segwitLib_laws : segwitLib.P2wpkhLaws where
  ckdPub_ok x i := ⟨x ++ [i], rfl⟩
  segwitWeight_eq := rfl
  length_p2wpkh x := by simp [segwitLib]
  minimalNonDust_eq _ := rfl

/-- An address, and reports about a coin for it. -/
def reportOps (isSpent : List Bool) : List WalletOp :=
  [.getReceiveAddress, .insertUtxos (isSpent.map fun b =>
    { outpoint := default, amount := 100000, script := segwitLib.p2wpkh [0, 0], isSpent := b })]

/-- The wallet after those reports. -/
def reportedWallet (isSpent : List Bool) : WatchOnly (List UInt32) :=
  segwitLib.run (reportOps isSpent) (WatchOnly.new [] .bitcoin [] default)

theorem reachable_reportedWallet (isSpent : List Bool) :
    segwitLib.Reachable (reportedWallet isSpent) := ⟨_, _, _, _, _, rfl⟩

/-- A coin not reported spent is spent once. -/
theorem createPsbtTx_spendsUnspent_reported :
    ∃ psbt t, segwitLib.createPsbtTx (segwitLib.p2wpkh [7]) ⟨750⟩ 1000 (fun _ => 0)
        (reportedWallet [false]) = (.ok psbt, t)
      ∧ SpendsUnspent (reportedWallet [false]) psbt.unsignedTx := by
  have hunspent : ∀ w ∈ (reportedWallet [false]).utxos, w.utxo.isSpent = false := by decide +kernel
  obtain ⟨psbt, t, h⟩ : ∃ psbt t, segwitLib.createPsbtTx (segwitLib.p2wpkh [7]) ⟨750⟩ 1000
      (fun _ => 0) (reportedWallet [false]) = (.ok psbt, t) := by
    obtain ⟨pk, cs, psbt, t, -, -, h, -⟩ := segwitLib_laws.createPsbtTx_ok
      (reportedWallet [false]) (segwitLib.p2wpkh [7]) ⟨750⟩ 1000 (fun _ => 0)
      ⟨by decide +kernel, by decide +kernel, by decide +kernel, by decide +kernel⟩ (by decide +kernel)
    exact ⟨psbt, t, h⟩
  refine ⟨psbt, t, h, ?_⟩
  exact (WalletLib.createPsbtTx_spendsUnspent segwitLib _ (reachable_reportedWallet [false])).1
    (fun o w hw => hunspent w (WatchOnly.mem_utxos.mpr ⟨o, hw⟩)) _ _ _ _ psbt t h

/-- **A coin reported spent is spent again.** -/
theorem not_spendsUnspent_of_reported :
    ¬ ∀ s, segwitLib.Reachable s → ∀ recipient feeRate amount rand psbt t,
      segwitLib.createPsbtTx recipient feeRate amount rand s = (.ok psbt, t) →
        SpendsUnspent s psbt.unsignedTx := by
  intro hall
  have hspends : (fun psbt : Psbt (List UInt32) => psbt.unsignedTx.spends) <$>
      (segwitLib.createPsbtTx (segwitLib.p2wpkh [7]) ⟨750⟩ 1000 (fun _ => 0)
        (reportedWallet [false, true])).1 = .ok [default] := by decide +kernel
  have hflag : (reportedWallet [false, true]).utxoMap[(default : OutPoint)]?.map
      (fun w => w.utxo.isSpent) = some true := by decide +kernel
  rcases h : segwitLib.createPsbtTx (segwitLib.p2wpkh [7]) ⟨750⟩ 1000 (fun _ => 0)
      (reportedWallet [false, true]) with ⟨e | psbt, t⟩
  · rw [h] at hspends
    cases hspends
  · rw [h] at hspends
    obtain ⟨-, hunspent⟩ := hall _ (reachable_reportedWallet _) _ _ _ _ psbt t h
    have hlist : psbt.unsignedTx.spends = [default] := Except.ok.inj hspends
    obtain ⟨w, hw, hfalse⟩ := hunspent default (by rw [hlist]; exact List.mem_singleton_self _)
    rw [hw, Option.map_some, hfalse] at hflag
    cases hflag

end Bitspend.Wallet
