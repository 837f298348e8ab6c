import Bitspend.Machinery.Op
import Bitspend.Wallet.CoinSelection

/-!
# Wallet/WatchOnly — the watch-only wallet

`crates/wallet/src/watch_wallet.rs`.  The wallet keeps the scripts it has handed out, with the
place in its account each came from, and the coins reported for them.  What it takes from
`bitcoin` — key derivation, scripts, addresses — is a parameter, `WalletLib`.
-/

namespace Bitspend.Wallet

open Std

/-! ## Keys of the two maps -/

/-- `OutPoint`'s derived order: by transaction, then by position. -/
instance : Ord OutPoint :=
  ⟨compareLex (compareOn fun o => o.txid.toList) (compareOn OutPoint.vout)⟩

instance : TransOrd OutPoint :=
  inferInstanceAs (TransCmp (compareLex (compareOn fun o : OutPoint => o.txid.toList)
    (compareOn OutPoint.vout)))

instance : LawfulEqOrd OutPoint where
  eq_of_compare {a b} h := by
    obtain ⟨htxid, hvout⟩ := compareLex_eq_eq.mp h
    have ht : a.txid.toList = b.txid.toList := LawfulEqOrd.eq_of_compare htxid
    have hv : a.vout = b.vout := LawfulEqOrd.eq_of_compare hvout
    obtain ⟨ta, va⟩ := a
    obtain ⟨tb, vb⟩ := b
    obtain rfl : ta = tb := Subtype.ext ht
    obtain rfl : va = vb := hv
    rfl

/-! ## What `bitcoin` provides -/

/-- `bitcoin::Network`. -/
inductive Network where
  | bitcoin
  | testnet
  | testnet4
  | signet
  | regtest
  deriving Repr, DecidableEq, Inhabited

/-- `bip32::ChildNumber`. -/
inductive ChildNumber where
  | normal (index : UInt32)
  | hardened (index : UInt32)
  deriving Repr, DecidableEq, Inhabited

/-- `bip32::DerivationPath`. -/
abbrev DerivationPath := List ChildNumber

/-- `bip32::Error`, of a public derivation. -/
inductive Bip32Error where
  | cannotDeriveFromHardenedKey
  | secp256k1
  deriving Repr, DecidableEq, Inhabited

/-- The library calls the wallet makes about keys and scripts, and the sort of its coin
selection. -/
structure WalletLib (Xpub PublicKey : Type) where
  costs : SpendCosts
  sorter : SortUnstable OutputGroup.effectiveValue
  /-- `Xpub::ckd_pub` of a normal child. -/
  ckdPub : Xpub → UInt32 → Except Bip32Error Xpub
  /-- `Xpub::to_pub`. -/
  toPub : Xpub → PublicKey
  /-- `ScriptBuf::new_p2wpkh(&pubkey.wpubkey_hash())`, also `Address::p2wpkh(..).script_pubkey()`. -/
  p2wpkh : PublicKey → Script
  /-- `Address::p2wpkh(..).to_string()`. -/
  address : PublicKey → Network → String

/-- `bitcoin::TxIn`. -/
structure TxIn where
  previousOutput : OutPoint
  scriptSig : Script
  sequence : UInt32
  witness : List (List UInt8)
  deriving Repr, DecidableEq, Inhabited

/-- `bitcoin::Transaction`. -/
structure Transaction where
  version : Int32
  lockTime : UInt32
  input : List TxIn
  output : List TxOut
  deriving Repr, DecidableEq

/-- `psbt::Error`, of `Psbt::from_unsigned_tx`. -/
inductive PsbtError where
  | unsignedTxHasScriptSigs
  | unsignedTxHasScriptWitnesses
  deriving Repr, DecidableEq, Inhabited

/-- `psbt::Input`, the fields the wallet sets. -/
structure PsbtInput (PublicKey : Type) where
  witnessUtxo : Option TxOut
  witnessScript : Option Script
  bip32Derivation : List (PublicKey × Bytes 4 × DerivationPath)
  sighashType : Option UInt32
  deriving DecidableEq, Inhabited

/-- `Psbt`. -/
structure Psbt (PublicKey : Type) where
  unsignedTx : Transaction
  inputs : List (PsbtInput PublicKey)
  deriving DecidableEq

/-- `Psbt::unsigned_tx_checks`: the inputs must not be signed, one after another. -/
def Psbt.unsignedTxChecks : List TxIn → Outcome PsbtError Unit
  | [] => pure ()
  | txin :: rest =>
    if !txin.scriptSig.isEmpty then Outcome.err .unsignedTxHasScriptSigs
    else if !txin.witness.isEmpty then Outcome.err .unsignedTxHasScriptWitnesses
    else Psbt.unsignedTxChecks rest

/-- `Psbt::from_unsigned_tx`. -/
def Psbt.fromUnsignedTx {PublicKey : Type} (tx : Transaction) :
    Outcome PsbtError (Psbt PublicKey) := do
  Psbt.unsignedTxChecks tx.input
  pure { unsignedTx := tx, inputs := tx.input.map fun _ => default }

/-- `errors::Error`. -/
inductive Error where
  | coinSelection (e : InsufficientFunds)
  | psbt (e : PsbtError)
  | missingNonWitnessUtxo (o : OutPoint)
  | pubKeyError (e : Bip32Error)
  | noPubKey
  deriving Repr, DecidableEq, Inhabited

/-! ## The wallet -/

/-- `WatchOnly`.  The wallet type is always P2WPKH. -/
structure WatchOnly (Xpub : Type) where
  accountXpub : Xpub
  network : Network
  pubkeyMap : TreeMap Script PubkeyDetails
  receiveDepth : UInt32
  changeDepth : UInt32
  utxoMap : TreeMap OutPoint WeightedUtxo
  accountDerivation : DerivationPath
  masterFingerprint : Bytes 4

namespace WatchOnly

variable {Xpub PublicKey : Type}

/-- `WatchOnly::new`. -/
def new (accountXpub : Xpub) (network : Network) (accountDerivation : DerivationPath)
    (masterFingerprint : Bytes 4) : WatchOnly Xpub :=
  { accountXpub, network, pubkeyMap := ∅, receiveDepth := 0, changeDepth := 0, utxoMap := ∅
    accountDerivation, masterFingerprint }

/-- `self.utxo_map.values().cloned().collect()`. -/
def utxos (s : WatchOnly Xpub) : List WeightedUtxo := s.utxoMap.toList.map Prod.snd

/-- `WatchOnly::get_utxos`. -/
def getUtxos (s : WatchOnly Xpub) : List PartialUtxo := s.utxos.map fun w => w.utxo.toPartial

/-- `WatchOnly::get_pubkeys`. -/
def getPubkeys (s : WatchOnly Xpub) : List Script := s.pubkeyMap.keys

/-- `WatchOnly::balance`: the unspent coins, after a stable sort that puts them first. -/
def balance (s : WatchOnly Xpub) : Outcome Error ℕ :=
  (s.utxos.insertionSort fun a b => a.utxo.isSpent ≤ b.utxo.isSpent).foldlM (fun balance w =>
    if w.utxo.isSpent then pure balance
    else Outcome.expect "called `Option::unwrap()` on a `None` value"
      (Amount.checkedAdd balance w.utxo.txout.value)) 0

/-- A reported coin, as the wallet first records it. -/
def newUtxo (u : PartialUtxo) (details : PubkeyDetails) : WeightedUtxo :=
  { satisfactionWeight := 0
    utxo :=
      { outpoint := u.outpoint
        keychain := details.keyType
        txout := { value := u.amount, scriptPubkey := u.script }
        derivationIndex := details.keyDepth
        chainPosition := none
        isSpent := u.isSpent } }

/-- A known coin, with the reported flag. -/
def markUtxo (w : WeightedUtxo) (u : PartialUtxo) : WeightedUtxo :=
  { w with utxo := { w.utxo with isSpent := u.isSpent } }

/-- `self.utxo_map.insert(outpoint, weighted_utxo)`. -/
def record (o : OutPoint) (w : WeightedUtxo) (s : WatchOnly Xpub) : WatchOnly Xpub :=
  { s with utxoMap := s.utxoMap.insert o w }

/-- `self.pubkey_map.insert(script, details)`. -/
def track (script : Script) (details : PubkeyDetails) (s : WatchOnly Xpub) : WatchOnly Xpub :=
  { s with pubkeyMap := s.pubkeyMap.insert script details }

/-- The body of the loop of `insert_utxos`. -/
def insertUtxo (u : PartialUtxo) : Op Error (WatchOnly Xpub) Unit := do
  match ← Op.ask fun s => pure s.utxoMap[u.outpoint]? with
  | some w => Op.update (record u.outpoint (markUtxo w u))
  | none =>
    let details ← Op.ask fun s => Outcome.okOr .noPubKey s.pubkeyMap[u.script]?
    Op.update (record u.outpoint (newUtxo u details))

/-- `WatchOnly::insert_utxos`. -/
def insertUtxos (us : List PartialUtxo) : Op Error (WatchOnly Xpub) Unit := forM us insertUtxo

end WatchOnly

namespace WalletLib

variable {Xpub PublicKey : Type} (lib : WalletLib Xpub PublicKey)

/-- The key of an account at a chain and an index: two `ckd_pub` calls. -/
def childPub (accountXpub : Xpub) (chain index : UInt32) : Outcome Error PublicKey := do
  let chainXpub ← (lib.ckdPub accountXpub chain).mapError fun e => Fault.error (.pubKeyError e)
  let childXpub ← (lib.ckdPub chainXpub index).mapError fun e => Fault.error (.pubKeyError e)
  pure (lib.toPub childXpub)

/-- `WatchOnly::get_receive_address`. -/
def getReceiveAddress : Op Error (WatchOnly Xpub) String := do
  let childPub ← Op.ask fun s => lib.childPub s.accountXpub 0 s.receiveDepth
  Op.update fun s =>
    s.track (lib.p2wpkh childPub) { keyType := .external, keyDepth := s.receiveDepth }
  Op.ask fun s => pure (lib.address childPub s.network)

/-- `WatchOnly::get_change_script`. -/
def getChangeScript : Op Error (WatchOnly Xpub) Script := do
  let childPub ← Op.ask fun s => lib.childPub s.accountXpub 1 s.changeDepth
  Op.update fun s => { s with changeDepth := s.changeDepth + 1 }
  let scriptPub := lib.p2wpkh childPub
  Op.update fun s => s.track scriptPub { keyType := .external, keyDepth := s.receiveDepth }
  pure scriptPub

/-- `WatchOnly::derive_pubkey`. -/
def derivePubkey (s : WatchOnly Xpub) (utxo : Utxo) : Outcome Error PublicKey :=
  lib.childPub s.accountXpub utxo.keychain.asU32 utxo.derivationIndex

/-- The input of a selected coin: spent unsigned, with the final sequence number. -/
def unsignedInput (utxo : Utxo) : TxIn :=
  { previousOutput := utxo.outpoint, scriptSig := [], sequence := 0xffffffff, witness := [] }

/-- The outputs: the recipient's, and the change if there is any. -/
def outputs (recipient changeScript : Script) (amount : ℕ) (excess : Excess) : List TxOut :=
  { scriptPubkey := recipient, value := amount } ::
    match excess with
    | .change amount _ => [{ scriptPubkey := changeScript, value := amount }]
    | .noChange .. => []

/-- `EcdsaSighashType::All`. -/
def sighashAll : UInt32 := 1

/-- What a signer needs to know about a selected coin: its output, its key, and the path to it. -/
def psbtInput (s : WatchOnly Xpub) (utxo : Utxo) : Outcome Error (PsbtInput PublicKey) := do
  let childPub ← lib.derivePubkey s utxo
  let partialDerivationPath : DerivationPath :=
    [.normal utxo.keychain.asU32, .normal utxo.derivationIndex]
  let fullDerivationPath := s.accountDerivation ++ partialDerivationPath
  pure
    { witnessUtxo := some utxo.txout
      witnessScript := some (lib.p2wpkh childPub)
      bip32Derivation := [(childPub, s.masterFingerprint, fullDerivationPath)]
      sighashType := some sighashAll }

/-- `WatchOnly::create_psbt_tx`, up to the final encoding of the PSBT. -/
def createPsbtTx (recipient : Script) (feeRate : FeeRate) (amount : ℕ) (rand : Rng) :
    Op Error (WatchOnly Xpub) (Psbt PublicKey) := do
  let changeScript ← lib.getChangeScript
  let coinselection ← Op.ask fun s =>
    Outcome.mapErr .coinSelection (defaultCoinSelectionAlgorithm lib.costs lib.sorter [] s.utxos
      feeRate amount changeScript rand)
  let transaction : Transaction :=
    { version := 2
      lockTime := 0
      input := coinselection.selected.map unsignedInput
      output := outputs recipient changeScript amount coinselection.excess }
  let psbt : Psbt PublicKey ← Op.lift (Outcome.mapErr .psbt (Psbt.fromUnsignedTx transaction))
  let inputs ← Op.ask fun s => coinselection.selected.mapM (lib.psbtInput s)
  pure { psbt with inputs }

end WalletLib

end Bitspend.Wallet
