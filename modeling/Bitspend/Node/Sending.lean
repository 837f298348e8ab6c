import Bitspend.Chain.Agreement
import Bitspend.Node.Basic
import Bitspend.Wallet.Spending
import Mathlib.Data.List.Induction

/-!
# Node/Sending — the transactions a node broadcasts

`Node::send_to_address`: sync, let the wallet build a PSBT and the signer sign it, finalise it, read
the bytes back as a `Tx`, and send that to the peer.  The wallet is not told: the coins spent stay
among its coins, unmarked until a block with the transaction is scanned, and even a marked coin is
offered to coin selection.  So the inputs of two broadcasts are disjoint when coin selection chooses as if
the coins of the earlier broadcasts were not there; and while one of these is stored, a send may well spend
it again.
-/

namespace Bitspend

open Chain Wallet Wire

variable {Xpub PublicKey Signer : Type}

/-! ## Signing and finalising -/

/-- The signatures of a PSBT: for each input, by public key in the order of the keys. -/
abbrev PartialSigs := ℕ → List (List UInt8 × List UInt8)

/-- What sending takes from elsewhere, beside what the node does: the wallet's library, the signer's
`Psbt::sign`, and `Psbt::extract_tx` and `encode::serialize`, which end the finalising. -/
structure SendLib (Xpub PublicKey Signer : Type) extends NodeLib Xpub Signer where
  keys : WalletLib Xpub PublicKey
  /-- `Psbt::sign` adds partial signatures to the inputs. -/
  sign : Signer → Psbt PublicKey → Option PartialSigs
  /-- `Psbt::extract_tx`, of a PSBT whose inputs have these final witnesses. -/
  extractTx : Psbt PublicKey → List (List (List UInt8)) → Option Transaction
  /-- `encode::serialize`. -/
  serialize : Transaction → List UInt8

/-- A `Transaction` as the node's own `Tx`. -/
def wireTx (tx : Transaction) : Tx :=
  { version := tx.version.toUInt32
    flag := some 1
    inputs := tx.input.map fun i =>
      { prevOutput := { hash := i.previousOutput.txid, index := i.previousOutput.vout }
        unlockScript := i.scriptSig
        sequence := i.sequence }
    outputs := tx.output.map fun o =>
      { satoshis := (UInt64.ofNat o.value).toInt64, lockScript := o.scriptPubkey }
    witnesses := some (tx.input.map fun i => { witness := i.witness.map TxWitnessData.mk })
    lockTime := tx.lockTime }

namespace SendLib

variable (lib : SendLib Xpub PublicKey Signer)

/-- **What the node relies on in `bitcoin`**: extracting only fills the witnesses in, and a
transaction with a witness is serialized with marker, flag and witnesses. -/
structure TransactionLaws : Prop where
  extractTx_eq : ∀ psbt ws tx, lib.extractTx psbt ws = some tx →
    tx = { psbt.unsignedTx with
      input := List.zipWith (fun i w => { i with witness := w }) psbt.unsignedTx.input ws }
  serialize_eq : ∀ tx : Transaction, (∃ i ∈ tx.input, i.witness ≠ []) →
    lib.serialize tx = emitted (wireTx tx).write

/-- The longest a `Vec` can be. -/
def ISIZE_MAX : ℕ := 2 ^ 63 - 1

/-- `WatchOnly::finalise_psbt_tx`: each input needs a signature, and there must be one input. -/
def finalisePsbtTx (psbt : Psbt PublicKey) (sigs : PartialSigs) : Outcome Wallet.Error (List UInt8) := do
  let witnesses ← (List.range psbt.inputs.length).mapM fun index =>
    Outcome.expect "called `Option::unwrap()` on a `None` value"
      ((sigs index).head?.map fun x => [x.2, x.1])
  if psbt.inputs.length = 0 then
    .error (.panic "index out of bounds: the len is 0 but the index is 0")
  else
    let tx ← Outcome.expect NodeLib.UNWRAP (lib.extractTx psbt witnesses)
    if (lib.serialize tx).length ≤ ISIZE_MAX then pure (lib.serialize tx)
    else .error (.panic "capacity overflow")

/-- `create_transaction` of the wallet component. -/
def createTransaction (recipient : Script) (amount feeRate : UInt64) (rand : Rng) :
    Op Wallet.Error (WatchOnly Xpub) (Psbt PublicKey) := do
  let feeRate ← Op.lift (Outcome.expect "called `Option::unwrap()` on a `None` value"
    (FeeRate.fromSatPerVb feeRate.toNat))
  lib.keys.createPsbtTx recipient feeRate amount.toNat rand

/-- A call on the wallet. -/
def onWallet {ε α : Type} (x : Op ε (WatchOnly Xpub) α) : Op ε (Node Xpub Signer) α :=
  Op.zoom (fun n => n.chain.wallet) (fun w n => { n with chain := { n.chain with wallet := w } }) x

/-- `Node::get_receive_address`. -/
def getReceiveAddress : Op Bitspend.Error (Node Xpub Signer) String := do
  let address ← Op.mapErr (fun _ => .walletError 4) (onWallet lib.keys.getReceiveAddress)
  Op.update lib.storeState
  pure address

/-- `Node::send_to_address`. -/
def sendToAddress (recipient : Script) (amount feeRate : UInt64) (rand : Rng) :
    Op Bitspend.Error (Node Xpub Signer) Unit := do
  NodeLib.onChain lib.chain.syncState
  let transaction ← Op.expectOk NodeLib.UNWRAP
    (onWallet (lib.createTransaction recipient amount feeRate rand))
  let signed ← Op.ask fun n => Outcome.expect NodeLib.UNWRAP (lib.sign n.signer transaction)
  let finalised ← Op.lift (Outcome.expectOk NodeLib.UNWRAP (lib.finalisePsbtTx transaction signed))
  let deserialised ← Op.lift (Outcome.expectOk (ε := Bitspend.Error) NodeLib.UNWRAP (Tx.read finalised))
  Op.expectOk NodeLib.UNWRAP (NodeLib.onChain (lib.chain.sendTransaction deserialised.1)
    : Op Bitspend.Error (Node Xpub Signer) Unit)
  Op.update lib.storeState

end SendLib

/-! ## Runs -/

/-- An operation of the node. -/
inductive NodeOp where
  | balance
  | getReceiveAddress
  | sendToAddress (recipient : Script) (amount feeRate : UInt64) (rand : Rng)

/-- The transactions among some messages. -/
def txsOf (ms : List Message) : List Tx :=
  ms.filterMap fun
    | .tx t => some t
    | _ => none

/-- The outpoints a transaction spends. -/
def Wire.Tx.spends (t : Tx) : List Wallet.OutPoint :=
  t.inputs.map fun i => { txid := i.prevOutput.hash, vout := i.prevOutput.index }

namespace SendLib

variable (lib : SendLib Xpub PublicKey Signer)

/-- The node after an operation, however it ended. -/
def step (n : Node Xpub Signer) : NodeOp → Node Xpub Signer
  | .balance => (lib.balance n).2
  | .getReceiveAddress => (lib.getReceiveAddress n).2
  | .sendToAddress recipient amount feeRate rand =>
    (lib.sendToAddress recipient amount feeRate rand n).2

/-- The transactions an operation sends to the peer, if it is a send that returns `Ok`. -/
def broadcasts (n : Node Xpub Signer) : NodeOp → List Tx
  | .sendToAddress recipient amount feeRate rand =>
    match lib.sendToAddress recipient amount feeRate rand n with
    | (.ok _, n') => txsOf (n'.chain.p2p.sent.drop n.chain.p2p.sent.length)
    | (.error _, _) => []
  | _ => []

/-- The node after a sequence of operations… -/
def run (n : Node Xpub Signer) (ops : List NodeOp) : Node Xpub Signer := ops.foldl lib.step n

/-- …and what its sends have broadcast. -/
def broadcastsOf : Node Xpub Signer → List NodeOp → List Tx
  | _, [] => []
  | n, op :: ops => lib.broadcasts n op ++ broadcastsOf (lib.step n op) ops

/-- **An operation chooses as if some coins were not there**: once the node has synced, coin
selection selects from the wallet's coins what it selects from the others alone. -/
def ChoosesApartFrom (committed : List Wallet.OutPoint) (n : Node Xpub Signer) : NodeOp → Prop
  | .sendToAddress _ amount feeRate rand =>
    let wallet := (lib.chain.syncState n.chain).2.wallet
    (lib.chain.syncState n.chain).1 = .ok () →
      ∀ pk rate, lib.keys.childPub wallet.accountXpub 1 wallet.changeDepth = .ok pk →
        FeeRate.fromSatPerVb feeRate.toNat = some rate →
        defaultCoinSelectionAlgorithm lib.keys.costs lib.keys.sorter [] wallet.utxos rate amount.toNat
            (lib.keys.p2wpkh pk) rand
          = defaultCoinSelectionAlgorithm lib.keys.costs lib.keys.sorter []
            (wallet.utxos.filter fun u => u.utxo.outpoint ∉ committed) rate amount.toNat
            (lib.keys.p2wpkh pk) rand
  | _ => True

/-- **None of some coins is stored** when the operation has synced. -/
def StoresNone (committed : List Wallet.OutPoint) (n : Node Xpub Signer) : NodeOp → Prop
  | .sendToAddress _ _ _ _ => (lib.chain.syncState n.chain).1 = .ok () →
    ∀ u ∈ (lib.chain.syncState n.chain).2.wallet.utxos, u.utxo.outpoint ∉ committed
  | _ => True

end SendLib

/-! ## The messages of a send -/

theorem txsOf_append (ms ms' : List Message) : txsOf (ms ++ ms') = txsOf ms ++ txsOf ms' :=
  List.filterMap_append

/-- No transaction has been sent since there were so many messages. -/
def NoTxSince (k : ℕ) (p : Peer) : Prop := k ≤ p.sent.length ∧ txsOf (p.sent.drop k) = []

theorem NoTxSince.start (p : Peer) : NoTxSince p.sent.length p := by
  refine ⟨le_rfl, ?_⟩
  rw [List.drop_length]
  rfl

theorem NoTxSince.send (k : ℕ) (m : Message) (hm : ∀ t, m ≠ .tx t) :
    Op.Keeps (NoTxSince k) (Peer.send m) := by
  rintro p ⟨hk, htxs⟩
  refine ⟨(Nat.le_add_right_of_le hk).trans_eq (List.length_append ..).symm, ?_⟩
  change txsOf ((p.sent ++ [m]).drop k) = []
  rw [List.drop_append_of_le_length hk, txsOf_append, htxs]
  cases m with
  | tx t => exact absurd rfl (hm t)
  | _ => rfl

theorem NoTxSince.receive (k : ℕ) (t : Bytes 12) : Op.Keeps (NoTxSince k) (Peer.receive t) :=
  fun _ h => h

/-- **A transaction that is sent is the only one.** -/
theorem txsOf_sendTransaction {sha256 : List UInt8 → Bytes 32} {t : Tx} {k : ℕ} {p p' : Peer}
    (hk : NoTxSince k p) (h : Peer.sendTransaction sha256 t p = (.ok (), p')) :
    txsOf (p'.sent.drop k) = [t] := by
  obtain ⟨_, p₁, hinv, h₁⟩ := Op.bind_eq_ok.mp h
  obtain ⟨m, p₂, hrec, h₂⟩ := Op.bind_eq_ok.mp h₁
  have hk₁ := (NoTxSince.send k _ (by simp)).of_eq hk hinv
  have hk₂ := (NoTxSince.receive k _).of_eq hk₁ hrec
  unfold Peer.answerGetData at h₂
  split at h₂
  · obtain ⟨object, p₃, hobject, h₃⟩ := Op.bind_eq_ok.mp h₂
    obtain ⟨-, rfl⟩ := Op.lift_eq_ok.mp hobject
    split_ifs at h₃
    · obtain rfl : { p₃ with writes := p₃.writes.tail, sent := p₃.sent ++ [.tx t] } = p' :=
        congrArg Prod.snd h₃
      rw [List.drop_append_of_le_length hk₂.1, txsOf_append, hk₂.2]
      rfl
    · cases h₃
  · cases h₂

namespace SendLib

variable {lib : SendLib Xpub PublicKey Signer}

/-! ## The transaction of a send -/

theorem zipWith_previousOutput {is : List Wallet.TxIn} {ws : List (List (List UInt8))}
    (h : ws.length = is.length) :
    (List.zipWith (fun (i : Wallet.TxIn) w => { i with witness := w }) is ws).map
      Wallet.TxIn.previousOutput = is.map Wallet.TxIn.previousOutput := by
  rw [List.map_zipWith]
  induction is generalizing ws with
  | nil => rfl
  | cons i is ih =>
    rcases ws with _ | ⟨w, ws⟩
    · cases h
    · rw [List.zipWith_cons_cons, ih (Nat.succ.inj h), List.map_cons]

/-- A transaction with witnesses for its inputs. -/
def withWitnesses (tx : Transaction) (ws : List (List (List UInt8))) : Transaction :=
  { tx with input := List.zipWith (fun i w => { i with witness := w }) tx.input ws }

/-- **A finalised PSBT reads back as its transaction, with a witness for each input.** -/
theorem eq_wireTx_of_finalised (laws : lib.TransactionLaws) {psbt : Psbt PublicKey}
    {sigs : PartialSigs} (hlen : psbt.inputs.length = psbt.unsignedTx.input.length)
    {bytes : List UInt8} (hfin : lib.finalisePsbtTx psbt sigs = .ok bytes) {t : Tx}
    {rest : List UInt8} (hread : Tx.read bytes = .ok (t, rest)) :
    ∃ ws, ws.length = psbt.unsignedTx.input.length ∧ t = wireTx (withWitnesses psbt.unsignedTx ws) := by
  obtain ⟨ws, hws, hfin⟩ := Outcome.bind_eq_ok.mp hfin
  split_ifs at hfin with hzero
  obtain ⟨tx, htx, hfin⟩ := Outcome.bind_eq_ok.mp hfin
  split_ifs at hfin with hcap
  cases hfin
  have hwlen : ws.length = psbt.unsignedTx.input.length := by
    rw [← (Outcome.forall₂_of_mapM_eq_ok hws).length_eq, List.length_range, hlen]
  have heq : tx = withWitnesses psbt.unsignedTx ws :=
    laws.extractTx_eq psbt ws tx (Outcome.expect_eq_ok.mp htx)
  -- the first input has a signature and a key in its witness
  have hwitness : ∃ i ∈ tx.input, i.witness ≠ [] := by
    rcases his : psbt.unsignedTx.input with _ | ⟨i, is⟩
    · exact absurd (hlen.trans (congrArg List.length his)) hzero
    · rcases ws with _ | ⟨w, ws⟩
      · rw [his] at hwlen
        cases hwlen
      · refine ⟨{ i with witness := w }, ?_, ?_⟩
        · rw [heq, withWitnesses, his, List.zipWith_cons_cons]
          exact List.mem_cons_self
        · obtain ⟨index, -, hindex⟩ := Outcome.exists_left_of_forall₂
            (Outcome.forall₂_of_mapM_eq_ok hws) List.mem_cons_self
          obtain ⟨x, -, rfl⟩ := Option.map_eq_some_iff.mp (Outcome.expect_eq_ok.mp hindex)
          exact List.cons_ne_nil _ _
  rw [laws.serialize_eq tx hwitness] at hcap hread
  have hsize : (wireTx tx).size < 2 ^ 64 := by
    rw [← Tx.length_write]
    exact hcap.trans_lt (by decide)
  have hback := Tx.decodes (.inr ⟨rfl, _, rfl, by simp [wireTx]⟩) hsize []
  rw [List.append_nil, hread] at hback
  cases hback
  exact ⟨ws, hwlen, congrArg wireTx heq⟩

theorem spends_withWitnesses {tx : Transaction} {ws : List (List (List UInt8))}
    (h : ws.length = tx.input.length) : (wireTx (withWitnesses tx ws)).spends = tx.spends := by
  rw [Tx.spends, Transaction.spends, ← zipWith_previousOutput h, wireTx, List.map_map]
  rfl

/-- A PSBT has as many inputs as its transaction. -/
theorem length_inputs_of_createPsbtTx {recipient : Script} {rate : FeeRate} {amount : ℕ} {rand : Rng}
    {s w : WatchOnly Xpub} {psbt : Psbt PublicKey}
    (h : lib.keys.createPsbtTx recipient rate amount rand s = (.ok psbt, w)) :
    psbt.inputs.length = psbt.unsignedTx.input.length := by
  obtain ⟨pk, cs, -, -, -, htx, hinputs⟩ := lib.keys.createPsbtTx_eq_ok h
  rw [htx, ← (Outcome.forall₂_of_mapM_eq_ok hinputs).length_eq, WalletLib.unsignedTxOf,
    List.length_map]

/-- **A chain that has sent a transaction has sent no other since its sync.** -/
theorem txsOf_sent {lib : ChainLib} {t : Tx} {k : ℕ} {c c' : CompactChain Xpub}
    (hk : NoTxSince k c.p2p) (h : lib.sendTransaction t c = (.ok (), c')) :
    txsOf (c'.p2p.sent.drop k) = [t] := by
  obtain ⟨_, c₁, halive, hsend⟩ := Op.bind_eq_ok.mp h
  obtain ⟨p, hp, rfl⟩ := Op.zoom_eq_ok.mp hsend
  have hkeep : Op.Keeps (fun c : CompactChain Xpub => NoTxSince k c.p2p)
      (Op.mapErr (fun _ => Error.networkError) (CompactChain.onPeer Peer.keepAlive)) :=
    (ChainLib.keeps_peer_onPeer (Peer.keeps_keepAlive (NoTxSince.send k) (NoTxSince.receive k))).mapErr
  exact txsOf_sendTransaction (hkeep.of_eq hk halive) hp

/-- **What a send that returns `Ok` has done**: it has broadcast one transaction, that of the wallet's
PSBT with witnesses, and keeps the wallet the PSBT left. -/
theorem sendToAddress_eq_ok (laws : lib.TransactionLaws) {recipient : Script}
    {amount feeRate : UInt64} {rand : Rng} {n n' : Node Xpub Signer}
    (h : lib.sendToAddress recipient amount feeRate rand n = (.ok (), n')) :
    ∃ rate psbt w ws, (lib.chain.syncState n.chain).1 = .ok ()
      ∧ FeeRate.fromSatPerVb feeRate.toNat = some rate
      ∧ lib.keys.createPsbtTx recipient rate amount.toNat rand (lib.chain.syncState n.chain).2.wallet
        = (.ok psbt, w)
      ∧ ws.length = psbt.unsignedTx.input.length
      ∧ lib.broadcasts n (.sendToAddress recipient amount feeRate rand)
        = [wireTx (withWitnesses psbt.unsignedTx ws)]
      ∧ n'.chain.wallet = w := by
  obtain ⟨_, n₁, hsync, h₁⟩ := Op.bind_eq_ok.mp h
  obtain ⟨psbt, n₂, hcreate, h₂⟩ := Op.bind_eq_ok.mp h₁
  obtain ⟨sigs, n₃, hsign, h₃⟩ := Op.bind_eq_ok.mp h₂
  obtain ⟨bytes, n₄, hfin, h₄⟩ := Op.bind_eq_ok.mp h₃
  obtain ⟨⟨t, rest⟩, n₅, hread, h₅⟩ := Op.bind_eq_ok.mp h₄
  obtain ⟨_, n₆, hsend, h₆⟩ := Op.bind_eq_ok.mp h₅
  obtain ⟨c, hc, rfl⟩ := Op.zoom_eq_ok.mp hsync
  obtain ⟨w, hw, rfl⟩ := Op.zoom_eq_ok.mp (Op.expectOk_eq_ok.mp hcreate)
  obtain ⟨-, rfl⟩ := Op.ask_eq_ok.mp hsign
  obtain ⟨hbytes, rfl⟩ := Op.lift_eq_ok.mp hfin
  obtain ⟨htx, rfl⟩ := Op.lift_eq_ok.mp hread
  obtain ⟨c', hc', rfl⟩ := Op.zoom_eq_ok.mp (Op.expectOk_eq_ok.mp hsend)
  obtain rfl := Op.update_eq_ok.mp h₆
  obtain ⟨rate, w', hlift, hpsbt⟩ := Op.bind_eq_ok.mp hw
  obtain ⟨hrate, rfl⟩ := Op.lift_eq_ok.mp hlift
  have hc₂ : (lib.chain.syncState n.chain).2 = c := congrArg Prod.snd hc
  have hsince : NoTxSince n.chain.p2p.sent.length c.p2p := by
    rw [← hc₂]
    exact lib.chain.keeps_peer_syncState (NoTxSince.send _) (NoTxSince.receive _) n.chain
      (NoTxSince.start _)
  obtain ⟨ws, hws, rfl⟩ := eq_wireTx_of_finalised laws (length_inputs_of_createPsbtTx hpsbt)
    (Outcome.expectOk_eq_ok.mp hbytes) (Outcome.expectOk_eq_ok.mp htx)
  refine ⟨rate, psbt, w, ws, congrArg Prod.fst hc, Outcome.expect_eq_ok.mp hrate,
    by rw [hc₂]; exact hpsbt, hws, ?_, ?_⟩
  · rw [broadcasts, h]
    exact txsOf_sent (c := { c with wallet := w }) hsince hc'
  · -- sending a transaction leaves the wallet alone
    have hkeep : Op.Keeps (fun c : CompactChain Xpub => c.wallet = w)
        (lib.chain.sendTransaction (wireTx (withWitnesses psbt.unsignedTx ws))) :=
      Op.Keeps.bind (P := fun c : CompactChain Xpub => c.wallet = w) (fun _ h => h) fun _ _ h => h
    exact hkeep.of_eq rfl hc'

/-- …which spends what the PSBT spends. -/
theorem broadcasts_eq (laws : lib.TransactionLaws) {recipient : Script} {amount feeRate : UInt64}
    {rand : Rng} {n n' : Node Xpub Signer}
    (h : lib.sendToAddress recipient amount feeRate rand n = (.ok (), n')) :
    ∃ rate psbt w t, (lib.chain.syncState n.chain).1 = .ok ()
      ∧ FeeRate.fromSatPerVb feeRate.toNat = some rate
      ∧ lib.keys.createPsbtTx recipient rate amount.toNat rand (lib.chain.syncState n.chain).2.wallet
        = (.ok psbt, w)
      ∧ lib.broadcasts n (.sendToAddress recipient amount feeRate rand) = [t]
      ∧ t.spends = psbt.unsignedTx.spends := by
  obtain ⟨rate, psbt, w, ws, hsync, hrate, hcreate, hws, hone, -⟩ := sendToAddress_eq_ok laws h
  exact ⟨rate, psbt, w, _, hsync, hrate, hcreate, hone, spends_withWitnesses hws⟩

/-! ## Sends that do not meet -/

/-- **A send that chooses apart from some coins spends none of them.** -/
theorem ChoosesApartFrom.disjoint (laws : lib.TransactionLaws) {committed : List Wallet.OutPoint}
    {n : Node Xpub Signer} {op : NodeOp} (h : lib.ChoosesApartFrom committed n op) :
    (lib.broadcasts n op).length ≤ 1
      ∧ ∀ t ∈ lib.broadcasts n op, ∀ o ∈ t.spends, o ∉ committed := by
  cases op with
  | balance => exact ⟨Nat.zero_le _, fun t ht => absurd ht List.not_mem_nil⟩
  | getReceiveAddress => exact ⟨Nat.zero_le _, fun t ht => absurd ht List.not_mem_nil⟩
  | sendToAddress recipient amount feeRate rand =>
    rcases hsend : lib.sendToAddress recipient amount feeRate rand n with ⟨e | _, n'⟩
    · rw [broadcasts, hsend]
      exact ⟨Nat.zero_le _, fun t ht => absurd ht List.not_mem_nil⟩
    · obtain ⟨rate, psbt, w, t, hsync, hrate, hcreate, hone, hspends⟩ := broadcasts_eq laws hsend
      rw [hone]
      refine ⟨le_rfl, fun t' ht' o ho => ?_⟩
      obtain rfl := List.mem_singleton.mp ht'
      obtain ⟨pk, cs, hpk, -, hcs, htx, -⟩ := lib.keys.createPsbtTx_eq_ok hcreate
      -- what was selected was selected among the other coins
      rw [h hsync pk rate hpk hrate] at hcs
      obtain ⟨ws, rem, hsel⟩ := coinSelect_selects hcs
      rw [hspends, htx, WalletLib.spends_unsignedTxOf _ _ _ hsel.selected_eq] at ho
      obtain ⟨u, hu, rfl⟩ := List.mem_map.mp ho
      simpa using (List.mem_filter.mp (hsel.subperm.subset hu)).2

theorem broadcastsOf_concat (n : Node Xpub Signer) (ops : List NodeOp) (op : NodeOp) :
    lib.broadcastsOf n (ops ++ [op])
      = lib.broadcastsOf n ops ++ lib.broadcasts (lib.run n ops) op := by
  induction ops generalizing n with
  | nil => exact List.append_nil _
  | cons op' ops ih =>
    rw [List.cons_append, broadcastsOf, ih, broadcastsOf, List.append_assoc]
    rfl

/-- Sends that choose apart from the coins of the broadcasts before them do not meet. -/
theorem pairwise_broadcastsOf (laws : lib.TransactionLaws) (n : Node Xpub Signer) (ops : List NodeOp)
    (h : ∀ before op after, ops = before ++ op :: after →
      lib.ChoosesApartFrom ((lib.broadcastsOf n before).flatMap Tx.spends) (lib.run n before) op) :
    (lib.broadcastsOf n ops).Pairwise fun t t' => t.spends.Disjoint t'.spends := by
  -- from the end: what the last operation broadcasts stands apart from all that came before
  induction ops using List.reverseRecOn with
  | nil => exact List.Pairwise.nil
  | append_singleton ops op ih =>
    have hops : ∀ before op' after, ops = before ++ op' :: after →
        lib.ChoosesApartFrom ((lib.broadcastsOf n before).flatMap Tx.spends) (lib.run n before) op' :=
      fun before op' after heq => h before op' (after ++ [op]) (by rw [heq]; simp)
    obtain ⟨hone, hapart⟩ := (h ops op [] rfl).disjoint laws
    rw [broadcastsOf_concat, List.pairwise_append]
    refine ⟨ih hops, ?_, fun t ht t' ht' o ho ho' => ?_⟩
    · rcases hb : lib.broadcasts (lib.run n ops) op with _ | ⟨t, _ | ⟨t', ts⟩⟩
      · exact List.Pairwise.nil
      · exact List.pairwise_singleton _ t
      · rw [hb] at hone
        exact absurd hone (by simp)
    · exact hapart t' ht' o ho' (List.mem_flatMap.mpr ⟨t, ht, ho⟩)

/-- **The node does not double-spend as long as each send chooses apart from the coins of the
broadcasts before it.** -/
theorem broadcastsOf_disjoint (lib : SendLib Xpub PublicKey Signer) (laws : lib.TransactionLaws)
    (n : Node Xpub Signer) (ops : List NodeOp)
    (h : ∀ before op after, ops = before ++ op :: after →
      lib.ChoosesApartFrom ((lib.broadcastsOf n before).flatMap Tx.spends) (lib.run n before) op) :
    (lib.broadcastsOf n ops).Pairwise fun t t' => t.spends.Disjoint t'.spends :=
  pairwise_broadcastsOf laws n ops h

/-- Where none of the coins is stored, the others are all there are. -/
theorem StoresNone.choosesApartFrom {committed : List Wallet.OutPoint} {n : Node Xpub Signer} {op : NodeOp}
    (h : lib.StoresNone committed n op) : lib.ChoosesApartFrom committed n op := by
  cases op with
  | balance => trivial
  | getReceiveAddress => trivial
  | sendToAddress recipient amount feeRate rand =>
    intro hsync pk rate _ _
    rw [List.filter_eq_self.mpr fun u hu => decide_eq_true (h hsync u hu)]

/-- **So it does not as long as no coin of a broadcast is stored when it sends again…** -/
theorem broadcastsOf_disjoint_of_storesNone (laws : lib.TransactionLaws) (n : Node Xpub Signer)
    (ops : List NodeOp)
    (h : ∀ before op after, ops = before ++ op :: after →
      lib.StoresNone ((lib.broadcastsOf n before).flatMap Tx.spends) (lib.run n before) op) :
    (lib.broadcastsOf n ops).Pairwise fun t t' => t.spends.Disjoint t'.spends :=
  pairwise_broadcastsOf laws n ops fun before op after heq => (h before op after heq).choosesApartFrom

/-- **…and while one with a value is, some send makes a PSBT that spends it again.** -/
theorem exists_createTransaction_spends (laws : lib.keys.P2wpkhLaws) {w : WatchOnly Xpub} (hfiled : w.Filed)
    (hvalue : valueOf w.utxos ≤ 21 * 10 ^ 14) {u : WeightedUtxo} (hu : u ∈ w.utxos)
    (hpos : 0 < u.utxo.txout.value) :
    ∃ recipient amount feeRate rand psbt w',
      lib.createTransaction recipient amount feeRate rand w = (.ok psbt, w')
        ∧ u.utxo.outpoint ∈ psbt.unsignedTx.spends := by
  obtain ⟨psbt, w', hcreate, hspends⟩ := laws.exists_spends hfiled hvalue hu hpos
  have hlt : valueOf w.utxos < 2 ^ 64 := by omega
  have hamount : (UInt64.ofNat (valueOf w.utxos)).toNat = valueOf w.utxos :=
    UInt64.toNat_ofNat_of_lt' hlt
  have hrate : FeeRate.fromSatPerVb (0 : UInt64).toNat = some ⟨0⟩ := by decide
  refine ⟨[], UInt64.ofNat (valueOf w.utxos), 0, fun _ => 0, psbt, w', ?_, hspends⟩
  refine Op.bind_eq_ok.mpr ⟨⟨0⟩, w, Op.lift_eq_ok.mpr ⟨Outcome.expect_eq_ok.mpr hrate, rfl⟩, ?_⟩
  rw [hamount]
  exact hcreate

end SendLib

/-! ## A wallet with two coins -/

section TwoCoins

/-- A library that signs every input and serializes as the network does. -/
def signingLib : SendLib (List UInt32) (List UInt32) Unit where
  chain := headLib
  chainState := ⟨fun _ => [], fun _ => none⟩
  wallet := ⟨fun _ => [], fun _ => none⟩
  signer := ⟨fun _ => [], fun _ => none⟩
  nodeState := ⟨fun _ => [], fun _ => none⟩
  keys := segwitLib
  sign _ _ := some fun _ => [([0x02], [0x30])]
  extractTx psbt ws := some { psbt.unsignedTx with
    input := List.zipWith (fun i w => { i with witness := w }) psbt.unsignedTx.input ws }
  serialize tx := emitted (wireTx tx).write

theorem signingLib_laws : signingLib.TransactionLaws where
  extractTx_eq _ _ _ h := (Option.some_inj.mp h).symm
  serialize_eq _ _ := rfl

/-- A transaction that pays the wallet's first address twice. -/
def payingTwice : Tx :=
  { coinbase with outputs :=
      [{ satoshis := 100042, lockScript := segwitLib.p2wpkh [0, 0] },
        { satoshis := 50042, lockScript := segwitLib.p2wpkh [0, 0] }] }

/-- The block with it. -/
def payingBlock : Block := { header := { (default : BlockHeader) with version := 1 }, txns := [payingTwice] }

/-- The hash of a transaction with one input that spends one of the two coins. -/
def spendingHash : Hash256 := headHash (u32LE 2 ++ [0, 1, 1] ++ (txid headHash payingTwice).toList)

/-- What the peer answers to a send: nothing new, and that it wants the transaction. -/
def wanting (news : List Incoming) : List Incoming :=
  [.message Commands.PONG (.pong default)] ++ news
    ++ [.message Commands.PONG (.pong default),
      .message Commands.GETDATA (.getData { objects := [{ objType := 1, hash := spendingHash }] })]

/-- A new node, whose peer has one block and takes two transactions. -/
def newNode : Node (List UInt32) Unit where
  chain :=
    ⟨{ incoming :=
        wanting ([.message Commands.HEADERS (.headers { inner := [payingBlock.header] }),
          .message Commands.CFHEADERS (.cfHeaders default)]
          ++ (filtersOf [payingBlock]).map (fun f => .message Commands.CFILTERS (.cFilters f))
          ++ [.message Commands.BLOCK (.block payingBlock)])
        ++ wanting [.message Commands.HEADERS (.headers { inner := [] })]
       writes := [], sent := [], version := default, ping := default },
      { lastBlockHash := Bytes.zero 32, lastBlockHeight := 0 },
      WatchOnly.new [] .regtest [] default, []⟩
  signer := ()
  nodeState := default
  db _ := none

/-- An address is handed out, and two payments are sent at one satoshi per byte. -/
def twoSends (amount amount' : UInt64) : List NodeOp :=
  [.getReceiveAddress, .sendToAddress [0x51] amount 1 fun _ => 0,
    .sendToAddress [0x51] amount' 1 fun _ => 0]

/-- The two coins. -/
def coinAt (vout : UInt32) : Wallet.OutPoint := { txid := txid headHash payingTwice, vout }

/-- **A payment sent twice spends one coin twice.** -/
theorem not_broadcastsOf_disjoint :
    ¬ ∀ (n : Node (List UInt32) Unit) (ops : List NodeOp),
      (signingLib.broadcastsOf n ops).Pairwise fun t t' => t.spends.Disjoint t'.spends := by
  intro h
  have hpair := List.pairwise_map.mpr (h newNode (twoSends 100000 100000))
  have hspends : (signingLib.broadcastsOf newNode (twoSends 100000 100000)).map Tx.spends
      = [[coinAt 0], [coinAt 0]] := by decide +kernel
  rw [hspends, List.pairwise_pair] at hpair
  exact hpair List.mem_cons_self List.mem_cons_self

/-- Two payments that each take the coin of their amount stay apart. -/
theorem broadcastsOf_disjoint_twoSends :
    (signingLib.broadcastsOf newNode (twoSends 100000 50000)).map Tx.spends
        = [[coinAt 0], [coinAt 1]]
      ∧ (signingLib.broadcastsOf newNode (twoSends 100000 50000)).Pairwise
        fun t t' => t.spends.Disjoint t'.spends := by
  refine ⟨by decide +kernel, SendLib.broadcastsOf_disjoint signingLib signingLib_laws _ _ ?_⟩
  intro before op after heq
  rcases before with _ | ⟨a, _ | ⟨b, _ | ⟨c, before⟩⟩⟩ <;>
    simp only [twoSends, List.cons_append, List.nil_append, List.cons.injEq] at heq
  · obtain ⟨rfl, -⟩ := heq
    exact trivial
  · obtain ⟨rfl, rfl, -⟩ := heq
    intro _ pk rate hpk hrate
    obtain rfl : pk = [1, 0] := Except.ok.inj (hpk.symm.trans (by decide +kernel))
    obtain rfl : rate = ⟨250⟩ := Option.some.inj (hrate.symm.trans (by decide +kernel))
    decide +kernel
  · obtain ⟨rfl, rfl, rfl, -⟩ := heq
    intro _ pk rate hpk hrate
    obtain rfl : pk = [1, 1] := Except.ok.inj (hpk.symm.trans (by decide +kernel))
    obtain rfl : rate = ⟨250⟩ := Option.some.inj (hrate.symm.trans (by decide +kernel))
    decide +kernel
  · simp at heq

end TwoCoins

end Bitspend
