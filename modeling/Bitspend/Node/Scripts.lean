import Bitspend.Node.Payment
import Bitspend.Wallet.Signable
import Mathlib.Data.List.Forall2

/-!
# Node/Scripts — the scripts a node hands out

`get_receive_address` hands out the script of one receive key, the same each time, and every send that
gets as far as its transaction uses up a change key, whether or not the transaction is sent.  So over a
run of a node there is one address to be paid at, no two of its transactions pay their change to one
script, and what the wallet watches in the end is what it watched before and what was handed out.
-/

namespace Bitspend

open Chain Wallet Wire

variable {Xpub PublicKey Signer : Type}

/-- The scripts of the outputs after the recipient's. -/
def Wire.Tx.changeScripts (t : Tx) : List Script := t.outputs.tail.map TxOut.lockScript

/-! ## What a wallet hands out -/

namespace Wallet

namespace WatchOnly

/-- A wallet but for its coins. -/
def withoutCoins (w : WatchOnly Xpub) : WatchOnly Xpub := { w with utxoMap := ∅ }

theorem keeps_withoutCoins_insertUtxos (w : WatchOnly Xpub) (us : List PartialUtxo) :
    Op.Keeps (fun w' => w'.withoutCoins = w.withoutCoins) (insertUtxos us) := by
  refine Op.Keeps.forM fun u _ s hs => ?_
  obtain ⟨v, -, h⟩ | ⟨d, -, -, h⟩ | ⟨-, -, h⟩ := insertUtxo_cases u s <;> rw [h] <;> exact hs

theorem mem_getPubkeys_track {w : WatchOnly Xpub} {script script' : Script} {d : PubkeyDetails} :
    script' ∈ (w.track script d).getPubkeys ↔ script' = script ∨ script' ∈ w.getPubkeys := by
  rw [getPubkeys, Std.TreeMap.mem_keys, track, Std.TreeMap.mem_insert, ← Std.TreeMap.mem_keys,
    Std.LawfulEqCmp.compare_eq_iff_eq, eq_comm]
  rfl

end WatchOnly

namespace WalletLib

variable (lib : WalletLib Xpub PublicKey)

/-- The change key of an index has been used up between two wallets. -/
def UsedUp (w w' : WatchOnly Xpub) (i : UInt32) : Prop := w.changeDepth ≤ i ∧ i < w'.changeDepth

/-- **What is handed out between two wallets**, over at most so many change keys: the receive script, if
it was asked for, and change scripts, among them those of `change`, each of a later key than the one
before. -/
structure HandsOut (w w' : WatchOnly Xpub) (n : ℕ) (asked : Prop) (change : List Script) : Prop where
  account : w'.accountXpub = w.accountXpub
  network : w'.network = w.network
  receiveDepth : w'.receiveDepth = w.receiveDepth
  le : w.changeDepth.toNat ≤ w'.changeDepth.toNat
  few : w'.changeDepth.toNat ≤ w.changeDepth.toNat + n
  watched : ∀ script, script ∈ w'.getPubkeys ↔ script ∈ w.getPubkeys
    ∨ (asked ∧ lib.scriptAt w.accountXpub .external w.receiveDepth = .ok script)
    ∨ ∃ i, UsedUp w w' i ∧ lib.scriptAt w.accountXpub .internal i = .ok script
  indices : ∃ is : List UInt32, is.Pairwise (· < ·) ∧ (∀ i ∈ is, UsedUp w w' i)
    ∧ List.Forall₂ (fun i script => lib.scriptAt w.accountXpub .internal i = .ok script) is change

variable {lib} {w w' w'' : WatchOnly Xpub} {n n' : ℕ} {asked asked' : Prop} {change change' : List Script}

theorem not_usedUp_of_eq (h : w'.changeDepth = w.changeDepth) (i : UInt32) : ¬ UsedUp w w' i := by
  rintro ⟨hi, hi'⟩
  rw [h] at hi'
  exact UInt32.not_le.mpr hi' hi

namespace HandsOut

/-- Coins are no scripts. -/
theorem of_withoutCoins_eq (h : w'.withoutCoins = w.withoutCoins) : lib.HandsOut w w' 0 False [] := by
  obtain ⟨x, net, m, r, d, coins, path, f⟩ := w
  obtain ⟨x', net', m', r', d', coins', path', f'⟩ := w'
  cases h
  refine ⟨rfl, rfl, rfl, le_rfl, le_rfl, fun script => ⟨.inl, ?_⟩,
    [], List.Pairwise.nil, fun i hi => absurd hi List.not_mem_nil, .nil⟩
  rintro (hmem | ⟨hfalse, -⟩ | ⟨i, hi, -⟩)
  · exact hmem
  · exact hfalse.elim
  · exact absurd hi (not_usedUp_of_eq rfl i)

/-- **Handing out twice.** -/
theorem trans (h : lib.HandsOut w w' n asked change) (h' : lib.HandsOut w' w'' n' asked' change') :
    lib.HandsOut w w'' (n + n') (asked ∨ asked') (change ++ change') := by
  have hle := h.le
  have hle' := h'.le
  have hused (i : UInt32) : UsedUp w w'' i ↔ UsedUp w w' i ∨ UsedUp w' w'' i := by
    simp only [UsedUp, UInt32.le_iff_toNat_le, UInt32.lt_iff_toNat_lt]
    omega
  obtain ⟨is, hsorted, hbounds, hscripts⟩ := h.indices
  obtain ⟨is', hsorted', hbounds', hscripts'⟩ := h'.indices
  rw [h.account] at hscripts'
  refine ⟨h'.account.trans h.account, h'.network.trans h.network,
    h'.receiveDepth.trans h.receiveDepth, hle.trans hle', ?_, fun script => ?_,
    is ++ is', List.pairwise_append.mpr ⟨hsorted, hsorted', fun i hi j hj => ?_⟩, fun i hi => ?_,
    List.rel_append hscripts hscripts'⟩
  · have hfew := h.few
    have hfew' := h'.few
    omega
  · simp only [h'.watched, h.watched, hused, h.account, h.receiveDepth, or_and_right, exists_or]
    rw [or_assoc, or_or_or_comm]
  · exact UInt32.lt_of_lt_of_le (hbounds i hi).2 (hbounds' j hj).1
  · rcases List.mem_append.mp hi with hi | hi
    · exact (hused i).mpr (.inl (hbounds i hi))
    · exact (hused i).mpr (.inr (hbounds' i hi))

theorem mono (h : lib.HandsOut w w' n asked change) (hn : n ≤ n') (hasked : asked ↔ asked') :
    lib.HandsOut w w' n' asked' change := by
  refine { h with few := h.few.trans (Nat.add_le_add_left hn _), watched := fun script => ?_ }
  rw [h.watched, hasked]

end HandsOut

/-- **The receive script is handed out**, or cannot be derived. -/
theorem handsOut_getReceiveAddress (w : WatchOnly Xpub) :
    lib.HandsOut w (lib.getReceiveAddress w).2 0 True [] := by
  have hunused := @not_usedUp_of_eq Xpub w (lib.getReceiveAddress w).2
  obtain ⟨pk, hpk, h⟩ | ⟨e, he, h⟩ := lib.getReceiveAddress_cases w <;> rw [h] at hunused ⊢
  · have hscript : lib.scriptAt w.accountXpub .external w.receiveDepth = .ok (lib.p2wpkh pk) :=
      scriptAt_eq_ok.mpr ⟨pk, hpk, rfl⟩
    refine ⟨rfl, rfl, rfl, le_rfl, le_rfl, fun script => ?_, [], List.Pairwise.nil,
      fun i hi => absurd hi List.not_mem_nil, .nil⟩
    rw [WatchOnly.mem_getPubkeys_track, hscript, or_comm]
    refine or_congr Iff.rfl ⟨fun heq => .inl ⟨trivial, congrArg Except.ok heq.symm⟩, ?_⟩
    rintro (⟨-, heq⟩ | ⟨i, hi, -⟩)
    · exact (Except.ok.inj heq).symm
    · exact absurd hi (hunused rfl i)
  · refine ⟨rfl, rfl, rfl, le_rfl, le_rfl, fun script => ⟨.inl, ?_⟩, [], List.Pairwise.nil,
      fun i hi => absurd hi List.not_mem_nil, .nil⟩
    rintro (hmem | ⟨-, hscript⟩ | ⟨i, hi, -⟩)
    · exact hmem
    · obtain ⟨pk, hpk, -⟩ := scriptAt_eq_ok.mp hscript
      cases he.symm.trans hpk
    · exact absurd hi (hunused rfl i)

/-- **A change script is handed out**, if its key can be derived and the index does not overflow. -/
theorem handsOut_changeScript {pk : PublicKey} (hroom : w.changeDepth.toNat + 1 < 2 ^ 32)
    (hpk : lib.childPub w.accountXpub 1 w.changeDepth = .ok pk) (paid : Option ℕ) :
    lib.HandsOut w (afterChangeScript (lib.p2wpkh pk) w) 1 False
      (paid.toList.map fun _ => lib.p2wpkh pk) := by
  have hdepth : (afterChangeScript (lib.p2wpkh pk) w).changeDepth.toNat = w.changeDepth.toNat + 1 :=
    (UInt32.toNat_add ..).trans (Nat.mod_eq_of_lt hroom)
  have hused : UsedUp w (afterChangeScript (lib.p2wpkh pk) w) w.changeDepth :=
    ⟨UInt32.le_rfl, UInt32.lt_iff_toNat_lt.mpr (hdepth ▸ Nat.lt_succ_self _)⟩
  have hscript : lib.scriptAt w.accountXpub .internal w.changeDepth = .ok (lib.p2wpkh pk) :=
    scriptAt_eq_ok.mpr ⟨pk, hpk, rfl⟩
  refine ⟨rfl, rfl, rfl, hdepth ▸ Nat.le_succ _, hdepth.le, fun script => ?_, ?_⟩
  · rw [afterChangeScript, WatchOnly.mem_getPubkeys_track, or_comm]
    refine or_congr Iff.rfl ⟨?_, ?_⟩
    · rintro rfl
      exact .inr ⟨_, hused, hscript⟩
    · rintro (⟨hfalse, -⟩ | ⟨i, hi, heq⟩)
      · exact hfalse.elim
      · have hi' := (UInt32.lt_iff_toNat_lt.mp hi.2).trans_eq hdepth
        obtain rfl : i = w.changeDepth :=
          UInt32.le_antisymm (UInt32.le_iff_toNat_le.mpr (Nat.le_of_lt_succ hi')) hi.1
        exact Except.ok.inj (heq.symm.trans hscript)
  · cases paid with
    | none => exact ⟨[], List.Pairwise.nil, fun i hi => absurd hi List.not_mem_nil, .nil⟩
    | some v =>
      refine ⟨[w.changeDepth], List.pairwise_singleton _ _, fun i hi => ?_,
        .cons hscript .nil⟩
      rwa [List.mem_singleton.mp hi]

/-- One change script may have been handed out. -/
def MayDraw (lib : WalletLib Xpub PublicKey) (w w' : WatchOnly Xpub) : Prop :=
  w' = w ∨ ∃ pk, lib.childPub w.accountXpub 1 w.changeDepth = .ok pk
    ∧ w' = afterChangeScript (lib.p2wpkh pk) w

end WalletLib

end Wallet

/-! ## What an operation hands out -/

namespace SendLib

variable (lib : SendLib Xpub PublicKey Signer)

/-- The address an operation hands out, if it is asked for one and returns it. -/
def addresses (n : Node Xpub Signer) : NodeOp → List String
  | .getReceiveAddress =>
    match lib.getReceiveAddress n with
    | (.ok address, _) => [address]
    | (.error _, _) => []
  | _ => []

/-- The addresses that a sequence of operations hands out. -/
def addressesOf : Node Xpub Signer → List NodeOp → List String
  | _, [] => []
  | n, op :: ops => lib.addresses n op ++ addressesOf (lib.step n op) ops

variable {lib} {n : Node Xpub Signer}

/-- The wallet after a sync has the scripts it had. -/
theorem withoutCoins_syncState (lib : SendLib Xpub PublicKey Signer) (c : CompactChain Xpub) :
    (lib.chain.syncState c).2.wallet.withoutCoins = c.wallet.withoutCoins :=
  ChainLib.keeps_wallet_syncState (WatchOnly.keeps_withoutCoins_insertUtxos c.wallet) c rfl

/-- A transaction leaves the wallet with at most one more change script. -/
theorem mayDraw_createTransaction (recipient : Script) (amount feeRate : UInt64) (rand : Rng)
    (w : WatchOnly Xpub) :
    lib.keys.MayDraw w (lib.createTransaction recipient amount feeRate rand w).2 := by
  refine Op.snd_bind (fun e w' h => ?_) fun rate w' h => ?_
  · exact .inl (congrArg Prod.snd h).symm
  · obtain ⟨-, rfl⟩ := Op.lift_eq_ok.mp h
    rw [lib.keys.snd_createPsbtTx]
    obtain ⟨pk, hpk, hget⟩ | ⟨e, -, hget⟩ := lib.keys.getChangeScript_cases w' <;> rw [hget]
    · exact .inr ⟨pk, hpk, rfl⟩
    · exact .inl rfl

/-- …and so does a send, however far it gets after its sync. -/
theorem mayDraw_sendToAddress (recipient : Script) (amount feeRate : UInt64) (rand : Rng)
    (n : Node Xpub Signer) : lib.keys.MayDraw (lib.chain.syncState n.chain).2.wallet
      (lib.sendToAddress recipient amount feeRate rand n).2.chain.wallet := by
  obtain ⟨w, hw⟩ : ∃ w, (lib.chain.syncState n.chain).2.wallet = w := ⟨_, rfl⟩
  rw [hw]
  have hafter {s : Node Xpub Signer} {r : Outcome Bitspend.Error Unit}
      (h : NodeLib.onChain lib.chain.syncState n = (r, s)) : s.chain.wallet = w :=
    hw ▸ congrArg (fun x => x.2.chain.wallet) h.symm
  let C : Node Xpub Signer → Prop := fun s => lib.keys.MayDraw w s.chain.wallet
  refine Op.snd_bind (C := C) (fun e n₁ h₁ => .inl (hafter h₁)) fun _ n₁ h₁ => ?_
  refine Op.snd_bind (C := C) (fun e n₂ h₂ => ?_) fun psbt n₂ h₂ => ?_
  all_goals
    have hdraw : lib.keys.MayDraw w n₂.chain.wallet := by
      rw [← hafter h₁, show n₂.chain.wallet = (lib.createTransaction recipient amount feeRate rand
        n₁.chain.wallet).2 from congrArg (fun x => x.2.chain.wallet) h₂.symm]
      exact mayDraw_createTransaction recipient amount feeRate rand _
  · exact hdraw
  · -- what follows leaves the wallet alone
    have hsend (t : Tx) : Op.Keeps (fun c : CompactChain Xpub => lib.keys.MayDraw w c.wallet)
        (lib.chain.sendTransaction t) := Op.Keeps.bind (fun _ h => h) fun _ _ h => h
    refine (Op.Keeps.ask _).bind (fun sigs => (Op.Keeps.lift _).bind fun bytes => ?_) n₂ hdraw
    exact (Op.Keeps.lift _).bind fun tx =>
      Op.Keeps.bind (fun n h => hsend tx.1 n.chain h) fun _ _ h => h

/-- The change of a broadcast is paid to the script that was handed out for it. -/
theorem changeScripts_withWitnesses (recipient script : Script) (amount : ℕ)
    (cs : CoinSelectionResult) (ws : List (List (List UInt8))) :
    (wireTx (withWitnesses (WalletLib.unsignedTxOf recipient script amount cs) ws)).changeScripts
      = cs.excess.changeAmount.toList.map fun _ => script := by
  change ((WalletLib.outputs recipient script amount cs.excess).map
    fun o => Wire.TxOut.mk _ _).tail.map TxOut.lockScript = _
  rw [WalletLib.outputs_eq, List.map_cons, List.tail_cons, List.map_map, List.map_map]
  rfl

/-- **What a send hands out.** -/
theorem handsOut_sendToAddress (laws : lib.TransactionLaws) {n : Node Xpub Signer}
    (hroom : n.chain.wallet.changeDepth.toNat + 1 < 2 ^ 32) (recipient : Script)
    (amount feeRate : UInt64) (rand : Rng) :
    lib.keys.HandsOut n.chain.wallet
      (lib.step n (.sendToAddress recipient amount feeRate rand)).chain.wallet 1 False
      ((lib.broadcasts n (.sendToAddress recipient amount feeRate rand)).flatMap Tx.changeScripts) := by
  have hsync := withoutCoins_syncState lib n.chain
  have hroom' : (lib.chain.syncState n.chain).2.wallet.changeDepth.toNat + 1 < 2 ^ 32 := by
    rwa [show (lib.chain.syncState n.chain).2.wallet.changeDepth = n.chain.wallet.changeDepth from
      congrArg (fun w => w.changeDepth) hsync]
  have hbefore : lib.keys.HandsOut _ _ 0 False [] := .of_withoutCoins_eq hsync
  rcases hsend : lib.sendToAddress recipient amount feeRate rand n with ⟨e | _, n'⟩
  · -- a send that fails may have used a change key up
    have hdraw := @mayDraw_sendToAddress _ _ _ lib recipient amount feeRate rand n
    have hnone : lib.broadcasts n (.sendToAddress recipient amount feeRate rand) = [] := by
      rw [broadcasts, hsend]
    rw [hnone]
    change lib.keys.HandsOut _ (lib.sendToAddress recipient amount feeRate rand n).2.chain.wallet 1 _ []
    rcases hdraw with hsame | ⟨pk, hpk, hnext⟩
    · rw [hsame]
      exact hbefore.mono (Nat.zero_le 1) Iff.rfl
    · rw [hnext]
      exact (hbefore.trans (WalletLib.handsOut_changeScript hroom' hpk none)).mono le_rfl or_self_iff
  · obtain ⟨rate, psbt, w, ws, -, -, hcreate, -, hone, hwallet⟩ := sendToAddress_eq_ok laws hsend
    obtain ⟨pk, cs, hpk, rfl, -, htx, -⟩ := lib.keys.createPsbtTx_eq_ok hcreate
    change lib.keys.HandsOut _ (lib.sendToAddress recipient amount feeRate rand n).2.chain.wallet 1 _ _
    rw [hsend, hone, htx, List.flatMap_singleton, changeScripts_withWitnesses]
    change lib.keys.HandsOut _ n'.chain.wallet 1 _ _
    rw [hwallet]
    exact (hbefore.trans (WalletLib.handsOut_changeScript hroom' hpk cs.excess.changeAmount)).mono
      le_rfl or_self_iff

/-- **What an operation hands out.** -/
theorem handsOut_step (laws : lib.TransactionLaws) {n : Node Xpub Signer}
    (hroom : n.chain.wallet.changeDepth.toNat + 1 < 2 ^ 32) (op : NodeOp) :
    lib.keys.HandsOut n.chain.wallet (lib.step n op).chain.wallet 1 (op = .getReceiveAddress)
      ((lib.broadcasts n op).flatMap Tx.changeScripts) := by
  cases op with
  | balance =>
    have hkeep : Op.Keeps (fun s : Node Xpub Signer =>
        s.chain.wallet.withoutCoins = n.chain.wallet.withoutCoins) lib.balance :=
      Op.Keeps.bind ((ChainLib.keeps_wallet_syncState
        (WatchOnly.keeps_withoutCoins_insertUtxos n.chain.wallet)).zoom (fun _ h => h) fun _ _ _ h => h)
        fun _ => Op.Keeps.bind (fun _ h => h) fun _ => Op.Keeps.ask _
    exact (WalletLib.HandsOut.of_withoutCoins_eq (hkeep n rfl)).mono (Nat.zero_le 1) (by simp)
  | getReceiveAddress =>
    have hwallet : (lib.getReceiveAddress n).2.chain.wallet
        = (lib.keys.getReceiveAddress n.chain.wallet).2 :=
      Op.snd_bind (C := fun s : Node Xpub Signer => s.chain.wallet = _)
        (fun e s h => congrArg (fun x => x.2.chain.wallet) h.symm)
        fun _ s h => congrArg (fun x => x.2.chain.wallet) h.symm
    change lib.keys.HandsOut _ (lib.getReceiveAddress n).2.chain.wallet _ _ []
    rw [hwallet]
    exact (WalletLib.handsOut_getReceiveAddress n.chain.wallet).mono (Nat.zero_le 1) (by simp)
  | sendToAddress recipient amount feeRate rand =>
    exact (handsOut_sendToAddress laws hroom recipient amount feeRate rand).mono le_rfl (by simp)

/-- **What a run hands out.** -/
theorem handsOut_run (laws : lib.TransactionLaws) {n : Node Xpub Signer} {ops : List NodeOp}
    (hroom : n.chain.wallet.changeDepth.toNat + ops.length < 2 ^ 32) :
    lib.keys.HandsOut n.chain.wallet (lib.run n ops).chain.wallet ops.length
      (.getReceiveAddress ∈ ops) ((lib.broadcastsOf n ops).flatMap Tx.changeScripts) := by
  induction ops generalizing n with
  | nil => exact (WalletLib.HandsOut.of_withoutCoins_eq rfl).mono le_rfl (by simp)
  | cons op ops ih =>
    rw [List.length_cons] at hroom
    have hstep := handsOut_step (n := n) laws (by omega) op
    have hfew := hstep.few
    have hrest := ih (n := lib.step n op) (by omega)
    rw [broadcastsOf, List.flatMap_append]
    exact (hstep.trans hrest).mono (Nat.add_comm _ _).le (by rw [List.mem_cons, eq_comm])

/-- **The address of a node's receive key.** -/
def ReceiveAddress (lib : SendLib Xpub PublicKey Signer) (n : Node Xpub Signer) (address : String) :
    Prop :=
  ∃ pk, lib.keys.childPub n.chain.wallet.accountXpub 0 n.chain.wallet.receiveDepth = .ok pk
    ∧ address = lib.keys.address pk n.chain.wallet.network

theorem receiveAddress_of_mem_addresses {op : NodeOp} {address : String}
    (h : address ∈ lib.addresses n op) : lib.ReceiveAddress n address := by
  cases op with
  | balance => exact absurd h List.not_mem_nil
  | sendToAddress => exact absurd h List.not_mem_nil
  | getReceiveAddress =>
    rw [addresses] at h
    split at h
    · rename_i address' n' hget
      obtain rfl := List.mem_singleton.mp h
      obtain ⟨_, n₁, hwallet, hget⟩ := Op.bind_eq_ok.mp hget
      obtain ⟨_, n₂, -, hget⟩ := Op.bind_eq_ok.mp hget
      obtain ⟨rfl, -⟩ := Op.pure_eq_ok.mp hget
      obtain ⟨w, hw, -⟩ := Op.zoom_eq_ok.mp (Op.mapErr_eq_ok.mp hwallet)
      obtain ⟨pk, hpk, hcase⟩ | ⟨e, -, hcase⟩ :=
        lib.keys.getReceiveAddress_cases n.chain.wallet <;> rw [hcase] at hw
      · cases hw
        exact ⟨pk, hpk, rfl⟩
      · cases hw
    · exact absurd h List.not_mem_nil

/-- **A run hands out one address**… -/
theorem receiveAddress_of_mem_addressesOf (laws : lib.TransactionLaws) {ops : List NodeOp}
    (hroom : n.chain.wallet.changeDepth.toNat + ops.length < 2 ^ 32) {address : String}
    (h : address ∈ lib.addressesOf n ops) : lib.ReceiveAddress n address := by
  induction ops generalizing n with
  | nil => exact absurd h List.not_mem_nil
  | cons op ops ih =>
    rw [List.length_cons] at hroom
    rcases List.mem_append.mp h with h | h
    · exact receiveAddress_of_mem_addresses h
    · have hstep := handsOut_step (n := n) laws (by omega) op
      have hfew := hstep.few
      have hrest := ih (n := lib.step n op) (by omega) h
      rwa [ReceiveAddress, hstep.account, hstep.receiveDepth, hstep.network] at hrest

/-- **The scripts of a run.**  In a run of a node there is one address, however often it is asked for;
the change of its broadcasts goes to scripts that are pairwise different, each of a change key of this
run and none that was a change or a receive script before; and what the wallet watches in the end is
what it watched, the receive script if it was asked for, and the change scripts of the run. -/
theorem scripts_of_run (laws : lib.TransactionLaws) (keys : lib.keys.DerivationLaws)
    (n : Node Xpub Signer) (ops : List NodeOp)
    (hroom : n.chain.wallet.changeDepth.toNat + ops.length < 2 ^ 32) :
    (∀ address ∈ lib.addressesOf n ops, lib.ReceiveAddress n address)
    ∧ ((lib.broadcastsOf n ops).flatMap Tx.changeScripts).Nodup
    ∧ (∀ script ∈ (lib.broadcastsOf n ops).flatMap Tx.changeScripts,
      (∃ i, WalletLib.UsedUp n.chain.wallet (lib.run n ops).chain.wallet i
        ∧ lib.keys.scriptAt n.chain.wallet.accountXpub .internal i = .ok script)
      ∧ (∀ i < n.chain.wallet.changeDepth,
        lib.keys.scriptAt n.chain.wallet.accountXpub .internal i ≠ .ok script)
      ∧ ∀ i, lib.keys.scriptAt n.chain.wallet.accountXpub .external i ≠ .ok script)
    ∧ ∀ script, script ∈ (lib.run n ops).chain.wallet.getPubkeys ↔ script ∈ n.chain.wallet.getPubkeys
      ∨ (.getReceiveAddress ∈ ops
        ∧ lib.keys.scriptAt n.chain.wallet.accountXpub .external n.chain.wallet.receiveDepth = .ok script)
      ∨ ∃ i, WalletLib.UsedUp n.chain.wallet (lib.run n ops).chain.wallet i
        ∧ lib.keys.scriptAt n.chain.wallet.accountXpub .internal i = .ok script := by
  have h := handsOut_run laws hroom
  obtain ⟨is, hsorted, hused, hscripts⟩ := h.indices
  refine ⟨fun address => receiveAddress_of_mem_addressesOf laws hroom, ?_, fun script hscript => ?_,
    h.watched⟩
  · -- keys and scripts are in one to one
    refine (List.rel_nodup ⟨fun i j script hi hj => ?_, fun i script script' hs hs' => ?_⟩ hscripts).mp
      (hsorted.imp fun hlt => UInt32.ne_of_lt hlt)
    · exact (keys.scriptAt_injective hi hj).2
    · exact Except.ok.inj (hs.symm.trans hs')
  · obtain ⟨i, hi, heq⟩ := Outcome.exists_left_of_forall₂ hscripts hscript
    refine ⟨⟨i, hused i hi, heq⟩, fun j hj hj' => ?_, fun j hj' => ?_⟩
    · obtain rfl := (keys.scriptAt_injective heq hj').2
      exact UInt32.not_le.mpr hj (hused i hi).1
    · exact absurd (keys.scriptAt_injective heq hj').1 (by decide)

end SendLib

/-! ## A wallet whose keys are their paths -/

section Paths

/-- The node, over keys that are their paths. -/
def pathSendLib : SendLib (List UInt32) (List UInt32) Unit := { signingLib with keys := pathLib }

/-- The block with a transaction that pays the first address twice. -/
def pathBlock : Block :=
  { payingBlock with txns := [{ payingTwice with outputs := payingTwice.outputs.map fun o =>
      { o with lockScript := pathLib.p2wpkh [0, 0] } }] }

/-- The node whose peer has it. -/
def pathNode : Node (List UInt32) Unit :=
  { newNode with chain := { newNode.chain with p2p := { newNode.chain.p2p with
      incoming := newNode.chain.p2p.incoming.map fun
        | .message c (.block _) => .message c (.block pathBlock)
        | x => x } } }

/-- Two payments with change, and an address before them. -/
theorem scripts_of_run_twoSends :
    (pathSendLib.broadcastsOf pathNode (twoSends 40000 30000)).flatMap Tx.changeScripts
        = [pathLib.p2wpkh [1, 0], pathLib.p2wpkh [1, 1]]
      ∧ ((pathSendLib.broadcastsOf pathNode (twoSends 40000 30000)).flatMap Tx.changeScripts).Nodup
      ∧ pathLib.p2wpkh [0, 0]
        ∈ (pathSendLib.run pathNode (twoSends 40000 30000)).chain.wallet.getPubkeys := by
  have laws : pathSendLib.TransactionLaws := ⟨signingLib_laws.extractTx_eq, signingLib_laws.serialize_eq⟩
  obtain ⟨-, hnodup, -, hwatched⟩ := SendLib.scripts_of_run laws pathLib_laws pathNode
    (twoSends 40000 30000) (by decide)
  exact ⟨by decide +kernel, hnodup, (hwatched _).mpr (.inr (.inl ⟨List.mem_cons_self, rfl⟩))⟩

end Paths

end Bitspend
