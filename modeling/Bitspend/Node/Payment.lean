import Bitspend.Node.Sending
import Bitspend.Wire.Canonical

/-!
# Node/Payment — a payment from its send to its block

`send_to_address` broadcasts a transaction and tells the wallet nothing: the coins it spends stay as
they were, and so does the balance.  It is the scan of the block with the transaction that marks them
and files the change, whose script the wallet has kept since it was handed out.  Over the two steps
the books balance: what has left the wallet is the amount and the fee.
-/

namespace Bitspend

open Chain Wallet Wire

variable {Xpub PublicKey Signer : Type}

/-! ## Coins under their own outpoints -/

namespace Wallet.WatchOnly

/-- Each coin is kept under its own outpoint. -/
def Keyed (w : WatchOnly Xpub) : Prop := ∀ o u, w.coin o = some u → u.outpoint = o

theorem keeps_keyed_insertUtxos (us : List PartialUtxo) :
    Op.Keeps (@Keyed Xpub) (insertUtxos us) := by
  refine Op.Keeps.forM fun u _ s hs => ?_
  obtain ⟨s', h, -, hcoin⟩ | ⟨h, -, -⟩ := insertUtxo_spec u s
  · rw [h]
    intro o x hx
    rw [hcoin] at hx
    split_ifs at hx with ho
    · -- a report keeps the outpoint of the coin it is about
      rcases hc : s.coin o with _ | y
      · rw [hc] at hx
        cases hx
        exact ho
      · rw [hc] at hx
        cases hx
        exact hs o y hc
    · exact hs o x hx
  · rw [h]
    exact hs

/-- The wallet's coins, split by a selection from them. -/
theorem exists_perm_of_subperm {w : WatchOnly Xpub} {ws : List WeightedUtxo}
    (h : ws.Subperm w.utxos) : ∃ rest, w.utxos.Perm (ws ++ rest) := by
  obtain ⟨l, hl, hsub⟩ := h
  obtain ⟨rest, hrest⟩ := hsub.exists_perm_append
  exact ⟨rest, hrest.trans (hl.append_right rest)⟩

theorem Keyed.nodup_outpoints {w : WatchOnly Xpub} (hw : w.Keyed) :
    (w.utxos.map fun v => v.utxo.outpoint).Nodup :=
  WatchOnly.nodup_outpoints fun o v hv => hw o v.utxo.toPartial (by rw [coin, hv]; rfl)

theorem Keyed.coin_eq {w : WatchOnly Xpub} (hw : w.Keyed) {v : WeightedUtxo} (hv : v ∈ w.utxos) :
    w.coin v.utxo.outpoint = some v.utxo.toPartial := by
  obtain ⟨o, ho⟩ := mem_utxos.mp hv
  have hcoin : w.coin o = some v.utxo.toPartial := by rw [coin, ho]; rfl
  rwa [← hw o _ hcoin] at hcoin

/-! ## What the reports of a payment do -/

/-- The coin, marked as spent. -/
def spentCoin (v : WeightedUtxo) : PartialUtxo := { v.utxo.toPartial with isSpent := true }

section Settle

variable {w w' : WatchOnly Xpub} {ws rest : List WeightedUtxo} {new us : List PartialUtxo}
  (hw : w.Keyed) (hsplit : w.utxos.Perm (ws ++ rest)) (hnew : (new.map PartialUtxo.outpoint).Nodup)
  (hfresh : ∀ u ∈ new, w.coin u.outpoint = none)
  (hus : ∀ u, u ∈ us ↔ u ∈ new ∨ ∃ v ∈ ws, u = spentCoin v) {x : PUnit}
  (h : insertUtxos us w = (.ok x, w'))

include hw hfresh in
/-- A new coin is none of those that are stored. -/
theorem outpoint_ne {u : PartialUtxo} (hu : u ∈ new) {v : WeightedUtxo} (hv : v ∈ w.utxos) :
    u.outpoint ≠ v.utxo.outpoint := by
  intro hout
  have hstored := hw.coin_eq hv
  rw [← hout, hfresh u hu] at hstored
  cases hstored

include hw hsplit in
theorem nodup_outpoints_split : (ws.map (fun v => v.utxo.outpoint)
    ++ rest.map fun v => v.utxo.outpoint).Nodup := by
  rw [← List.map_append]
  exact (hsplit.map fun v : WeightedUtxo => v.utxo.outpoint).nodup hw.nodup_outpoints

include hw hsplit hnew hfresh in
/-- The coins after the reports, if they are these, have different outpoints. -/
theorem nodup_parts :
    (new ++ ws.map spentCoin ++ rest.map fun v => v.utxo.toPartial).Nodup := by
  refine List.Nodup.of_map PartialUtxo.outpoint ?_
  rw [List.append_assoc, List.map_append, List.map_append, List.map_map, List.map_map, List.nodup_append]
  refine ⟨hnew, nodup_outpoints_split hw hsplit, fun o ho o' ho' heq => ?_⟩
  obtain ⟨u, hu, rfl⟩ := List.mem_map.mp ho
  obtain ⟨v, hv, hout⟩ : ∃ v ∈ ws ++ rest, v.utxo.outpoint = o' := by
    rcases List.mem_append.mp ho' with hmem | hmem
    · obtain ⟨v, hv, hout⟩ := List.mem_map.mp hmem
      exact ⟨v, List.mem_append_left rest hv, hout⟩
    · obtain ⟨v, hv, hout⟩ := List.mem_map.mp hmem
      exact ⟨v, List.mem_append_right ws hv, hout⟩
  exact outpoint_ne hw hfresh hu (hsplit.mem_iff.mpr hv) (heq.trans hout.symm)

include hus

/-- No report is about a coin that stays. -/
theorem about_eq_nil {o : Wallet.OutPoint} (ho : o ∉ new.map PartialUtxo.outpoint)
    (ho' : o ∉ ws.map fun v => v.utxo.outpoint) : about o us = [] := by
  refine List.filter_eq_nil_iff.mpr fun u hu hout => ?_
  rcases (hus u).mp hu with hmem | ⟨v, hv, rfl⟩
  · exact ho (List.mem_map.mpr ⟨u, hmem, of_decide_eq_true hout⟩)
  · exact ho' (List.mem_map.mpr ⟨v, hv, of_decide_eq_true hout⟩)

include hw hsplit hnew hfresh h

/-- **A new coin is filed**… -/
theorem coin_of_new {u : PartialUtxo} (hu : u ∈ new) : w'.coin u.outpoint = some u := by
  have hall : ∀ u' ∈ about u.outpoint us, u' = u := by
    intro u' hu'
    obtain ⟨hmem, hout⟩ := List.mem_filter.mp hu'
    rcases (hus u').mp hmem with hmem | ⟨v, hv, rfl⟩
    · exact List.inj_on_of_nodup_map hnew hmem hu (of_decide_eq_true hout)
    · -- a coin that is spent is stored, and a new one is not
      have hstored := hsplit.mem_iff.mpr (List.mem_append_left rest hv)
      exact absurd (of_decide_eq_true hout).symm (outpoint_ne hw hfresh hu hstored)
  have hne : about u.outpoint us ≠ [] :=
    List.ne_nil_of_mem (List.mem_filter.mpr ⟨(hus u).mpr (.inl hu), decide_eq_true rfl⟩)
  have hfold := @foldl_reportAt u (about u.outpoint us)
    (fun u' hu' => by rw [hall u' hu']) none
  rw [(insertUtxos_eq_ok h).2, hfresh u hu]
  refine hfold.trans ?_
  rw [mark_of_forall hne fun u' hu' => congrArg PartialUtxo.isSpent (hall u' hu')]
  rfl

omit hnew in
/-- …**a coin that is spent is marked**… -/
theorem coin_of_spent {v : WeightedUtxo} (hv : v ∈ ws) :
    w'.coin v.utxo.outpoint = some (spentCoin v) := by
  have hmem := hsplit.mem_iff.mpr (List.mem_append_left rest hv)
  have hall : ∀ u ∈ about v.utxo.outpoint us, u = spentCoin v := by
    intro u hu
    obtain ⟨hmem', hout⟩ := List.mem_filter.mp hu
    rcases (hus u).mp hmem' with hnew | ⟨v', hv', rfl⟩
    · exact absurd (of_decide_eq_true hout) (outpoint_ne hw hfresh hnew hmem)
    · have hmem₂ := hsplit.mem_iff.mpr (List.mem_append_left rest hv')
      rw [List.inj_on_of_nodup_map hw.nodup_outpoints hmem₂ hmem (of_decide_eq_true hout)]
  have hne : about v.utxo.outpoint us ≠ [] :=
    List.ne_nil_of_mem (List.mem_filter.mpr ⟨(hus _).mpr (.inr ⟨v, hv, rfl⟩), decide_eq_true rfl⟩)
  have hfold := @foldl_reportAt (spentCoin v) (about v.utxo.outpoint us)
    (fun u hu => by rw [hall u hu]) (some v.utxo.isSpent)
  rw [(insertUtxos_eq_ok h).2, hw.coin_eq hmem]
  refine hfold.trans ?_
  rw [mark_of_forall hne fun u hu => congrArg PartialUtxo.isSpent (hall u hu)]
  rfl

omit hnew in
/-- …**and the rest stays.** -/
theorem coin_of_rest {v : WeightedUtxo} (hv : v ∈ rest) :
    w'.coin v.utxo.outpoint = some v.utxo.toPartial := by
  have hmem := hsplit.mem_iff.mpr (List.mem_append_right ws hv)
  rw [(insertUtxos_eq_ok h).2, about_eq_nil hus ?_ ?_, List.foldl_nil, hw.coin_eq hmem]
  · intro ho
    obtain ⟨u, hu, hout⟩ := List.mem_map.mp ho
    exact outpoint_ne hw hfresh hu hmem hout
  · intro ho
    have hnodup := nodup_outpoints_split hw hsplit
    rw [List.nodup_append] at hnodup
    exact hnodup.2.2 _ ho _ (List.mem_map_of_mem hv) rfl

/-- **The coins after the reports**: the new ones, those that are spent, and the rest. -/
theorem perm_of_reports :
    w'.getUtxos.Perm (new ++ ws.map spentCoin ++ rest.map fun v => v.utxo.toPartial) := by
  have hw' : w'.Keyed := (keeps_keyed_insertUtxos us).of_eq hw h
  have hfiled : ∀ u ∈ new, w'.coin u.outpoint = some u := fun u hu =>
    coin_of_new hw hsplit hnew hfresh hus h hu
  have hspent : ∀ v ∈ ws, w'.coin v.utxo.outpoint = some (spentCoin v) := fun v hv =>
    coin_of_spent hw hsplit hfresh hus h hv
  have hrest : ∀ v ∈ rest, w'.coin v.utxo.outpoint = some v.utxo.toPartial := fun v hv =>
    coin_of_rest hw hsplit hfresh hus h hv
  refine (List.perm_ext_iff_of_nodup (nodup_getUtxos hw')
    (nodup_parts hw hsplit hnew hfresh)).mpr fun u => ?_
  rw [mem_getUtxos, List.mem_append, List.mem_append, List.mem_map, List.mem_map]
  constructor
  · rintro ⟨o, ho⟩
    by_cases hn : o ∈ new.map PartialUtxo.outpoint
    · obtain ⟨x, hx, rfl⟩ := List.mem_map.mp hn
      rw [hfiled x hx] at ho
      cases ho
      exact .inl (.inl hx)
    by_cases hs : o ∈ ws.map fun v => v.utxo.outpoint
    · obtain ⟨v, hv, rfl⟩ := List.mem_map.mp hs
      rw [hspent v hv] at ho
      cases ho
      exact .inl (.inr ⟨v, hv, rfl⟩)
    rw [(insertUtxos_eq_ok h).2, about_eq_nil hus hn hs, List.foldl_nil] at ho
    obtain ⟨v, hv, rfl⟩ := Option.map_eq_some_iff.mp ho
    rcases List.mem_append.mp (hsplit.mem_iff.mp (mem_utxos.mpr ⟨o, hv⟩)) with hmem | hmem
    · rw [← hw o _ ho] at hs
      exact absurd (List.mem_map_of_mem hmem) hs
    · exact .inr ⟨v, hmem, rfl⟩
  · rintro ((hu | ⟨v, hv, rfl⟩) | ⟨v, hv, rfl⟩)
    · exact ⟨u.outpoint, hfiled u hu⟩
    · exact ⟨v.utxo.outpoint, hspent v hv⟩
    · exact ⟨v.utxo.outpoint, hrest v hv⟩

end Settle

/-! ## Values -/

theorem unspentValue_append (us us' : List PartialUtxo) :
    unspentValue (us ++ us') = unspentValue us + unspentValue us' := by
  rw [unspentValue, List.filter_append, List.map_append, List.sum_append]
  rfl

theorem unspentValue_spentCoin (ws : List WeightedUtxo) : unspentValue (ws.map spentCoin) = 0 := by
  induction ws with
  | nil => rfl
  | cons v ws ih =>
    rw [List.map_cons, unspentValue_cons, ih]
    rfl

theorem unspentValue_of_unmarked {ws : List WeightedUtxo} (h : ∀ v ∈ ws, v.utxo.isSpent = false) :
    unspentValue (ws.map fun v => v.utxo.toPartial) = valueOf ws := by
  induction ws with
  | nil => rfl
  | cons v ws ih =>
    rw [List.map_cons, unspentValue_cons, valueOf_cons, ih fun v' hv' => h v' (List.mem_cons_of_mem v hv')]
    change (if v.utxo.isSpent then 0 else v.utxo.txout.value) + _ = _
    rw [h v List.mem_cons_self]
    rfl

theorem unspentValue_le (ws : List WeightedUtxo) :
    unspentValue (ws.map fun v => v.utxo.toPartial) ≤ valueOf ws := by
  induction ws with
  | nil => exact le_rfl
  | cons v ws ih =>
    rw [List.map_cons, unspentValue_cons, valueOf_cons]
    refine Nat.add_le_add ?_ ih
    split_ifs
    · exact Nat.zero_le _
    · exact le_rfl

end Wallet.WatchOnly

/-! ## What a run keeps of the wallet -/

namespace Chain.ChainLib

variable {lib : ChainLib} {P : WatchOnly Xpub → Prop} (hP : ∀ us, Op.Keeps P (WatchOnly.insertUtxos us))

include hP

/-- **A sync only inserts coins.** -/
theorem keeps_wallet_syncState : Op.Keeps (fun c : CompactChain Xpub => P c.wallet) lib.syncState := by
  refine Op.Keeps.bind (fun _ h => h) fun _ => Op.Keeps.loopOn (fun _ => ?_) ()
  refine (Op.Keeps.ask _).bind fun hash => Op.Keeps.bind (fun _ h => h) fun fetched => ?_
  rw [syncHeaders]
  split
  · exact Op.Keeps.pure _
  refine (Op.Keeps.lift _).bind fun last => (Op.Keeps.ask _).bind fun start => ?_
  refine Op.Keeps.bind (Op.Keeps.forM fun x _ => ?_) fun _ => ?_
  · refine Op.Keeps.bind ?_ fun filters => ?_
    · refine Op.Keeps.bind (fun _ h => h) fun _ => Op.Keeps.bind (fun _ h => h) fun _ => ?_
      exact (Op.Keeps.lift _).bind fun _ => Op.Keeps.pure _
    split_ifs
    · exact Op.Keeps.pure _
    refine Op.Keeps.bind ?_ fun _ => Op.Keeps.update fun _ h => h
    refine Op.Keeps.bind (fun _ h => h) fun pubKeys => (Op.Keeps.lift _).bind fun present => ?_
    split_ifs
    · exact Op.Keeps.pure _
    refine Op.Keeps.bind (fun _ h => h) fun blocks => Op.Keeps.bind (fun _ h => h) fun utxos => ?_
    exact Op.Keeps.mapErr (Op.Keeps.zoom (hP _) (fun _ h => h) fun _ _ _ h => h)
  · exact Op.Keeps.bind (Op.Keeps.update fun _ h => h) fun _ => Op.Keeps.pure _

end Chain.ChainLib

/-! ## The block with the transaction -/

/-- **The blocks confirm the transaction**: they hold it once, and besides it nothing that is about
the wallet; its id is none that the wallet knows, and no coin has the zero id. -/
structure Confirms (sha256 : List UInt8 → Bytes 32) (w : WatchOnly Xpub) (t : Tx) (bs : List Block) :
    Prop where
  once : ∃ before after, txnsOf bs = before ++ t.stripped :: after
    ∧ ∀ t' ∈ before ++ after, (∀ output ∈ t'.outputs, output.lockScript ∉ w.getPubkeys)
      ∧ ∀ u ∈ w.getUtxos, ¬Spends u.outpoint t'
  fresh : ∀ u ∈ w.getUtxos, u.outpoint.txid ≠ txid sha256 t
  ne_zero : ∀ u ∈ w.getUtxos, u.outpoint.txid ≠ NO_HASH_STOP

section Scan

variable {sha256 : List UInt8 → Bytes 32} {w : WatchOnly Xpub} {t : Tx} {bs : List Block}

/-- **The scan reports what the transaction creates and spends.** -/
theorem Confirms.mem_scanBlocks (h : Confirms sha256 w t bs) {u : PartialUtxo} :
    u ∈ scanBlocks sha256 w.getPubkeys w.getUtxos bs
      ↔ u ∈ newUtxosOf sha256 w.getPubkeys t.stripped ∨ u ∈ spentUtxosOf w.getUtxos t.stripped := by
  obtain ⟨before, after, hsplit, hforeign⟩ := h.once
  have hnone : ∀ t' ∈ before ++ after, u ∉ reportsOf sha256 w.getPubkeys w.getUtxos t' := by
    intro t' ht' hu
    obtain ⟨hout, hin⟩ := hforeign t' ht'
    rcases List.mem_append.mp hu with hnew | hspent
    · obtain ⟨i, output, hi, hs, -⟩ := mem_newUtxosOf.mp hnew
      exact hout output (List.mem_of_getElem? hi) hs
    · obtain ⟨x, hx, ⟨input, hinput, -, hid, hidx⟩, -⟩ := mem_spentUtxosOf.mp hspent
      exact hin x hx ⟨input, hinput, hid.symm, hidx.symm⟩
  rw [scanBlocks_eq, hsplit, List.mem_flatMap, ← List.mem_append]
  constructor
  · rintro ⟨t', ht', hu⟩
    rcases List.mem_append.mp ht' with ht' | ht'
    · exact absurd hu (hnone t' (List.mem_append_left after ht'))
    · rcases List.mem_cons.mp ht' with rfl | ht'
      · exact hu
      · exact absurd hu (hnone t' (List.mem_append_right before ht'))
  · exact fun hu => ⟨t.stripped, List.mem_append_right before List.mem_cons_self, hu⟩

/-- The coins that the transaction spends are the selected ones. -/
theorem Confirms.mem_spentUtxosOf (h : Confirms sha256 w t bs) (hw : w.Keyed) {ws : List WeightedUtxo}
    (hsub : ws ⊆ w.utxos) (hspends : t.spends = ws.map fun v => v.utxo.outpoint) {u : PartialUtxo} :
    u ∈ spentUtxosOf w.getUtxos t.stripped ↔ ∃ v ∈ ws, u = WatchOnly.spentCoin v := by
  have hspent (o : Wallet.OutPoint) : Spends o t.stripped ↔ o ∈ ws.map fun v => v.utxo.outpoint := by
    rw [← hspends, Tx.spends, List.mem_map]
    constructor
    · rintro ⟨input, hinput, hid, hidx⟩
      exact ⟨input, hinput, by rw [hid, hidx]⟩
    · rintro ⟨input, hinput, rfl⟩
      exact ⟨input, hinput, rfl, rfl⟩
  rw [Chain.mem_spentUtxosOf]
  constructor
  · rintro ⟨x, hx, ⟨input, hinput, -, hid, hidx⟩, rfl⟩
    obtain ⟨v, hv, rfl⟩ := List.mem_map.mp hx
    obtain ⟨v', hv', hout⟩ := List.mem_map.mp ((hspent v.utxo.outpoint).mp
      ⟨input, hinput, hid.symm, hidx.symm⟩)
    rw [List.inj_on_of_nodup_map hw.nodup_outpoints (hsub hv') hv hout] at hv'
    exact ⟨v, hv', rfl⟩
  · rintro ⟨v, hv, rfl⟩
    have hmem : v.utxo.toPartial ∈ w.getUtxos := List.mem_map_of_mem (hsub hv)
    obtain ⟨input, hinput, hid, hidx⟩ := (hspent v.utxo.outpoint).mpr (List.mem_map_of_mem hv)
    refine ⟨_, hmem, ⟨input, hinput, ?_, hid.symm, hidx.symm⟩, rfl⟩
    rw [hid]
    exact h.ne_zero _ hmem

end Scan

namespace SendLib

variable (lib : SendLib Xpub PublicKey Signer)

/-- Handing out a script keeps the coins… -/
theorem keeps_keyed_getReceiveAddress :
    Op.Keeps (@WatchOnly.Keyed Xpub) lib.keys.getReceiveAddress := by
  intro s hs
  obtain ⟨pk, -, h⟩ | ⟨e, -, h⟩ := lib.keys.getReceiveAddress_cases s <;> rw [h]
  · exact hs
  · exact hs

/-- …and so does making a transaction. -/
theorem keeps_keyed_createTransaction (recipient : Script) (amount feeRate : UInt64) (rand : Rng) :
    Op.Keeps (@WatchOnly.Keyed Xpub)
      (lib.createTransaction recipient amount feeRate rand) := by
  refine (Op.Keeps.lift _).bind fun rate s hs => ?_
  rw [lib.keys.snd_createPsbtTx]
  obtain ⟨pk, -, h⟩ | ⟨e, -, h⟩ := lib.keys.getChangeScript_cases s <;> rw [h]
  · exact hs
  · exact hs

/-- **Every operation of a node keeps each coin under its own outpoint.** -/
theorem keyed_step {n : Node Xpub Signer} (hn : n.chain.wallet.Keyed) (op : NodeOp) :
    (lib.step n op).chain.wallet.Keyed := by
  have hsync : Op.Keeps (fun n : Node Xpub Signer => n.chain.wallet.Keyed)
      (NodeLib.onChain lib.chain.syncState) :=
    (ChainLib.keeps_wallet_syncState WatchOnly.keeps_keyed_insertUtxos).zoom (fun _ h => h)
      fun _ _ _ h => h
  have hwallet {ε α : Type} {x : Op ε (WatchOnly Xpub) α} (hx : Op.Keeps WatchOnly.Keyed x) :
      Op.Keeps (fun n : Node Xpub Signer => n.chain.wallet.Keyed) (onWallet x) :=
    hx.zoom (fun _ h => h) fun _ _ _ h => h
  have hstore : Op.Keeps (fun n : Node Xpub Signer => n.chain.wallet.Keyed)
      (Op.update (ε := Bitspend.Error) lib.storeState) := fun _ h => h
  cases op with
  | balance => exact (hsync.bind fun _ => hstore.bind fun _ => Op.Keeps.ask _) n hn
  | getReceiveAddress =>
    exact Op.Keeps.bind (hwallet lib.keeps_keyed_getReceiveAddress).mapErr
      (fun _ => hstore.bind fun _ => Op.Keeps.pure _) n hn
  | sendToAddress recipient amount feeRate rand =>
    have hcreate := hwallet (lib.keeps_keyed_createTransaction recipient amount feeRate rand)
    refine hsync.bind (fun _ => Op.Keeps.bind (fun n hn => hcreate n hn) fun psbt => ?_) n hn
    refine (Op.Keeps.ask _).bind fun sigs => (Op.Keeps.lift _).bind fun bytes => ?_
    have hsend (t : Tx) : Op.Keeps (fun c : CompactChain Xpub => c.wallet.Keyed)
        (lib.chain.sendTransaction t) := Op.Keeps.bind (fun _ h => h) fun _ _ h => h
    exact (Op.Keeps.lift _).bind fun tx => Op.Keeps.bind (fun n h => hsend tx.1 n.chain h) fun _ => hstore

theorem keyed_run {n : Node Xpub Signer} (hn : n.chain.wallet.Keyed) (ops : List NodeOp) :
    (lib.run n ops).chain.wallet.Keyed := by
  induction ops generalizing n with
  | nil => exact hn
  | cons op ops ih => exact ih (lib.keyed_step hn op)

end SendLib

/-! ## The books -/

/-- The value of the change output, if there is one. -/
def Wallet.Excess.changeAmount : Excess → Option ℕ
  | .change amount _ => some amount
  | .noChange .. => none

theorem Wallet.WalletLib.outputs_eq (recipient changeScript : Script) (amount : ℕ) (excess : Excess) :
    WalletLib.outputs recipient changeScript amount excess
      = { scriptPubkey := recipient, value := amount }
        :: excess.changeAmount.toList.map fun v => { scriptPubkey := changeScript, value := v } := by
  cases excess with
  | change amount fee => rfl
  | noChange dust remaining fee => rfl

theorem changeAmount_excessOf_le (costs : SpendCosts) (feeRate : FeeRate) (drainScript : Script)
    (rem : ℕ) : (excessOf costs feeRate drainScript rem).changeAmount.getD 0 ≤ rem := by
  unfold excessOf
  split_ifs
  · exact Nat.zero_le _
  · exact Nat.sub_le _ _

/-- **The scan files the change of a payment**, at position one. -/
theorem newUtxosOf_payment (sha256 : List UInt8 → Bytes 32) {scripts : List Script}
    {recipient changeScript : Script} (hrecipient : recipient ∉ scripts)
    (hchange : changeScript ∈ scripts) {t : Tx} {satoshis : Int64} {change : Option ℕ}
    (houtputs : t.outputs = { satoshis, lockScript := recipient } :: change.toList.map fun v =>
      { satoshis := (UInt64.ofNat v).toInt64, lockScript := changeScript })
    (hfits : change.getD 0 < 2 ^ 64) :
    newUtxosOf sha256 scripts t.stripped = change.toList.map fun v =>
      { outpoint := { txid := txid sha256 t, vout := 1 }, amount := v, script := changeScript,
        isSpent := false } := by
  have houtputs' : t.stripped.outputs = _ := houtputs
  rw [newUtxosOf, houtputs']
  cases change with
  | none => simp [hrecipient]
  | some v =>
    have hvalue : (UInt64.ofNat v).toNat = v := UInt64.toNat_ofNat_of_lt' hfits
    simp [hrecipient, hchange, hvalue]
    rfl

/-- **What a payment changes once it is confirmed**: its coins are marked, its change is filed. -/
theorem Confirms.settles {lib : ChainLib} {w : WatchOnly Xpub} {t : Tx} {bs : List Block}
    (h : Confirms lib.sha256 w t bs) (hw : w.Keyed) {ws rest : List WeightedUtxo}
    (hsplit : w.utxos.Perm (ws ++ rest)) (hspends : t.spends = ws.map fun v => v.utxo.outpoint)
    {new : List PartialUtxo} (hnew : newUtxosOf lib.sha256 w.getPubkeys t.stripped = new)
    (hnodup : (new.map PartialUtxo.outpoint).Nodup) :
    ∃ w', WatchOnly.insertUtxos (scanBlocks lib.sha256 w.getPubkeys w.getUtxos bs) w = (.ok (), w')
      ∧ w'.getUtxos.Perm
        (new ++ ws.map WatchOnly.spentCoin ++ rest.map fun v => v.utxo.toPartial) := by
  have hsub : ws ⊆ w.utxos := fun v hv => hsplit.mem_iff.mpr (List.mem_append_left rest hv)
  have hus : ∀ u, u ∈ scanBlocks lib.sha256 w.getPubkeys w.getUtxos bs
      ↔ u ∈ new ∨ ∃ v ∈ ws, u = WatchOnly.spentCoin v := by
    intro u
    rw [h.mem_scanBlocks, hnew, h.mem_spentUtxosOf hw hsub hspends]
  have hfresh : ∀ u ∈ new, w.coin u.outpoint = none := by
    intro u hu
    rw [← hnew] at hu
    obtain ⟨i, output, -, -, rfl⟩ := mem_newUtxosOf.mp hu
    refine Option.eq_none_iff_forall_ne_some.mpr fun x hx => ?_
    refine h.fresh x (WatchOnly.mem_getUtxos.mpr ⟨_, hx⟩) ?_
    rw [hw _ x hx]
    rfl
  obtain ⟨w', hins⟩ : ∃ w', WatchOnly.insertUtxos
      (scanBlocks lib.sha256 w.getPubkeys w.getUtxos bs) w = (.ok (), w') := by
    refine WatchOnly.insertUtxos_ok fun u hu => ?_
    rcases (hus u).mp hu with hmem | ⟨v, hv, rfl⟩
    · rw [← hnew] at hmem
      obtain ⟨i, output, -, hs, rfl⟩ := mem_newUtxosOf.mp hmem
      refine .inr ?_
      rw [Std.TreeMap.getElem?_eq_some_getElem (Std.TreeMap.mem_keys.mp hs)]
      exact Option.some_ne_none _
    · refine .inl ?_
      rw [show (WatchOnly.spentCoin v).outpoint = v.utxo.outpoint from rfl, hw.coin_eq (hsub hv)]
      exact Option.some_ne_none _
  exact ⟨w', hins, WatchOnly.perm_of_reports hw hsplit hnodup hfresh hus hins⟩

namespace SendLib

variable {lib : SendLib Xpub PublicKey Signer}

/-- **The transaction of a send**: the amount to the recipient, the rest of the coins as change and
fee. -/
structure Pays (w : WatchOnly Xpub) (recipient changeScript : Script) (amount : UInt64) (t : Tx)
    (ws : List WeightedUtxo) (change : Option ℕ) (fee : ℕ) : Prop where
  coins : ws.Subperm w.utxos
  spends : t.spends = ws.map fun v => v.utxo.outpoint
  outputs : t.outputs = { satoshis := amount.toInt64, lockScript := recipient }
    :: change.toList.map fun v => { satoshis := (UInt64.ofNat v).toInt64, lockScript := changeScript }
  balanced : valueOf ws = amount.toNat + change.getD 0 + fee
  tracked : changeScript ∈ w.getPubkeys

/-- **What a send that returns `Ok` broadcasts.** -/
theorem pays_of_sendToAddress (laws : lib.TransactionLaws) {recipient : Script}
    {amount feeRate : UInt64} {rand : Rng} {n n' : Node Xpub Signer}
    (h : lib.sendToAddress recipient amount feeRate rand n = (.ok (), n')) :
    ∃ t changeScript ws change fee,
      lib.broadcasts n (.sendToAddress recipient amount feeRate rand) = [t]
      ∧ Pays n'.chain.wallet recipient changeScript amount t ws change fee
      ∧ n'.chain.wallet.utxoMap = (lib.chain.syncState n.chain).2.wallet.utxoMap := by
  obtain ⟨rate, psbt, w, ws, -, hrate, hcreate, hws, hone, hwallet⟩ := sendToAddress_eq_ok laws h
  obtain ⟨pk, cs, -, rfl, hcs, htx, -⟩ := lib.keys.createPsbtTx_eq_ok hcreate
  obtain ⟨vs, rem, hsel⟩ := coinSelect_selects hcs
  have hle := changeAmount_excessOf_le lib.keys.costs rate (lib.keys.p2wpkh pk) rem
  refine ⟨_, lib.keys.p2wpkh pk, vs, cs.excess.changeAmount,
    feesOf lib.keys.costs rate vs + (rem - cs.excess.changeAmount.getD 0), hone, ?_, ?_⟩
  · rw [hwallet]
    refine ⟨hsel.subperm, ?_, ?_, ?_, ?_⟩
    · rw [spends_withWitnesses hws, htx, WalletLib.spends_unsignedTxOf _ _ _ hsel.selected_eq]
    · change ((withWitnesses psbt.unsignedTx ws).output.map fun o => Wire.TxOut.mk _ _) = _
      rw [withWitnesses, htx, WalletLib.unsignedTxOf, WalletLib.outputs_eq, List.map_cons,
        List.map_map, UInt64.ofNat_toNat]
      rfl
    · have hbal := hsel.balanced
      rw [hsel.excess_eq]
      omega
    · rw [WatchOnly.getPubkeys, Std.TreeMap.mem_keys]
      exact Std.TreeMap.mem_insert_self
  · rw [hwallet]
    rfl

/-- The balance is read off the coins. -/
theorem balance_congr {s t : WatchOnly Xpub} (h : s.utxoMap = t.utxoMap) : s.balance = t.balance := by
  rw [WatchOnly.balance, WatchOnly.balance, WatchOnly.utxos, WatchOnly.utxos, h]

/-- **What a settled payment costs** is the amount and the fee: the coins that stay count as before, and
the change makes up for what was not sent. -/
theorem Pays.unspentValue_settled {w : WatchOnly Xpub} {recipient changeScript : Script} {amount : UInt64}
    {t : Tx} {ws rest : List WeightedUtxo} {change : Option ℕ} {fee : ℕ}
    (h : Pays w recipient changeScript amount t ws change fee) (hsplit : w.utxos.Perm (ws ++ rest))
    (hunmarked : ∀ v ∈ ws, v.utxo.isSpent = false) {o : Wallet.OutPoint} {us : List PartialUtxo}
    (hperm : us.Perm ((change.toList.map fun v =>
        { outpoint := o, amount := v, script := changeScript, isSpent := false })
      ++ ws.map WatchOnly.spentCoin ++ rest.map fun v => v.utxo.toPartial)) :
    WatchOnly.unspentValue us + amount.toNat + fee = WatchOnly.unspentValue w.getUtxos := by
  have hbefore : WatchOnly.unspentValue w.getUtxos
      = valueOf ws + WatchOnly.unspentValue (rest.map fun v => v.utxo.toPartial) := by
    rw [WatchOnly.getUtxos, WatchOnly.unspentValue_perm (hsplit.map _), List.map_append,
      WatchOnly.unspentValue_append, WatchOnly.unspentValue_of_unmarked hunmarked]
  have hchange : WatchOnly.unspentValue (change.toList.map fun v =>
      { outpoint := o, amount := v, script := changeScript, isSpent := false }) = change.getD 0 := by
    cases change with
    | none => rfl
    | some v => exact Nat.add_zero v
  have hafter : WatchOnly.unspentValue us
      = change.getD 0 + WatchOnly.unspentValue (rest.map fun v => v.utxo.toPartial) := by
    rw [WatchOnly.unspentValue_perm hperm, WatchOnly.unspentValue_append,
      WatchOnly.unspentValue_append, WatchOnly.unspentValue_spentCoin, hchange, Nat.add_zero]
  have hbalanced := h.balanced
  omega

/-- **A payment, from its send to its block.**  In any run of a node, a send that returns `Ok` has
broadcast one transaction, which pays the amount to the recipient, and has left the coins and the
balance as its sync did.  Once a call is served blocks that confirm it, none of whose coins were marked
before, the balance has gone down by the amount and the fee, and the change is among the coins — if the
recipient's script is none of the wallet's and the balances fit a `u64`. -/
theorem payment_settles (lib : SendLib Xpub PublicKey Signer) (laws : lib.TransactionLaws)
    {n₀ n' : Node Xpub Signer} (hn₀ : n₀.chain.wallet.Keyed) (ops : List NodeOp)
    {recipient : Script} {amount feeRate : UInt64} {rand : Rng}
    (hsend : lib.sendToAddress recipient amount feeRate rand (lib.run n₀ ops) = (.ok (), n')) :
    ∃ t changeScript ws change fee,
      lib.broadcasts (lib.run n₀ ops) (.sendToAddress recipient amount feeRate rand) = [t]
      ∧ Pays n'.chain.wallet recipient changeScript amount t ws change fee
      ∧ n'.chain.wallet.utxoMap = (lib.chain.syncState (lib.run n₀ ops).chain).2.wallet.utxoMap
      ∧ n'.chain.wallet.balance = (lib.chain.syncState (lib.run n₀ ops).chain).2.wallet.balance
      ∧ ∀ (c : CompactChain Xpub) (filters : List CompactFilter) (present : List Hash256)
          (bs : List Block) (p : Peer),
        c.wallet = n'.chain.wallet →
        recipient ∉ c.wallet.getPubkeys → valueOf c.wallet.utxos < 2 ^ 64 →
        lib.chain.blockhashPresent c.wallet.getPubkeys filters = .ok present → present ≠ [] →
        Peer.fetchBlocks (blockInv present) c.p2p = (.ok bs, p) →
        Confirms lib.chain.sha256 c.wallet t bs → (∀ v ∈ ws, v.utxo.isSpent = false) →
        ∃ c' b b', lib.chain.fetchAndSaveUtxos filters c = (.ok (), c')
          ∧ c.wallet.balance = .ok b ∧ c'.wallet.balance = .ok b' ∧ b' + amount.toNat + fee = b
          ∧ ∀ v ∈ change, { outpoint := { txid := txid lib.chain.sha256 t, vout := 1 }, amount := v
                            script := changeScript, isSpent := false } ∈ c'.wallet.getUtxos := by
  obtain ⟨t, changeScript, ws, change, fee, hone, hpays, hmap⟩ := pays_of_sendToAddress laws hsend
  have hkeyed : n'.chain.wallet.Keyed := by
    have hsync := @ChainLib.keeps_wallet_syncState Xpub lib.chain _
      WatchOnly.keeps_keyed_insertUtxos (lib.run n₀ ops).chain (lib.keyed_run hn₀ ops)
    intro o u hu
    rw [WatchOnly.coin, hmap] at hu
    exact hsync o u hu
  refine ⟨t, changeScript, ws, change, fee, hone, hpays, hmap, balance_congr hmap, ?_⟩
  intro c filters present bs p hwallet hrecipient hsupply hpresent hne hget hconfirms hunmarked
  rw [← hwallet] at hpays hkeyed
  obtain ⟨rest, hsplit⟩ := WatchOnly.exists_perm_of_subperm hpays.coins
  have hbalanced := hpays.balanced
  have hle := valueOf_le_of_subperm hpays.coins
  have hnew := newUtxosOf_payment lib.chain.sha256 hrecipient hpays.tracked hpays.outputs (by omega)
  obtain ⟨w', hins, hperm⟩ := hconfirms.settles hkeyed hsplit hpays.spends hnew (by
    cases change <;> simp)
  have hcost := hpays.unspentValue_settled hsplit hunmarked hperm
  have hfits : WatchOnly.unspentValue c.wallet.getUtxos < 2 ^ 64 :=
    (WatchOnly.unspentValue_le c.wallet.utxos).trans_lt hsupply
  refine ⟨{ c with p2p := p, wallet := w' }, WatchOnly.unspentValue c.wallet.getUtxos,
    WatchOnly.unspentValue w'.getUtxos, ChainLib.fetchAndSaveUtxos_of_served hpresent hne hget hins,
    WatchOnly.balance_eq_ok_iff.mpr ⟨hfits, rfl⟩, WatchOnly.balance_eq_ok_iff.mpr ⟨?_, rfl⟩, ?_,
    fun v hv => hperm.mem_iff.mpr ?_⟩
  · change WatchOnly.unspentValue w'.getUtxos < 2 ^ 64
    omega
  · omega
  · refine List.mem_append_left _ (List.mem_append_left _ (List.mem_map.mpr ⟨v, ?_, rfl⟩))
    exact Option.mem_toList.mpr hv

end SendLib

/-! ## A payment with change -/

section WithChange

/-- Forty thousand satoshis are sent from a wallet with two coins. -/
def changeSend : NodeOp := .sendToAddress [0x51] 40000 1 fun _ => 0

/-- The node after it. -/
def paidNode : Node (List UInt32) Unit :=
  signingLib.step (signingLib.run newNode [.getReceiveAddress]) changeSend

/-- The transaction it has broadcast. -/
def changeTx : Tx :=
  ((signingLib.broadcasts (signingLib.run newNode [.getReceiveAddress]) changeSend).head?).getD default

/-- The block with that. -/
def confirmingBlock : Block :=
  { header := { (default : BlockHeader) with version := 3 }, txns := [changeTx.stripped] }

/-- The chain, with a peer that serves the block. -/
def confirmingChain : CompactChain (List UInt32) :=
  { paidNode.chain with p2p := servingPeer [confirmingBlock] }

/-- Of 150084 satoshis, what is not sent or paid as a fee is left; the send itself leaves them all. -/
theorem payment_settles_changeSend :
    (signingLib.chain.syncState (signingLib.run newNode [.getReceiveAddress]).chain).2.wallet.balance
        = .ok 150084
      ∧ ∃ c' b' fee,
        headLib.fetchAndSaveUtxos (filtersOf [confirmingBlock]) confirmingChain = (.ok (), c')
        ∧ confirmingChain.wallet.balance = .ok 150084 ∧ c'.wallet.balance = .ok b'
        ∧ b' + 40000 + fee = 150084 := by
  have hok : (signingLib.sendToAddress [0x51] 40000 1 (fun _ => 0)
      (signingLib.run newNode [.getReceiveAddress])).1 = .ok () := by decide +kernel
  have hkeyed : newNode.chain.wallet.Keyed := by
    intro o u hu
    rw [WatchOnly.coin] at hu
    simp [newNode, WatchOnly.new] at hu
  obtain ⟨t, changeScript, ws, change, fee, hone, hpays, -, hsame, hsettles⟩ :=
    SendLib.payment_settles signingLib signingLib_laws hkeyed [.getReceiveAddress] (Op.eq_of_fst hok)
  have ht : t = changeTx := by
    rw [changeTx, changeSend, hone]
    rfl
  have hunmarked : ∀ v ∈ paidNode.chain.wallet.utxos, v.utxo.isSpent = false := by decide +kernel
  have hconfirms : Confirms headHash confirmingChain.wallet changeTx [confirmingBlock] :=
    ⟨⟨[], [], by decide +kernel, fun _ h => absurd h List.not_mem_nil⟩, by decide +kernel,
      by decide +kernel⟩
  have hserved : (Peer.fetchBlocks (blockInv [blockHash headHash confirmingBlock])
      confirmingChain.p2p).1 = .ok [confirmingBlock] := by decide +kernel
  rw [ht] at hsettles
  obtain ⟨c', b, b', hcall, hb, hb', hbooks, -⟩ := hsettles confirmingChain
    (filtersOf [confirmingBlock]) [blockHash headHash confirmingBlock] [confirmingBlock] _ rfl
    (by decide +kernel) (by decide +kernel) (by decide +kernel) (List.cons_ne_nil _ _)
    (Op.eq_of_fst hserved) hconfirms (fun v hv => hunmarked v (hpays.coins.subset hv))
  have hbalance : confirmingChain.wallet.balance = .ok 150084 := by decide +kernel
  obtain rfl : b = 150084 := Except.ok.inj (hb.symm.trans hbalance)
  exact ⟨hsame.symm.trans hbalance, c', b', fee, hcall, hbalance, hb', hbooks⟩

end WithChange

end Bitspend
