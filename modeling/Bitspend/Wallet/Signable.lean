import Bitspend.Wallet.Runs

/-!
# Wallet/Signable — which scripts the wallet can sign for

The wallet records with each script the keychain and the index of its key, and later derives the
key from that record.  `get_receive_address` records what it derived.  `get_change_script` derives
the change key of index `change_depth` and records *external* and `receive_depth`, the place of a
receive key.  Hence the dichotomy of this module: the records are right in exactly the wallets that
were never asked for a transaction.
-/

namespace Bitspend.Wallet

open Std

variable {Xpub PublicKey : Type}

namespace WalletLib

/-- The script of the account's key at a keychain and an index. -/
def scriptAt (lib : WalletLib Xpub PublicKey) (accountXpub : Xpub) (kind : KeychainKind)
    (index : UInt32) : Outcome Error Script :=
  lib.p2wpkh <$> lib.childPub accountXpub kind.asU32 index

/-- **Derivation and scripts, taken as injective functions.** -/
structure DerivationLaws (lib : WalletLib Xpub PublicKey) : Prop where
  ckdPub_ok : ∀ x i, ∃ y, lib.ckdPub x i = .ok y
  ckdPub_injective : ∀ x i x' i' y, lib.ckdPub x i = .ok y → lib.ckdPub x' i' = .ok y →
    x = x' ∧ i = i'
  p2wpkh_injective : ∀ x y, lib.p2wpkh (lib.toPub x) = lib.p2wpkh (lib.toPub y) → x = y

/-- **Every record leads back to its script**: of the scripts handed out, and of the coins. -/
structure Signable (lib : WalletLib Xpub PublicKey) (s : WatchOnly Xpub) : Prop where
  pubkeys : ∀ (script : Script) (d : PubkeyDetails), s.pubkeyMap[script]? = some d →
    lib.scriptAt s.accountXpub d.keyType d.keyDepth = .ok script
  utxos : ∀ (o : OutPoint) (w : WeightedUtxo), s.utxoMap[o]? = some w →
    lib.scriptAt s.accountXpub w.utxo.keychain w.utxo.derivationIndex
      = .ok w.utxo.txout.scriptPubkey

/-- **A PSBT can be signed**: input by input, it shows the output being spent and a key whose script
is that output's. -/
def PsbtSignable (lib : WalletLib Xpub PublicKey) (s : WatchOnly Xpub) (psbt : Psbt PublicKey) :
    Prop :=
  psbt.inputs.length = psbt.unsignedTx.input.length
    ∧ ∀ (i : ℕ) (txin : TxIn), psbt.unsignedTx.input[i]? = some txin →
      ∃ w input key source, s.utxoMap[txin.previousOutput]? = some w
        ∧ psbt.inputs[i]? = some input ∧ input.witnessUtxo = some w.utxo.txout
        ∧ input.bip32Derivation = [(key, source)]
        ∧ lib.p2wpkh key = w.utxo.txout.scriptPubkey

section Derivation

variable {lib : WalletLib Xpub PublicKey}

theorem scriptAt_eq_ok {x : Xpub} {kind : KeychainKind} {index : UInt32} {script : Script} :
    lib.scriptAt x kind index = .ok script
      ↔ ∃ pk, lib.childPub x kind.asU32 index = .ok pk ∧ lib.p2wpkh pk = script := by
  unfold scriptAt
  rcases lib.childPub x kind.asU32 index with e | pk <;> simp [Functor.map, Except.map]

/-- **Different places, different scripts.** -/
theorem DerivationLaws.scriptAt_injective (laws : lib.DerivationLaws) {x : Xpub}
    {kind kind' : KeychainKind} {index index' : UInt32} {script : Script}
    (h : lib.scriptAt x kind index = .ok script) (h' : lib.scriptAt x kind' index' = .ok script) :
    kind = kind' ∧ index = index' := by
  obtain ⟨pk, hpk, hscript⟩ := scriptAt_eq_ok.mp h
  obtain ⟨pk', hpk', hscript'⟩ := scriptAt_eq_ok.mp h'
  obtain ⟨y, z, hy, hz, rfl⟩ := childPub_eq_ok.mp hpk
  obtain ⟨y', z', hy', hz', rfl⟩ := childPub_eq_ok.mp hpk'
  obtain rfl := laws.p2wpkh_injective z z' (hscript.trans hscript'.symm)
  obtain ⟨rfl, rfl⟩ := laws.ckdPub_injective _ _ _ _ _ hz hz'
  obtain ⟨-, hkind⟩ := laws.ckdPub_injective _ _ _ _ _ hy hy'
  refine ⟨?_, rfl⟩
  cases kind <;> cases kind' <;> first | rfl | exact absurd hkind (by decide)

end Derivation

/-! ## Without change, every record is right -/

section Sound

variable {lib : WalletLib Xpub PublicKey}

/-- **Every call but `create_psbt_tx` keeps the records right.** -/
theorem Signable.step {s : WatchOnly Xpub} (hs : lib.Signable s) {op : WalletOp}
    (hop : ∀ r f a rand, op ≠ .createPsbtTx r f a rand) : lib.Signable (lib.step s op) := by
  refine lib.step_keeps ?_ ?_ ?_ op ?_ hs
  · intro s u w hs hw
    refine ⟨hs.pubkeys, fun o v hv => ?_⟩
    rw [WatchOnly.getElem?_record] at hv
    split at hv
    · cases hv
      exact hs.utxos _ w hw
    · exact hs.utxos o v hv
  · intro s u d hs _ hd
    refine ⟨hs.pubkeys, fun o v hv => ?_⟩
    rw [WatchOnly.getElem?_record] at hv
    split at hv
    · cases hv
      exact hs.pubkeys _ d hd
    · exact hs.utxos o v hv
  · intro s pk hs hpk
    refine ⟨fun script d hd => ?_, hs.utxos⟩
    rw [WatchOnly.getElem?_track] at hd
    split at hd
    · rename_i heq
      cases hd
      exact scriptAt_eq_ok.mpr ⟨pk, hpk, heq⟩
    · exact hs.pubkeys script d hd
  · rintro ⟨r, f, a, rand, rfl⟩
    exact absurd rfl (hop r f a rand)

/-- **A PSBT from right records can be signed.** -/
theorem Signable.psbtSignable {s t : WatchOnly Xpub} (hs : lib.Signable s) (hfiled : s.Filed)
    {recipient : Script} {feeRate : FeeRate} {amount : ℕ} {rand : Rng} {psbt : Psbt PublicKey}
    (h : lib.createPsbtTx recipient feeRate amount rand s = (.ok psbt, t)) :
    lib.PsbtSignable s psbt := by
  obtain ⟨pk, cs, -, rfl, hcs, htx, hinputs⟩ := lib.createPsbtTx_eq_ok h
  obtain ⟨ws, rem, hsel⟩ := coinSelect_selects hcs
  refine ⟨?_, fun i txin htxin => ?_⟩
  · rw [htx, ← (Outcome.forall₂_of_mapM_eq_ok hinputs).length_eq]
    simp [unsignedTxOf]
  · -- the input spends a stored coin, and its PSBT input was derived for the same coin
    rw [htx] at htxin
    simp only [unsignedTxOf, List.getElem?_map, Option.map_eq_some_iff] at htxin
    obtain ⟨u, hu, rfl⟩ := htxin
    obtain ⟨w, hw, rfl⟩ : ∃ w ∈ ws, w.utxo = u := by
      have hmem := List.mem_of_getElem? hu
      rw [hsel.selected_eq] at hmem
      simpa using hmem
    obtain ⟨o, ho⟩ := WatchOnly.mem_utxos.mp (hsel.subperm.subset hw)
    obtain ⟨rfl, -⟩ := hfiled o w ho
    obtain ⟨input, hinput, hderived⟩ := Outcome.getElem?_of_mapM_eq_ok hinputs hu
    obtain ⟨key, hkey, hpure⟩ := Outcome.bind_eq_ok.mp hderived
    cases hpure
    obtain ⟨key', hkey', hscript⟩ := scriptAt_eq_ok.mp (hs.utxos _ w ho)
    obtain rfl : key = key' := Except.ok.inj (hkey.symm.trans hkey')
    exact ⟨w, _, key, _, ho, hinput, rfl, rfl, hscript⟩

end Sound

/-! ## One transaction leaves a wrong record for good -/

section Tainted

variable {lib : WalletLib Xpub PublicKey}

/-- **A change script on record as the first receive script.** -/
def Tainted (lib : WalletLib Xpub PublicKey) (s : WatchOnly Xpub) : Prop :=
  s.receiveDepth = 0 ∧ ∃ index script, lib.scriptAt s.accountXpub .internal index = .ok script
    ∧ s.pubkeyMap[script]? = some { keyType := .external, keyDepth := 0 }

theorem Tainted.not_signable (laws : lib.DerivationLaws) {s : WatchOnly Xpub} (h : lib.Tainted s) :
    ¬ lib.Signable s := by
  rintro ⟨hpubkeys, -⟩
  obtain ⟨-, index, script, hscript, hrecord⟩ := h
  have := laws.scriptAt_injective hscript (hpubkeys script _ hrecord)
  exact absurd this.1 (by decide)

/-- The receive key never advances. -/
theorem receiveDepth_step {s : WatchOnly Xpub} (hs : s.receiveDepth = 0) (op : WalletOp) :
    (lib.step s op).receiveDepth = 0 :=
  lib.step_keeps (P := fun s => s.receiveDepth = 0) (fun _ _ _ h _ => h) (fun _ _ _ h _ _ => h)
    (fun _ _ h _ => h) op (fun _ _ _ h _ => h) hs

/-- A wrong record stays: the scripts recorded later are others, or are recorded wrong again. -/
theorem Tainted.step (laws : lib.DerivationLaws) {s : WatchOnly Xpub} (h : lib.Tainted s)
    (op : WalletOp) : lib.Tainted (lib.step s op) := by
  refine lib.step_keeps ?_ ?_ ?_ op ?_ h
  · exact fun s u w h _ => h
  · exact fun s u d h _ _ => h
  · rintro s pk ⟨hdepth, index, script, hscript, hrecord⟩ hpk
    refine ⟨hdepth, index, script, hscript, ?_⟩
    rw [WatchOnly.getElem?_track, if_neg, hrecord]
    rintro rfl
    have hpk : lib.scriptAt _ .external _ = .ok _ := scriptAt_eq_ok.mpr ⟨pk, hpk, rfl⟩
    exact absurd (laws.scriptAt_injective hscript hpk).1 (by decide)
  · rintro - s pk ⟨hdepth, index, script, hscript, hrecord⟩ hpk
    refine ⟨hdepth, index, script, hscript, ?_⟩
    rw [afterChangeScript, WatchOnly.getElem?_track]
    split
    · rw [← hdepth]
    · exact hrecord

theorem tainted_of_createPsbtTx (laws : lib.DerivationLaws) {s : WatchOnly Xpub}
    (hdepth : s.receiveDepth = 0) (r : Script) (f : FeeRate) (a : ℕ) (rand : Rng) :
    lib.Tainted (lib.step s (.createPsbtTx r f a rand)) := by
  obtain ⟨pk, hpk⟩ := childPub_ok laws.ckdPub_ok s.accountXpub 1 s.changeDepth
  rw [step, snd_createPsbtTx]
  obtain ⟨pk', hpk', h⟩ | ⟨e, he, -⟩ := lib.getChangeScript_cases s
  · rw [h]
    refine ⟨hdepth, s.changeDepth, lib.p2wpkh pk', scriptAt_eq_ok.mpr ⟨pk', hpk', rfl⟩, ?_⟩
    rw [afterChangeScript, WatchOnly.getElem?_track, if_pos rfl, ← hdepth]
  · rw [hpk] at he
    cases he

end Tainted

/-- **The wallet can sign for everything it tracks exactly when it was never asked for a
transaction.** -/
theorem signable_run_iff (lib : WalletLib Xpub PublicKey) (laws : lib.DerivationLaws)
    (accountXpub : Xpub) (network : Network) (accountDerivation : DerivationPath)
    (masterFingerprint : Bytes 4) (ops : List WalletOp) (s : WatchOnly Xpub)
    (hs : s = lib.run ops
      (WatchOnly.new accountXpub network accountDerivation masterFingerprint)) :
    (lib.Signable s ∧ ∀ recipient feeRate amount rand psbt t,
        lib.createPsbtTx recipient feeRate amount rand s = (.ok psbt, t) → lib.PsbtSignable s psbt)
      ↔ ∀ op ∈ ops, ∀ r f a rand, op ≠ .createPsbtTx r f a rand := by
  constructor
  · rintro ⟨hsign, -⟩ op hop r f a rand rfl
    obtain ⟨before, after, rfl⟩ := List.append_of_mem hop
    refine Tainted.not_signable laws ?_ (hs ▸ hsign)
    rw [run, List.foldl_append, List.foldl_cons]
    refine lib.run_keeps (fun op _ t ht => ht.step laws op) (tainted_of_createPsbtTx laws ?_ r f a rand)
    exact lib.run_keeps (P := fun t => t.receiveDepth = 0)
      (fun op _ t ht => receiveDepth_step ht op) rfl
  · intro hops
    have hsign : lib.Signable s := by
      rw [hs]
      refine lib.run_keeps (fun op hop t ht => ht.step (hops op hop)) ⟨?_, ?_⟩ <;>
        simp [WatchOnly.new]
    refine ⟨hsign, fun recipient feeRate amount rand psbt t h => ?_⟩
    exact hsign.psbtSignable (filed_of_reachable ⟨_, _, _, _, ops, hs⟩) h

end WalletLib

/-! ## A wallet whose keys are their paths -/

/-- Keys are the paths they were derived along; a script spells out its path. -/
def pathLib : WalletLib (List UInt32) (List UInt32) where
  costs := sampleCosts
  sorter := .insertion _
  ckdPub path i := .ok (path ++ [i])
  toPub path := path
  p2wpkh path := 0 :: 20 :: (List.replicate 12 9 ++ path.flatMap u32LE)
  address path _ := "bc1q" ++ String.join (path.map toString)

theorem pathLib_laws : pathLib.DerivationLaws where
  ckdPub_ok x i := ⟨x ++ [i], rfl⟩
  ckdPub_injective x i x' i' y h h' := by
    have heq : x ++ [i] = x' ++ [i'] := Except.ok.inj (h.trans h'.symm)
    simpa using heq
  p2wpkh_injective x y h := by
    have hbytes : x.flatMap u32LE = y.flatMap u32LE := by simpa [pathLib] using h
    exact flatMap_u32LE_injective hbytes

/-- A receive address and a coin for it. -/
def receiveOps : List WalletOp :=
  [.getReceiveAddress, .insertUtxos
    [{ outpoint := default, amount := 100000, script := pathLib.p2wpkh [0, 0], isSpent := false }]]

/-- So far the wallet can sign, and so can the signer every PSBT it makes next. -/
theorem signable_run_receiveOps :
    pathLib.Signable (pathLib.run receiveOps (WatchOnly.new [] .bitcoin [] default))
      ∧ ∀ recipient feeRate amount rand psbt t,
        pathLib.createPsbtTx recipient feeRate amount rand
          (pathLib.run receiveOps (WatchOnly.new [] .bitcoin [] default)) = (.ok psbt, t) →
            pathLib.PsbtSignable (pathLib.run receiveOps (WatchOnly.new [] .bitcoin [] default)) psbt := by
  refine (WalletLib.signable_run_iff pathLib pathLib_laws [] .bitcoin [] default _ _ rfl).mpr ?_
  simp [receiveOps]

/-- **Asking for a transaction records the change script as a receive script.** -/
theorem not_signable_of_createPsbtTx :
    ¬ ∀ s, pathLib.Reachable s → pathLib.Signable s := by
  intro h
  have hsign := h _ ⟨[], .bitcoin, [], default,
    receiveOps ++ [.createPsbtTx (pathLib.p2wpkh [7, 7]) ⟨750⟩ 1000 fun _ => 0], rfl⟩
  have hwrong := hsign.pubkeys (pathLib.p2wpkh [1, 0]) { keyType := .external, keyDepth := 0 }
    (by decide +kernel)
  exact absurd hwrong (by decide +kernel)

end Bitspend.Wallet
