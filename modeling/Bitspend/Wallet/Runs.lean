import Bitspend.Wallet.SelectionSound
import Bitspend.Wallet.WatchOnly

/-!
# Wallet/Runs — what each wallet call does, and what a run of calls keeps

One lemma for each operation says everything it can do to the wallet.  A **run** is any sequence of
calls, failed ones included, from a new wallet; `Filed` is what every run keeps: each coin is
stored under its own outpoint, so a transaction that spends stored coins spends distinct ones.
-/

namespace Bitspend.Wallet

open Std

variable {Xpub PublicKey : Type}

/-! ## The maps -/

namespace WatchOnly

@[simp] theorem getElem?_record (o : OutPoint) (w : WeightedUtxo) (s : WatchOnly Xpub)
    (o' : OutPoint) : (s.record o w).utxoMap[o']? = if o = o' then some w else s.utxoMap[o']? := by
  simp [record, TreeMap.getElem?_insert]

@[simp] theorem getElem?_track (script : Script) (d : PubkeyDetails) (s : WatchOnly Xpub)
    (script' : Script) :
    (s.track script d).pubkeyMap[script']? = if script = script' then some d
      else s.pubkeyMap[script']? := by
  simp [track, TreeMap.getElem?_insert]

@[simp] theorem pubkeyMap_record (o : OutPoint) (w : WeightedUtxo) (s : WatchOnly Xpub) :
    (s.record o w).pubkeyMap = s.pubkeyMap := rfl

@[simp] theorem utxoMap_track (script : Script) (d : PubkeyDetails) (s : WatchOnly Xpub) :
    (s.track script d).utxoMap = s.utxoMap := rfl

theorem mem_utxos {s : WatchOnly Xpub} {w : WeightedUtxo} :
    w ∈ s.utxos ↔ ∃ o : OutPoint, s.utxoMap[o]? = some w := by
  simp [utxos, TreeMap.mem_toList_iff_getElem?_eq_some]

/-- What one reported coin changes: a known coin gets the reported flag, and a coin with a tracked
script is filed. -/
theorem insertUtxo_cases (u : PartialUtxo) (s : WatchOnly Xpub) :
    (∃ w, s.utxoMap[u.outpoint]? = some w
      ∧ insertUtxo u s = (.ok (), s.record u.outpoint (markUtxo w u)))
    ∨ (∃ d, s.utxoMap[u.outpoint]? = none ∧ s.pubkeyMap[u.script]? = some d
      ∧ insertUtxo u s = (.ok (), s.record u.outpoint (newUtxo u d)))
    ∨ (s.utxoMap[u.outpoint]? = none ∧ s.pubkeyMap[u.script]? = none
      ∧ insertUtxo u s = (.error (.error .noPubKey), s)) := by
  rcases hu : s.utxoMap[u.outpoint]? with _ | w
  · have hstart : insertUtxo u s = ((Op.ask fun s => Outcome.okOr .noPubKey s.pubkeyMap[u.script]?)
        >>= fun d => Op.update (record u.outpoint (newUtxo u d))) s := by
      rw [insertUtxo, Op.bind_apply]
      simp only [Op.ask, hu]
      rfl
    rcases hs : s.pubkeyMap[u.script]? with _ | d
    · refine .inr (.inr ⟨rfl, rfl, hstart.trans (Op.ask_bind_of_error ?_)⟩)
      rw [hs]
      rfl
    · refine .inr (.inl ⟨d, rfl, rfl, hstart.trans (Op.ask_bind_of_ok ?_)⟩)
      rw [hs]
      rfl
  · refine .inl ⟨w, rfl, ?_⟩
    rw [insertUtxo, Op.bind_apply]
    simp only [Op.ask, hu]
    rfl

end WatchOnly

/-! ## What each call does -/

namespace WalletLib

section Derivation

variable {lib : WalletLib Xpub PublicKey}

theorem childPub_eq_ok {x : Xpub} {chain index : UInt32} {pk : PublicKey} :
    lib.childPub x chain index = .ok pk
      ↔ ∃ y z, lib.ckdPub x chain = .ok y ∧ lib.ckdPub y index = .ok z ∧ pk = lib.toPub z := by
  unfold childPub
  rcases h : lib.ckdPub x chain with e | y
  · simp [Except.mapError]
  · rcases h' : lib.ckdPub y index with e | z
    · simp [Except.mapError, h']
    · simp [Except.mapError, h', pure, Except.pure, eq_comm]

theorem childPub_ok (hckd : ∀ x i, ∃ y, lib.ckdPub x i = .ok y) (x : Xpub)
    (chain index : UInt32) : ∃ pk, lib.childPub x chain index = .ok pk := by
  obtain ⟨y, hy⟩ := hckd x chain
  obtain ⟨z, hz⟩ := hckd y index
  exact ⟨lib.toPub z, childPub_eq_ok.mpr ⟨y, z, hy, hz, rfl⟩⟩

end Derivation

variable (lib : WalletLib Xpub PublicKey)

theorem getReceiveAddress_cases (s : WatchOnly Xpub) :
    (∃ pk, lib.childPub s.accountXpub 0 s.receiveDepth = .ok pk
      ∧ lib.getReceiveAddress s = (.ok (lib.address pk s.network),
          s.track (lib.p2wpkh pk) { keyType := .external, keyDepth := s.receiveDepth }))
    ∨ ∃ e, lib.childPub s.accountXpub 0 s.receiveDepth = .error e
      ∧ lib.getReceiveAddress s = (.error e, s) := by
  rcases h : lib.childPub s.accountXpub 0 s.receiveDepth with e | pk
  · exact .inr ⟨e, rfl, Op.ask_bind_of_error h⟩
  · exact .inl ⟨pk, rfl, Op.ask_bind_of_ok h⟩

/-- The wallet after a change script has been handed out. -/
def afterChangeScript (script : Script) (s : WatchOnly Xpub) : WatchOnly Xpub :=
  { s with changeDepth := s.changeDepth + 1 }.track script
    { keyType := .external, keyDepth := s.receiveDepth }

theorem getChangeScript_cases (s : WatchOnly Xpub) :
    (∃ pk, lib.childPub s.accountXpub 1 s.changeDepth = .ok pk
      ∧ lib.getChangeScript s = (.ok (lib.p2wpkh pk), afterChangeScript (lib.p2wpkh pk) s))
    ∨ ∃ e, lib.childPub s.accountXpub 1 s.changeDepth = .error e
      ∧ lib.getChangeScript s = (.error e, s) := by
  rcases h : lib.childPub s.accountXpub 1 s.changeDepth with e | pk
  · exact .inr ⟨e, rfl, Op.ask_bind_of_error h⟩
  · exact .inl ⟨pk, rfl, Op.ask_bind_of_ok h⟩

/-- **Creating a PSBT changes nothing after the change script.** -/
theorem snd_createPsbtTx (recipient : Script) (feeRate : FeeRate) (amount : ℕ) (rand : Rng)
    (s : WatchOnly Xpub) :
    (lib.createPsbtTx recipient feeRate amount rand s).2 = (lib.getChangeScript s).2 := by
  rw [createPsbtTx, Op.bind_apply]
  rcases lib.getChangeScript s with ⟨_ | changeScript, t⟩
  · rfl
  · refine Op.Keeps.bind (P := (· = t)) (Op.Keeps.ask _) (fun _ => ?_) t rfl
    refine Op.Keeps.bind (Op.Keeps.lift _) fun _ => ?_
    exact Op.Keeps.bind (Op.Keeps.ask _) fun _ => Op.Keeps.pure _

/-- The transaction built from a selection. -/
def unsignedTxOf (recipient changeScript : Script) (amount : ℕ) (cs : CoinSelectionResult) :
    Transaction :=
  { version := 2
    lockTime := 0
    input := cs.selected.map unsignedInput
    output := outputs recipient changeScript amount cs.excess }

/-- **What a returned PSBT is made of**: a change script, a selection from the stored coins, and
the inputs derived for it. -/
theorem createPsbtTx_eq_ok {recipient : Script} {feeRate : FeeRate} {amount : ℕ} {rand : Rng}
    {s t : WatchOnly Xpub} {psbt : Psbt PublicKey}
    (h : lib.createPsbtTx recipient feeRate amount rand s = (.ok psbt, t)) :
    ∃ pk cs, lib.childPub s.accountXpub 1 s.changeDepth = .ok pk
      ∧ t = afterChangeScript (lib.p2wpkh pk) s
      ∧ defaultCoinSelectionAlgorithm lib.costs lib.sorter [] s.utxos feeRate amount
          (lib.p2wpkh pk) rand = .ok cs
      ∧ psbt.unsignedTx = unsignedTxOf recipient (lib.p2wpkh pk) amount cs
      ∧ cs.selected.mapM (lib.psbtInput t) = .ok psbt.inputs := by
  obtain ⟨changeScript, t₁, hchange, h₁⟩ := Op.bind_eq_ok.mp h
  obtain ⟨cs, t₂, hask, h₂⟩ := Op.bind_eq_ok.mp h₁
  obtain ⟨hcs, rfl⟩ := Op.ask_eq_ok.mp hask
  obtain ⟨psbt₀, t₃, hlift, h₃⟩ := Op.bind_eq_ok.mp h₂
  obtain ⟨hpsbt, rfl⟩ := Op.lift_eq_ok.mp hlift
  obtain ⟨inputs, t₄, hread, h₄⟩ := Op.bind_eq_ok.mp h₃
  obtain ⟨hinputs, rfl⟩ := Op.ask_eq_ok.mp hread
  obtain ⟨rfl, rfl⟩ := Op.pure_eq_ok.mp h₄
  obtain ⟨pk, hpk, hget⟩ | ⟨e, -, hget⟩ := lib.getChangeScript_cases s
  · rw [hget] at hchange
    cases hchange
    refine ⟨pk, cs, hpk, rfl, Outcome.mapErr_eq_ok.mp hcs, ?_, hinputs⟩
    -- the unsigned inputs pass the checks of `from_unsigned_tx`, which keeps the transaction
    have htx := Outcome.mapErr_eq_ok.mp hpsbt
    obtain ⟨-, -, hpure⟩ := Outcome.bind_eq_ok.mp htx
    cases hpure
    rfl
  · rw [hget] at hchange
    cases hchange

end WalletLib

/-! ## Runs -/

/-- A call of the wallet. -/
inductive WalletOp where
  | insertUtxos (us : List PartialUtxo)
  | getReceiveAddress
  | createPsbtTx (recipient : Script) (feeRate : FeeRate) (amount : ℕ) (rand : Rng)

namespace WalletLib

variable (lib : WalletLib Xpub PublicKey)

/-- The wallet after a call, however it ended. -/
def step (s : WatchOnly Xpub) : WalletOp → WatchOnly Xpub
  | .insertUtxos us => (WatchOnly.insertUtxos us s).2
  | .getReceiveAddress => (lib.getReceiveAddress s).2
  | .createPsbtTx recipient feeRate amount rand =>
    (lib.createPsbtTx recipient feeRate amount rand s).2

/-- The wallet after a sequence of calls. -/
def run (ops : List WalletOp) (s : WatchOnly Xpub) : WatchOnly Xpub := ops.foldl lib.step s

/-- **The wallets that a sequence of calls can lead to**, from a new one. -/
def Reachable (s : WatchOnly Xpub) : Prop :=
  ∃ accountXpub network accountDerivation masterFingerprint ops,
    s = lib.run ops (WatchOnly.new accountXpub network accountDerivation masterFingerprint)

/-- **The invariant rule**: what recording a reported coin, handing out a receive script and handing
out a change script preserve, every call preserves. -/
theorem step_keeps {P : WatchOnly Xpub → Prop}
    (hmark : ∀ s u w, P s → s.utxoMap[u.outpoint]? = some w →
      P (s.record u.outpoint (WatchOnly.markUtxo w u)))
    (hnew : ∀ s u d, P s → s.utxoMap[u.outpoint]? = none → s.pubkeyMap[u.script]? = some d →
      P (s.record u.outpoint (WatchOnly.newUtxo u d)))
    (hreceive : ∀ s pk, P s → lib.childPub s.accountXpub 0 s.receiveDepth = .ok pk →
      P (s.track (lib.p2wpkh pk) { keyType := .external, keyDepth := s.receiveDepth }))
    (op : WalletOp)
    (hchange : (∃ r f a rand, op = .createPsbtTx r f a rand) → ∀ s pk, P s →
      lib.childPub s.accountXpub 1 s.changeDepth = .ok pk →
      P (afterChangeScript (lib.p2wpkh pk) s))
    {s : WatchOnly Xpub} (hs : P s) : P (lib.step s op) := by
  cases op with
  | insertUtxos us =>
    refine Op.Keeps.forM (fun u _ t ht => ?_) s hs
    obtain ⟨w, hw, h⟩ | ⟨d, hu, hd, h⟩ | ⟨-, -, h⟩ := WatchOnly.insertUtxo_cases u t <;> rw [h]
    · exact hmark t u w ht hw
    · exact hnew t u d ht hu hd
    · exact ht
  | getReceiveAddress =>
    rw [step]
    obtain ⟨pk, hpk, h⟩ | ⟨e, -, h⟩ := lib.getReceiveAddress_cases s <;> rw [h]
    · exact hreceive s pk hs hpk
    · exact hs
  | createPsbtTx recipient feeRate amount rand =>
    rw [step, snd_createPsbtTx]
    obtain ⟨pk, hpk, h⟩ | ⟨e, -, h⟩ := lib.getChangeScript_cases s <;> rw [h]
    · exact hchange ⟨_, _, _, _, rfl⟩ s pk hs hpk
    · exact hs

/-- …and so does every run. -/
theorem run_keeps {P : WatchOnly Xpub → Prop} {ops : List WalletOp}
    (hstep : ∀ op ∈ ops, ∀ s, P s → P (lib.step s op)) {s : WatchOnly Xpub} (hs : P s) :
    P (lib.run ops s) := by
  induction ops generalizing s with
  | nil => exact hs
  | cons op ops ih =>
    exact ih (fun op' h => hstep op' (List.mem_cons_of_mem op h)) (hstep op List.mem_cons_self s hs)

end WalletLib

/-! ## Coins under their own outpoints -/

/-- **Every coin is stored under its own outpoint**, and without a satisfaction weight. -/
def WatchOnly.Filed (s : WatchOnly Xpub) : Prop :=
  ∀ (o : OutPoint) (w : WeightedUtxo), s.utxoMap[o]? = some w →
    w.utxo.outpoint = o ∧ w.satisfactionWeight = 0

namespace WalletLib

variable {lib : WalletLib Xpub PublicKey}

theorem filed_of_reachable {s : WatchOnly Xpub} (hs : lib.Reachable s) : s.Filed := by
  obtain ⟨x, n, d, f, ops, rfl⟩ := hs
  refine lib.run_keeps (fun op _ s hs => lib.step_keeps ?_ ?_ ?_ op ?_ hs) ?_
  · intro s u w hs hw o v hv
    rw [WatchOnly.getElem?_record] at hv
    split at hv
    · cases hv
      rename_i heq
      rw [← heq]
      exact hs _ w hw
    · exact hs o v hv
  · intro s u d hs _ _ o v hv
    rw [WatchOnly.getElem?_record] at hv
    split at hv
    · cases hv
      rename_i heq
      exact ⟨heq, rfl⟩
    · exact hs o v hv
  · intro s pk hs _
    exact hs
  · intro _ s pk hs _
    exact hs
  · intro o w hw
    simp [WatchOnly.new] at hw

end WalletLib

namespace WatchOnly

variable {s : WatchOnly Xpub}

/-- The outpoints of the stored coins are the keys of the map, in order. -/
theorem map_outpoint_utxos
    (hs : ∀ (o : OutPoint) (w : WeightedUtxo), s.utxoMap[o]? = some w → w.utxo.outpoint = o) :
    s.utxos.map (fun w => w.utxo.outpoint) = s.utxoMap.keys := by
  rw [WatchOnly.utxos, List.map_map, ← TreeMap.map_fst_toList_eq_keys]
  refine List.map_congr_left fun p hp => ?_
  exact hs p.1 p.2 (TreeMap.mem_toList_iff_getElem?_eq_some.mp hp)

theorem nodup_outpoints
    (hs : ∀ (o : OutPoint) (w : WeightedUtxo), s.utxoMap[o]? = some w → w.utxo.outpoint = o) :
    (s.utxos.map fun w => w.utxo.outpoint).Nodup := by
  rw [map_outpoint_utxos hs]
  exact TreeMap.nodup_keys

end WatchOnly

end Bitspend.Wallet
