import Bitspend.Wallet.Answers
import Bitspend.Wallet.Reports
import Bitspend.Wallet.Spending
import Mathlib.Data.List.Induction

/-!
# Wallet/Failures — what a failed call leaves behind

`insert_utxos` files the reports of a batch one by one and stops at the first it does not take;
`create_psbt_tx` hands out a change script first and can fail in three ways after that.  Neither
puts anything back.  So a failed batch changes nothing exactly when the reports before the refused
one say what the wallet holds already, and a failed payment exactly when it is the change script
that could not be derived.  Past that script the coins can fall short, and the key they are filed
under — for every coin of a run that of the one receive index — may not be derivable.
-/

namespace Bitspend.Wallet

open Std

variable {Xpub PublicKey : Type}

/-- **The maps and the depths of two wallets agree.** -/
structure WatchOnly.Same (s t : WatchOnly Xpub) : Prop where
  pubkeyMap : ∀ script : Script, t.pubkeyMap[script]? = s.pubkeyMap[script]?
  utxoMap : ∀ o : OutPoint, t.utxoMap[o]? = s.utxoMap[o]?
  receiveDepth : t.receiveDepth = s.receiveDepth
  changeDepth : t.changeDepth = s.changeDepth

theorem WatchOnly.Same.refl (s : WatchOnly Xpub) : s.Same s := ⟨fun _ => rfl, fun _ => rfl, rfl, rfl⟩

/-! ## A batch of reports -/

namespace WatchOnly

/-- **A report is taken after others**: its coin or its script is known, or one of the others was
about the same coin. -/
def Takes (s : WatchOnly Xpub) (before : List PartialUtxo) (u : PartialUtxo) : Prop :=
  s.utxoMap[u.outpoint]? ≠ none ∨ s.pubkeyMap[u.script]? ≠ none ∨ about u.outpoint before ≠ []

/-- The reports of a batch that stand before the first one not taken. -/
def StopsAfter (s : WatchOnly Xpub) (us before : List PartialUtxo) : Prop :=
  ∃ u after, us = before ++ u :: after ∧ ¬ s.Takes before u
    ∧ ∀ b v a, before = b ++ v :: a → s.Takes b v

/-- **Reports that say what the wallet holds**: each is about a coin it has, and the last one about
a coin gives it the mark it has. -/
def Restates (s : WatchOnly Xpub) (us : List PartialUtxo) : Prop :=
  ∀ u ∈ us, ∃ w : WeightedUtxo, s.utxoMap[u.outpoint]? = some w
    ∧ (about u.outpoint us).getLast?.map PartialUtxo.isSpent = some w.utxo.isSpent

/-- A taken report changes the coin it is about and nothing else. -/
theorem insertUtxo_frame {u : PartialUtxo} {s t : WatchOnly Xpub} {v : Unit}
    (h : insertUtxo u s = (.ok v, t)) :
    t.pubkeyMap = s.pubkeyMap ∧ t.receiveDepth = s.receiveDepth ∧ t.changeDepth = s.changeDepth
      ∧ (∀ o, u.outpoint ≠ o → t.utxoMap[o]? = s.utxoMap[o]?)
      ∧ t.utxoMap[u.outpoint]? ≠ none
      ∧ ∀ w, s.utxoMap[u.outpoint]? = some w → t.utxoMap[u.outpoint]? = some (markUtxo w u) := by
  obtain ⟨w, hw, hu⟩ | ⟨d, hnone, -, hu⟩ | ⟨-, -, hu⟩ := insertUtxo_cases u s
  · rw [hu] at h
    cases h
    refine ⟨rfl, rfl, rfl, fun o ho => by rw [getElem?_record, if_neg ho], by simp, fun w' hw' => ?_⟩
    rw [getElem?_record, if_pos rfl, Option.some_inj.mp (hw.symm.trans hw')]
  · rw [hu] at h
    cases h
    refine ⟨rfl, rfl, rfl, fun o ho => by rw [getElem?_record, if_neg ho], by simp, fun w' hw' => ?_⟩
    rw [hnone] at hw'
    cases hw'
  · rw [hu] at h
    cases h

/-- Taking a report and being told it before are the same to every other report. -/
theorem takes_cons {u : PartialUtxo} {s t : WatchOnly Xpub} {v : Unit}
    (h : insertUtxo u s = (.ok v, t)) (before : List PartialUtxo) (u' : PartialUtxo) :
    s.Takes (u :: before) u' ↔ t.Takes before u' := by
  obtain ⟨hpk, -, -, hother, hsome, -⟩ := insertUtxo_frame h
  unfold Takes
  rw [hpk, about, List.filter_cons]
  by_cases hu : u.outpoint = u'.outpoint
  · simp only [hu, decide_true, if_true, ne_eq, reduceCtorEq, not_false_eq_true, or_true, true_iff]
    exact .inl (hu ▸ hsome)
  · simp only [hu, decide_false, hother _ hu]
    rfl

/-- **A batch is taken when each of its reports is**, after the ones before it. -/
theorem insertUtxos_eq_ok_iff {us : List PartialUtxo} {s : WatchOnly Xpub} :
    (∃ t, insertUtxos us s = (.ok PUnit.unit, t)) ↔ ∀ b v a, us = b ++ v :: a → s.Takes b v := by
  induction us generalizing s with
  | nil =>
    refine ⟨fun _ b v a h => ?_, fun _ => ⟨s, rfl⟩⟩
    simp at h
  | cons u us ih =>
    constructor
    · rintro ⟨t, h⟩ b v a heq
      obtain ⟨_, s₁, h₁, hrest⟩ := Op.forM_cons_eq_ok.mp h
      rcases b with _ | ⟨b, bs⟩
      · obtain ⟨rfl, rfl⟩ := List.cons.inj heq
        obtain ⟨w, hw, -⟩ | ⟨d, -, hd, -⟩ | ⟨-, -, hu⟩ := insertUtxo_cases u s
        · exact .inl (by rw [hw]; exact Option.some_ne_none w)
        · exact .inr (.inl (by rw [hd]; exact Option.some_ne_none d))
        · rw [hu] at h₁
          cases h₁
      · obtain ⟨rfl, rfl⟩ := List.cons.inj heq
        exact (takes_cons h₁ bs v).mpr (ih.mp ⟨t, hrest⟩ bs v a rfl)
    · intro h
      obtain ⟨s₁, h₁⟩ : ∃ s₁, insertUtxo u s = (.ok (), s₁) := by
        obtain ⟨w, -, hu⟩ | ⟨d, -, -, hu⟩ | ⟨hno, hnos, -⟩ := insertUtxo_cases u s
        · exact ⟨_, hu⟩
        · exact ⟨_, hu⟩
        · rcases h [] u us rfl with hc | hc | hc
          · exact absurd hno hc
          · exact absurd hnos hc
          · exact absurd rfl hc
      obtain ⟨t, ht⟩ := ih.mpr fun b v a heq => (takes_cons h₁ b v).mp (h (u :: b) v a (heq ▸ rfl))
      exact ⟨t, Op.forM_cons_eq_ok.mpr ⟨(), s₁, h₁, ht⟩⟩

/-- After a batch has been taken, a report is taken if its coin or its script is known by then. -/
theorem takes_append {us : List PartialUtxo} {s t : WatchOnly Xpub}
    (h : insertUtxos us s = (.ok PUnit.unit, t)) (u : PartialUtxo) :
    s.Takes us u ↔ t.utxoMap[u.outpoint]? ≠ none ∨ t.pubkeyMap[u.script]? ≠ none := by
  induction us generalizing s with
  | nil =>
    obtain ⟨-, rfl⟩ := Op.pure_eq_ok.mp h
    rw [Takes, about, List.filter_nil]
    simp
  | cons u' us ih =>
    obtain ⟨_, s₁, h₁, hrest⟩ := Op.forM_cons_eq_ok.mp h
    rw [takes_cons h₁ us u, ih hrest]

/-- What a batch that is taken does to a coin the wallet has: the marks of the reports about it, in
order. -/
theorem insertUtxos_known {us : List PartialUtxo} {s t : WatchOnly Xpub}
    (h : insertUtxos us s = (.ok PUnit.unit, t)) {o : OutPoint} {w : WeightedUtxo}
    (hw : s.utxoMap[o]? = some w) : t.utxoMap[o]? = some ((about o us).foldl markUtxo w) := by
  induction us generalizing s w with
  | nil =>
    obtain ⟨-, rfl⟩ := Op.pure_eq_ok.mp h
    exact hw
  | cons u us ih =>
    obtain ⟨_, s₁, h₁, hrest⟩ := Op.forM_cons_eq_ok.mp h
    obtain ⟨-, -, -, hother, -, hmark⟩ := insertUtxo_frame h₁
    by_cases hu : u.outpoint = o
    · have hnext : s₁.utxoMap[o]? = some (markUtxo w u) := hu ▸ hmark w (hu ▸ hw)
      rw [ih hrest hnext, about, about, List.filter_cons, if_pos (by simpa using hu), List.foldl_cons]
    · rw [ih hrest ((hother o hu).trans hw), about, about, List.filter_cons,
        if_neg (by simpa using hu)]

/-- …to every other coin of its own nothing, and everything it reports on is a coin after it. -/
theorem insertUtxos_frame {us : List PartialUtxo} {s t : WatchOnly Xpub}
    (h : insertUtxos us s = (.ok PUnit.unit, t)) :
    t.pubkeyMap = s.pubkeyMap ∧ t.receiveDepth = s.receiveDepth ∧ t.changeDepth = s.changeDepth
      ∧ ∀ o, about o us = [] → t.utxoMap[o]? = s.utxoMap[o]? := by
  induction us generalizing s with
  | nil =>
    obtain ⟨-, rfl⟩ := Op.pure_eq_ok.mp h
    exact ⟨rfl, rfl, rfl, fun _ _ => rfl⟩
  | cons u us ih =>
    obtain ⟨_, s₁, h₁, hrest⟩ := Op.forM_cons_eq_ok.mp h
    obtain ⟨hpk, hr, hc, hother, -, -⟩ := insertUtxo_frame h₁
    obtain ⟨hpk', hr', hc', hother'⟩ := ih hrest
    refine ⟨hpk'.trans hpk, hr'.trans hr, hc'.trans hc, fun o ho => ?_⟩
    rw [about, List.filter_cons] at ho
    split_ifs at ho with hu
    exact (hother' o ho).trans (hother o (by simpa using hu))

theorem foldl_markUtxo (w : WeightedUtxo) (us : List PartialUtxo) :
    us.foldl markUtxo w
      = { w with utxo := { w.utxo with
          isSpent := (us.getLast?.map PartialUtxo.isSpent).getD w.utxo.isSpent } } := by
  induction us using List.reverseRecOn with
  | nil => rfl
  | append_singleton us u ih =>
    rw [List.foldl_append, List.foldl_cons, List.foldl_nil, ih, List.getLast?_concat]
    rfl

/-- **A batch that is taken changes nothing exactly when it restates what the wallet holds.** -/
theorem same_iff_restates {us : List PartialUtxo} {s t : WatchOnly Xpub}
    (h : insertUtxos us s = (.ok PUnit.unit, t)) : s.Same t ↔ s.Restates us := by
  obtain ⟨hpk, hr, hc, hother⟩ := insertUtxos_frame h
  constructor
  · intro hsame u hu
    have hne : about u.outpoint us ≠ [] := List.ne_nil_of_mem (List.mem_filter.mpr ⟨hu, by simp⟩)
    -- the coin is there after the batch, so it was there before
    rcases hw : s.utxoMap[u.outpoint]? with _ | w
    · have hcoin := (insertUtxos_eq_ok h).2 u.outpoint
      have hnone : t.coin u.outpoint = none := by rw [coin, hsame.utxoMap, hw]; rfl
      obtain ⟨us', v, hlast⟩ := List.eq_nil_or_concat (about u.outpoint us) |>.resolve_left hne
      rw [hlast, hnone, List.concat_eq_append, List.foldl_append] at hcoin
      exact absurd hcoin.symm (reportAt_ne_none _ v)
    · refine ⟨w, rfl, ?_⟩
      have hmark := insertUtxos_known h hw
      rw [hsame.utxoMap, hw, foldl_markUtxo] at hmark
      have hflag := congrArg (fun x => x.utxo.isSpent) (Option.some_inj.mp hmark)
      rw [List.getLast?_eq_some_getLast hne] at hflag ⊢
      exact congrArg some hflag.symm
  · intro hus
    refine ⟨fun script => by rw [hpk], fun o => ?_, hr, hc⟩
    rcases hab : about o us with _ | ⟨u, rest⟩
    · exact hother o hab
    · have hu : u ∈ about o us := hab ▸ List.mem_cons_self
      obtain ⟨hmem, ho⟩ := List.mem_filter.mp hu
      obtain rfl : u.outpoint = o := by simpa using ho
      obtain ⟨w, hw, hflag⟩ := hus u hmem
      rw [insertUtxos_known h hw, hw, foldl_markUtxo, hflag]
      rfl

/-- **A failed batch stops after the reports before the first not taken**, with these filed. -/
theorem insertUtxos_eq_error_iff {us : List PartialUtxo} {s t : WatchOnly Xpub} {e : Error} :
    insertUtxos us s = (.error (.error e), t)
      ↔ e = .noPubKey ∧ ∃ before, s.StopsAfter us before
        ∧ insertUtxos before s = (.ok PUnit.unit, t) := by
  constructor
  · intro h
    obtain ⟨before, u, after, s', rfl, hbefore, hu⟩ := Op.exists_of_forM_eq_error h
    obtain ⟨w, -, hok⟩ | ⟨d, -, -, hok⟩ | ⟨hno, hnos, hfail⟩ := insertUtxo_cases u s'
    · rw [hok] at hu
      cases hu
    · rw [hok] at hu
      cases hu
    · rw [hfail] at hu
      cases hu
      refine ⟨rfl, before, ⟨u, after, rfl, ?_, insertUtxos_eq_ok_iff.mp ⟨t, hbefore⟩⟩, hbefore⟩
      exact fun htakes => ((takes_append hbefore u).mp htakes).elim (· hno) (· hnos)
  · rintro ⟨rfl, before, ⟨u, after, rfl, hnot, -⟩, hbefore⟩
    rw [insertUtxos, List.forM_append]
    refine Op.bind_eq_error.mpr (.inr ⟨_, t, hbefore, ?_⟩)
    rw [List.forM_cons]
    refine Op.bind_eq_error.mpr (.inl ?_)
    rw [takes_append hbefore u, not_or, not_ne_iff, not_ne_iff] at hnot
    obtain ⟨w, hw, -⟩ | ⟨d, -, hd, -⟩ | ⟨-, -, hfail⟩ := insertUtxo_cases u t
    · exact absurd (hw.symm.trans hnot.1) (Option.some_ne_none w)
    · exact absurd (hd.symm.trans hnot.2) (Option.some_ne_none d)
    · exact hfail

/-- **A failed batch changes nothing exactly when what it filed restates what the wallet holds.** -/
theorem insertUtxos_unchanged_iff (s : WatchOnly Xpub) (us : List PartialUtxo) :
    (∀ e t, insertUtxos us s = (.error (.error e), t) → s.Same t)
      ↔ ∀ before, s.StopsAfter us before → s.Restates before := by
  constructor
  · rintro h before ⟨u, after, rfl, hnot, hall⟩
    obtain ⟨t, ht⟩ := insertUtxos_eq_ok_iff.mpr hall
    refine (same_iff_restates ht).mp (h .noPubKey t (insertUtxos_eq_error_iff.mpr ?_))
    exact ⟨rfl, before, ⟨u, after, rfl, hnot, hall⟩, ht⟩
  · intro h e t herr
    obtain ⟨-, before, hstop, ht⟩ := insertUtxos_eq_error_iff.mp herr
    exact (same_iff_restates ht).mpr (h before hstop)

end WatchOnly

/-! ## A payment -/

namespace WalletLib

variable (lib : WalletLib Xpub PublicKey)

/-- **Nothing fails after the change script**: the coins can be added up and do not fall short, or
cannot; and where some are spent, the receive key they are filed under can be derived. -/
structure Funded (s : WatchOnly Xpub) (feeRate : FeeRate) (amount : ℕ) (rand : Rng)
    (changeScript : Script) : Prop where
  enough : Tallies lib.costs feeRate s.utxos →
    ¬FallsShort lib.costs lib.sorter 31 [] s.utxos feeRate amount changeScript rand
  derivable : 0 < amount → Tallies lib.costs feeRate s.utxos →
    Affords lib.costs lib.sorter 31 [] s.utxos feeRate amount changeScript rand →
      ∃ pk, lib.childPub s.accountXpub 0 s.receiveDepth = .ok pk

variable {lib}

theorem mapError_safe (x : Except Bip32Error Xpub) :
    Outcome.Safe (x.mapError fun e => Fault.error (Error.pubKeyError e)) := by
  rcases x with e | y
  · exact Outcome.Safe.err _
  · exact Outcome.Safe.ok y

theorem childPub_safe (x : Xpub) (chain index : UInt32) : (lib.childPub x chain index).Safe := by
  refine Outcome.Safe.bind (mapError_safe _) fun y _ => ?_
  exact Outcome.Safe.bind (mapError_safe _) fun z _ => Outcome.Safe.ok _

theorem psbtInput_eq_ok_iff {s : WatchOnly Xpub} {u : Utxo} :
    (∃ input, lib.psbtInput s u = .ok input)
      ↔ ∃ pk, lib.childPub s.accountXpub u.keychain.asU32 u.derivationIndex = .ok pk := by
  constructor
  · rintro ⟨input, h⟩
    obtain ⟨pk, hpk, -⟩ := Outcome.bind_eq_ok.mp h
    exact ⟨pk, hpk⟩
  · rintro ⟨pk, hpk⟩
    rw [psbtInput, derivePubkey, hpk, Outcome.ok_bind]
    exact ⟨_, rfl⟩

theorem psbtInput_safe (s : WatchOnly Xpub) (u : Utxo) : (lib.psbtInput s u).Safe :=
  Outcome.Safe.bind (childPub_safe _ _ _) fun _ _ => Outcome.Safe.ok _

/-- What is left of a payment once the change script is handed out, which touches the wallet no
more. -/
def restOfPayment (lib : WalletLib Xpub PublicKey) (s : WatchOnly Xpub) (recipient : Script)
    (feeRate : FeeRate) (amount : ℕ) (rand : Rng) (changeScript : Script) :
    Outcome Error (Psbt PublicKey) := do
  let cs ← Outcome.mapErr .coinSelection (defaultCoinSelectionAlgorithm lib.costs lib.sorter []
    s.utxos feeRate amount changeScript rand)
  let psbt : Psbt PublicKey ← Outcome.mapErr .psbt
    (Psbt.fromUnsignedTx (unsignedTxOf recipient changeScript amount cs))
  let inputs ← cs.selected.mapM (lib.psbtInput s)
  pure { psbt with inputs }

theorem createPsbtTx_eq {s : WatchOnly Xpub} {pk : PublicKey}
    (hpk : lib.childPub s.accountXpub 1 s.changeDepth = .ok pk) (recipient : Script)
    (feeRate : FeeRate) (amount : ℕ) (rand : Rng) :
    lib.createPsbtTx recipient feeRate amount rand s
      = (lib.restOfPayment s recipient feeRate amount rand (lib.p2wpkh pk),
          afterChangeScript (lib.p2wpkh pk) s) := by
  have hchange : lib.getChangeScript s = (.ok (lib.p2wpkh pk), afterChangeScript (lib.p2wpkh pk) s) :=
    Op.ask_bind_of_ok hpk
  rw [createPsbtTx, Op.bind_apply, hchange]
  refine Op.ask_bind_eq fun cs => ?_
  refine Op.ask_bind_eq fun psbt => ?_
  exact Op.ask_bind_eq fun inputs => rfl

/-- Once the change script is handed out, a payment fails exactly when coin selection does or the key
of a selected coin cannot be derived. -/
theorem errless_restOfPayment_iff {s : WatchOnly Xpub} (recipient : Script) (feeRate : FeeRate)
    (amount : ℕ) (rand : Rng) (changeScript : Script) :
    (lib.restOfPayment s recipient feeRate amount rand changeScript).Errless
      ↔ (defaultCoinSelectionAlgorithm lib.costs lib.sorter [] s.utxos feeRate amount changeScript
          rand).Errless
        ∧ ∀ cs, defaultCoinSelectionAlgorithm lib.costs lib.sorter [] s.utxos feeRate amount
            changeScript rand = .ok cs →
          ∀ u ∈ cs.selected, ∃ pk, lib.childPub s.accountXpub u.keychain.asU32 u.derivationIndex
            = .ok pk := by
  have hpsbt : ∀ cs, ∃ psbt : Psbt PublicKey, Outcome.mapErr Error.psbt
      (Psbt.fromUnsignedTx (unsignedTxOf recipient changeScript amount cs)) = .ok psbt := by
    intro cs
    obtain ⟨psbt, h, -⟩ := fromUnsignedTx_unsignedTxOf recipient changeScript amount cs
    exact ⟨psbt, Outcome.mapErr_eq_ok.mpr h⟩
  unfold restOfPayment
  rw [Outcome.errless_bind_iff, Outcome.errless_mapErr_iff]
  refine and_congr_right fun _ => ?_
  constructor
  · intro hrest cs hcs u hu
    have hinputs := hrest cs (Outcome.mapErr_eq_ok.mpr hcs)
    obtain ⟨psbt, h⟩ := hpsbt cs
    rw [h, Outcome.ok_bind] at hinputs
    have hmap := (Outcome.errless_bind_iff.mp hinputs).1
    exact psbtInput_eq_ok_iff.mp ((Outcome.errless_mapM_iff (psbtInput_safe s)).mp hmap u hu)
  · intro hderive cs hcs
    obtain ⟨psbt, h⟩ := hpsbt cs
    rw [h, Outcome.ok_bind]
    have hmap := (Outcome.errless_mapM_iff (psbtInput_safe s)).mpr fun u hu =>
      psbtInput_eq_ok_iff.mpr (hderive cs (Outcome.mapErr_eq_ok.mp hcs) u hu)
    exact Outcome.Errless.bind hmap fun _ => Outcome.Errless.ok _

/-! ### One place for every key -/

end WalletLib

/-- **Every script and every coin is filed under the same receive key**: change scripts are recorded
as external too, and the receive depth never moves. -/
structure WatchOnly.OnePlace (s : WatchOnly Xpub) : Prop where
  pubkeys : ∀ (script : Script) (d : PubkeyDetails), s.pubkeyMap[script]? = some d →
    d = { keyType := .external, keyDepth := s.receiveDepth }
  utxos : ∀ (o : OutPoint) (w : WeightedUtxo), s.utxoMap[o]? = some w →
    w.utxo.keychain = .external ∧ w.utxo.derivationIndex = s.receiveDepth

theorem WatchOnly.OnePlace.track {s : WatchOnly Xpub} (hs : s.OnePlace) (script : Script) :
    (s.track script { keyType := .external, keyDepth := s.receiveDepth }).OnePlace := by
  refine ⟨fun script' d hd => ?_, hs.utxos⟩
  rw [WatchOnly.getElem?_track] at hd
  split at hd
  · exact (Option.some_inj.mp hd).symm
  · exact hs.pubkeys script' d hd

namespace WalletLib

variable {lib : WalletLib Xpub PublicKey}

theorem onePlace_of_reachable {s : WatchOnly Xpub} (hs : lib.Reachable s) : s.OnePlace := by
  obtain ⟨x, n, d, f, ops, rfl⟩ := hs
  refine lib.run_keeps (fun op _ s hs => lib.step_keeps ?_ ?_ ?_ op ?_ hs) ?_
  · intro s u w hs hw
    refine ⟨hs.pubkeys, fun o v hv => ?_⟩
    rw [WatchOnly.getElem?_record] at hv
    split at hv
    · cases hv
      exact hs.utxos _ w hw
    · exact hs.utxos o v hv
  · intro s u d hs _ hd
    refine ⟨hs.pubkeys, fun o v hv => ?_⟩
    rw [WatchOnly.getElem?_record] at hv
    split at hv
    · cases hv
      rw [hs.pubkeys _ d hd]
      exact ⟨rfl, rfl⟩
    · exact hs.utxos o v hv
  · intro s pk hs _
    exact hs.track _
  · intro _ s pk hs _
    exact WatchOnly.OnePlace.track (s := { s with changeDepth := s.changeDepth + 1 })
      ⟨hs.pubkeys, hs.utxos⟩ _
  · refine ⟨fun script d hd => ?_, fun o w hw => ?_⟩
    · simp [WatchOnly.new] at hd
    · simp [WatchOnly.new] at hw

/-- An amount is paid with coins. -/
theorem selected_ne_nil_of_pos {costs : SpendCosts} {sorter : SortUnstable OutputGroup.effectiveValue}
    {ws : List WeightedUtxo} {feeRate : FeeRate} {amount : ℕ} {script : Script} {rand : Rng}
    {cs : CoinSelectionResult} (hpos : 0 < amount)
    (h : defaultCoinSelectionAlgorithm costs sorter [] ws feeRate amount script rand = .ok cs) :
    cs.selected ≠ [] := by
  obtain ⟨chosen, rem, hsel⟩ := coinSelect_selects h
  rw [hsel.selected_eq]
  rintro hnil
  rw [List.map_eq_nil_iff] at hnil
  have hbal := hsel.balanced
  rw [hnil, valueOf_nil] at hbal
  omega

/-- **A payment from such a wallet goes through exactly when it is funded.** -/
theorem errless_restOfPayment_iff_funded {s : WatchOnly Xpub} (hs : s.OnePlace) (recipient : Script)
    (feeRate : FeeRate) (amount : ℕ) (rand : Rng) {changeScript : Script}
    (hlen : (serializedLen changeScript + 8) * 4 < 2 ^ 64) :
    (lib.restOfPayment s recipient feeRate amount rand changeScript).Errless
      ↔ lib.Funded s feeRate amount rand changeScript := by
  have hkeys : ∀ {cs : CoinSelectionResult}, defaultCoinSelectionAlgorithm lib.costs lib.sorter []
      s.utxos feeRate amount changeScript rand = .ok cs → ∀ u ∈ cs.selected,
        lib.childPub s.accountXpub u.keychain.asU32 u.derivationIndex
          = lib.childPub s.accountXpub 0 s.receiveDepth := by
    intro cs hcs u hu
    obtain ⟨ws, rem, hsel⟩ := coinSelect_selects hcs
    rw [hsel.selected_eq] at hu
    obtain ⟨w, hw, rfl⟩ := List.mem_map.mp hu
    obtain ⟨o, ho⟩ := WatchOnly.mem_utxos.mp (hsel.subperm.subset hw)
    obtain ⟨hkind, hindex⟩ := hs.utxos o w ho
    rw [hkind, hindex]
    rfl
  rw [errless_restOfPayment_iff, errless_defaultCoinSelection_iff hlen]
  constructor
  · rintro ⟨henough, hderive⟩
    refine ⟨henough, fun hpos htallies haffords => ?_⟩
    obtain ⟨cs, hcs⟩ := (exists_defaultCoinSelection_ok_iff hlen).mpr ⟨htallies, haffords⟩
    obtain ⟨u, hu⟩ := List.exists_mem_of_ne_nil _ (selected_ne_nil_of_pos hpos hcs)
    rw [← hkeys hcs u hu]
    exact hderive cs hcs u hu
  · rintro ⟨henough, hderive⟩
    refine ⟨henough, fun cs hcs u hu => ?_⟩
    obtain ⟨htallies, haffords⟩ := (exists_defaultCoinSelection_ok_iff hlen).mp ⟨cs, hcs⟩
    rw [hkeys hcs u hu]
    refine hderive (Nat.pos_of_ne_zero ?_) htallies haffords
    rintro rfl
    rw [selected_eq_nil_of_zero hlen hcs] at hu
    exact absurd hu List.not_mem_nil

theorem not_same_afterChangeScript (script : Script) (s : WatchOnly Xpub) :
    ¬ s.Same (afterChangeScript script s) := by
  intro h
  have hdepth : s.changeDepth + 1 = s.changeDepth := h.changeDepth
  simp at hdepth

/-- **A failed payment changes nothing exactly when the change key cannot be derived**, or nothing
fails after it. -/
theorem createPsbtTx_unchanged_iff {s : WatchOnly Xpub} (hs : s.OnePlace)
    (hscript : ∀ x, (lib.p2wpkh (lib.toPub x)).length = 22) (recipient : Script) (feeRate : FeeRate)
    (amount : ℕ) (rand : Rng) :
    (∀ e t, lib.createPsbtTx recipient feeRate amount rand s = (.error (.error e), t) → s.Same t)
      ↔ ∀ pk, lib.childPub s.accountXpub 1 s.changeDepth = .ok pk →
        lib.Funded s feeRate amount rand (lib.p2wpkh pk) := by
  obtain ⟨pk, hpk, -⟩ | ⟨e, he, hget⟩ := lib.getChangeScript_cases s
  · have hrun := createPsbtTx_eq hpk recipient feeRate amount rand
    have hfunded : (lib.restOfPayment s recipient feeRate amount rand (lib.p2wpkh pk)).Errless
        ↔ lib.Funded s feeRate amount rand (lib.p2wpkh pk) :=
      errless_restOfPayment_iff_funded hs recipient feeRate amount rand
        (by rw [serializedLen_of_childPub hscript hpk]; decide)
    constructor
    · intro h pk' hpk'
      obtain rfl : pk = pk' := Except.ok.inj (hpk.symm.trans hpk')
      refine hfunded.mp fun e herr => ?_
      rw [herr] at hrun
      exact not_same_afterChangeScript (lib.p2wpkh pk) s (h e _ hrun)
    · intro h e t herr
      exact absurd (congrArg Prod.fst (hrun.symm.trans herr)) (hfunded.mpr (h pk hpk) e)
  · have hsnd := lib.snd_createPsbtTx recipient feeRate amount rand s
    rw [hget] at hsnd
    constructor
    · intro _ pk hpk
      rw [hpk] at he
      cases he
    · intro _ e' t herr
      rw [herr] at hsnd
      obtain rfl : t = s := hsnd
      exact .refl t

/-- **A failed call changes nothing exactly when it had nothing to put back**: in a batch, when the
reports before the refused one say what the wallet holds; in a payment, when the change key cannot
be derived, or the coins do not fall short and the receive key of those it spends can be derived. -/
theorem failed_unchanged_iff (lib : WalletLib Xpub PublicKey)
    (hscript : ∀ x, (lib.p2wpkh (lib.toPub x)).length = 22) (s : WatchOnly Xpub)
    (hs : lib.Reachable s) :
    (∀ us, (∀ e t, WatchOnly.insertUtxos us s = (.error (.error e), t) → s.Same t)
      ↔ ∀ before, s.StopsAfter us before → s.Restates before)
    ∧ ∀ recipient feeRate amount rand,
      (∀ e t, lib.createPsbtTx recipient feeRate amount rand s = (.error (.error e), t) → s.Same t)
        ↔ ∀ pk, lib.childPub s.accountXpub 1 s.changeDepth = .ok pk →
          lib.Funded s feeRate amount rand (lib.p2wpkh pk) :=
  ⟨WatchOnly.insertUtxos_unchanged_iff s, createPsbtTx_unchanged_iff (onePlace_of_reachable hs) hscript⟩

end WalletLib

/-- A coin for the wallet's address, and one for a script it has never seen. -/
def mixedBatch : List PartialUtxo :=
  [{ outpoint := { txid := default, vout := 0 }, amount := 100000,
     script := segwitLib.p2wpkh [0, 0], isSpent := false },
   { outpoint := { txid := default, vout := 1 }, amount := 5000, script := [0x51], isSpent := false }]

/-- The coin of `reportedWallet` reported again, then one for a script it has never seen. -/
def restatingBatch : List PartialUtxo :=
  [{ outpoint := default, amount := 100000, script := segwitLib.p2wpkh [0, 0], isSpent := false },
   { outpoint := { txid := default, vout := 1 }, amount := 5000, script := [0x51], isSpent := false }]

/-- With one coin of a hundred thousand satoshis: a batch that says so and then fails changes nothing;
a payment of a thousand does not fail; one of two hundred thousand uses up a change key. -/
theorem failed_unchanged_iff_reported :
    (∀ e t, WatchOnly.insertUtxos restatingBatch (reportedWallet [false]) = (.error (.error e), t) →
      (reportedWallet [false]).Same t)
    ∧ (∀ e t, segwitLib.createPsbtTx [0x51] ⟨750⟩ 1000 (fun _ => 0) (reportedWallet [false])
        = (.error (.error e), t) → (reportedWallet [false]).Same t)
    ∧ ¬∀ e t, segwitLib.createPsbtTx [0x51] ⟨750⟩ 200000 (fun _ => 0) (reportedWallet [false])
        = (.error (.error e), t) → (reportedWallet [false]).Same t := by
  obtain ⟨hbatch, hpayment⟩ := WalletLib.failed_unchanged_iff segwitLib
    segwitLib_laws.length_p2wpkh _ (reachable_reportedWallet [false])
  obtain ⟨w, hw, hflag⟩ : ∃ w : WeightedUtxo, (reportedWallet [false]).utxoMap[(default : OutPoint)]?
      = some w ∧ w.utxo.isSpent = false := Option.map_eq_some_iff.mp (by decide +kernel)
  have htallies : Tallies sampleCosts ⟨750⟩ (reportedWallet [false]).utxos :=
    ⟨by decide +kernel, by decide +kernel, by decide +kernel⟩
  refine ⟨(hbatch restatingBatch).mpr ?_, (hpayment [0x51] ⟨750⟩ 1000 fun _ => 0).mpr ?_, fun h => ?_⟩
  · rintro before ⟨u, after, heq, hnot, -⟩
    rcases before with _ | ⟨b, _ | ⟨c, bs⟩⟩
    · obtain ⟨rfl, -⟩ := List.cons.inj heq
      exact absurd (.inl (by rw [hw]; exact Option.some_ne_none w)) hnot
    · obtain ⟨rfl, -⟩ := List.cons.inj heq
      refine fun v hv => ⟨w, ?_, ?_⟩
      · rw [List.mem_singleton.mp hv]
        exact hw
      · rw [List.mem_singleton.mp hv, hflag]
        decide
    · simp [restatingBatch] at heq
  · rintro pk -
    refine ⟨fun _ hshort => ?_, fun _ _ _ => ⟨_, rfl⟩⟩
    rcases hshort with ⟨hlt, -⟩ | ⟨-, -, -, hdrawn, -⟩
    · exact absurd hlt (by decide +kernel)
    · refine hdrawn 1 ?_
      unfold Sufficient
      decide +kernel
  · refine (((hpayment [0x51] ⟨750⟩ 200000 fun _ => 0).mp h) _ rfl).enough htallies (.inl ?_)
    decide +kernel

/-- **A batch that fails at its second report has filed the first, and a payment without funds has
used up a change key.** -/
theorem not_failed_unchanged :
    (¬ ∀ s, segwitLib.Reachable s → ∀ us e t,
      WatchOnly.insertUtxos us s = (.error (.error e), t) → s.Same t)
    ∧ ¬ ∀ s, segwitLib.Reachable s → ∀ recipient feeRate amount rand e t,
      segwitLib.createPsbtTx recipient feeRate amount rand s = (.error (.error e), t) → s.Same t := by
  refine ⟨fun h => ?_, fun h => ?_⟩
  · have hsame := h (reportedWallet []) (reachable_reportedWallet []) mixedBatch .noPubKey
      (WatchOnly.insertUtxos mixedBatch (reportedWallet [])).2 (Prod.ext (by decide +kernel) rfl)
    exact absurd (hsame.utxoMap { txid := default, vout := 0 }) (by decide +kernel)
  · have hsame := h (reportedWallet []) (reachable_reportedWallet []) [0x51] ⟨250⟩ 1000 (fun _ => 0)
      (.coinSelection { needed := 1000, available := 0 })
      (segwitLib.createPsbtTx [0x51] ⟨250⟩ 1000 (fun _ => 0) (reportedWallet [])).2
      (Prod.ext (by decide +kernel) rfl)
    exact absurd hsame.changeDepth (by decide +kernel)

end Bitspend.Wallet
