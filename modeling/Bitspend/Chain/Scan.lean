import Bitspend.Chain.Ledger
import Bitspend.Wallet.Reports
import Mathlib.Data.List.ReduceOption

/-!
# Chain/Scan — what one call of `fetch_and_save_utxos` does to the wallet

A call looks up spends among the coins the wallet held *before* it.  So a coin of the ledger that the
wallet does not hold is filed as unspent if its transaction is in the batch, and the mark of one it
holds follows the batch: set by a spend, cleared by its creation coming again without one.
-/

namespace Bitspend.Chain

open Wire Wallet WatchOnly

variable {Xpub : Type}

/-! ## What a scan reports -/

section Reports

variable {sha256 : List UInt8 → Bytes 32} {scripts : List Script} {blocks bs : List Block}

theorem mem_newUtxosOf {t : Tx} {u : PartialUtxo} :
    u ∈ newUtxosOf sha256 scripts t ↔ ∃ i output, t.outputs[i]? = some output
      ∧ output.lockScript ∈ scripts
      ∧ u = { outpoint := { txid := t.hash sha256, vout := UInt32.ofNat i }
              amount := output.satoshis.toUInt64.toNat
              script := output.lockScript
              isSpent := false } := by
  simp only [newUtxosOf, List.mem_filterMap, Option.ite_none_right_eq_some, Option.some.injEq]
  constructor
  · rintro ⟨⟨output, i⟩, hx, hs, rfl⟩
    exact ⟨i, output, List.mem_zipIdx_iff_getElem?.mp hx, hs, rfl⟩
  · rintro ⟨i, output, hi, hs, rfl⟩
    exact ⟨(output, i), List.mem_zipIdx_iff_getElem?.mpr hi, hs, rfl⟩

/-- **In a chain, a new coin is the coin of an output.** -/
theorem InOrder.mem_newUtxosOf (hord : InOrder sha256 blocks) {t : Tx} (ht : t ∈ txnsOf blocks)
    {u : PartialUtxo} :
    u ∈ newUtxosOf sha256 scripts t ↔ ∃ i output, t.outputs[i]? = some output
      ∧ output.lockScript ∈ scripts ∧ u = coinOf sha256 t i output false := by
  have hcoin : ∀ i output, t.outputs[i]? = some output →
      ({ outpoint := { txid := t.hash sha256, vout := UInt32.ofNat i }
         amount := output.satoshis.toUInt64.toNat
         script := output.lockScript
         isSpent := false } : PartialUtxo) = coinOf sha256 t i output false := by
    intro i output hi
    have hvalue := (hord.value t ht output (List.mem_of_getElem? hi)).1
    have hnonneg : (0 : Int64) ≤ output.satoshis := Int64.le_iff_toInt_le.mpr hvalue
    rw [hord.hash_eq_txid ht, Int64.toNat_toUInt64_of_le hnonneg]
    rfl
  rw [Chain.mem_newUtxosOf]
  constructor
  · rintro ⟨i, output, hi, hs, rfl⟩
    exact ⟨i, output, hi, hs, hcoin i output hi⟩
  · rintro ⟨i, output, hi, hs, rfl⟩
    exact ⟨i, output, hi, hs, (hcoin i output hi).symm⟩

theorem mem_spentUtxosOf {utxos : List PartialUtxo} {t : Tx} {u : PartialUtxo} :
    u ∈ spentUtxosOf utxos t ↔ ∃ x ∈ utxos, (∃ input ∈ t.inputs, input.prevOutput.hash ≠ NO_HASH_STOP
      ∧ x.outpoint.txid = input.prevOutput.hash ∧ x.outpoint.vout = input.prevOutput.index)
      ∧ u = { x with isSpent := true } := by
  simp only [spentUtxosOf, List.mem_flatMap]
  constructor
  · rintro ⟨input, hinput, hu⟩
    split_ifs at hu with hzero
    · cases hu
    · obtain ⟨x, hx, hu⟩ := List.mem_filterMap.mp hu
      obtain ⟨hout, hu⟩ := Option.ite_none_right_eq_some.mp hu
      exact ⟨x, hx, ⟨input, hinput, hzero, hout⟩, (Option.some_inj.mp hu).symm⟩
  · rintro ⟨x, hx, ⟨input, hinput, hzero, hout⟩, rfl⟩
    refine ⟨input, hinput, ?_⟩
    rw [if_neg hzero]
    exact List.mem_filterMap.mpr ⟨x, hx, by rw [if_pos hout]⟩

/-- The reports of one transaction. -/
def reportsOf (sha256 : List UInt8 → Bytes 32) (scripts : List Script) (utxos : List PartialUtxo)
    (t : Tx) : List PartialUtxo := newUtxosOf sha256 scripts t ++ spentUtxosOf utxos t

theorem scanBlocks_eq (utxos : List PartialUtxo) :
    scanBlocks sha256 scripts utxos bs = (txnsOf bs).flatMap (reportsOf sha256 scripts utxos) := by
  rw [scanBlocks, txnsOf, List.flatMap_assoc]
  rfl

theorem mem_about_flatMap {α : Type} {f : α → List PartialUtxo} {l : List α} {o : Wallet.OutPoint}
    {u : PartialUtxo} :
    u ∈ about o (l.flatMap f) ↔ u.outpoint = o ∧ ∃ a ∈ l, u ∈ f a := by
  simp only [about, List.mem_filter, List.mem_flatMap, decide_eq_true_eq]
  exact and_comm

/-- The mark of reports that agree on it. -/
theorem mark_of_forall {us : List PartialUtxo} (hne : us ≠ []) {b : Bool}
    (h : ∀ u ∈ us, u.isSpent = b) : us.getLast?.map PartialUtxo.isSpent = some b := by
  rw [List.getLast?_eq_getLast_of_ne_nil hne, Option.map_some, h _ (List.getLast_mem hne)]

end Reports

/-! ## One scan -/

/-- **The wallet holds only coins of the ledger**, each under its own outpoint; the marks may
differ. -/
def OfLedger (sha256 : List UInt8 → Bytes 32) (blocks : List Block) (w : WatchOnly Xpub) : Prop :=
  ∀ o u, w.coin o = some u → u.outpoint = o
    ∧ ∃ x ∈ ledger sha256 w.getPubkeys blocks, u = { x with isSpent := u.isSpent }

section Scan

variable {sha256 : List UInt8 → Bytes 32} {blocks bs : List Block} {w w' : WatchOnly Xpub}
  {x : PartialUtxo}

/-- The mark of the coin at an outpoint, if the wallet holds one. -/
def mark (w : WatchOnly Xpub) (o : Wallet.OutPoint) : Option Bool :=
  (w.coin o).map PartialUtxo.isSpent

theorem OfLedger.coin_eq (hord : InOrder sha256 blocks) (hw : OfLedger sha256 blocks w)
    (hx : x ∈ ledger sha256 w.getPubkeys blocks) :
    w.coin x.outpoint = (mark w x.outpoint).map fun b => { x with isSpent := b } := by
  unfold mark
  rcases hc : w.coin x.outpoint with _ | u
  · rfl
  · obtain ⟨hout, y, hy, hu⟩ := hw _ u hc
    have hyx : y = x := hord.eq_of_mem_ledger hy hx (by rw [← hout, hu])
    rw [hyx] at hu
    exact congrArg some hu

/-- **Every report agrees with the ledger**, up to its mark. -/
theorem exists_ledger_of_report (hord : InOrder sha256 blocks) (hw : OfLedger sha256 blocks w)
    (hbs : bs.Sublist blocks) {u : PartialUtxo}
    (hu : u ∈ scanBlocks sha256 w.getPubkeys w.getUtxos bs) :
    ∃ x ∈ ledger sha256 w.getPubkeys blocks, u = { x with isSpent := u.isSpent } := by
  rw [scanBlocks_eq] at hu
  obtain ⟨t, ht, hu⟩ := List.mem_flatMap.mp hu
  have htb := (txnsOf_sublist hbs).subset ht
  rcases List.mem_append.mp hu with hnew | hspent
  · obtain ⟨i, output, hi, hs, rfl⟩ := (hord.mem_newUtxosOf htb).mp hnew
    exact ⟨_, mem_ledger.mpr ⟨t, htb, i, output, hi, hs, rfl⟩, rfl⟩
  · obtain ⟨y, hy, -, rfl⟩ := mem_spentUtxosOf.mp hspent
    obtain ⟨o, ho⟩ := mem_getUtxos.mp hy
    obtain ⟨-, x, hx, hyx⟩ := hw o y ho
    exact ⟨x, hx, by rw [hyx]⟩

/-- **What a scan leaves of a coin of the ledger**: the mark of the last report about it, else the
one it had. -/
theorem mark_scan (hord : InOrder sha256 blocks) (hw : OfLedger sha256 blocks w)
    (hbs : bs.Sublist blocks) {v : PUnit}
    (h : insertUtxos (scanBlocks sha256 w.getPubkeys w.getUtxos bs) w = (.ok v, w'))
    (hx : x ∈ ledger sha256 w.getPubkeys blocks) :
    w'.coin x.outpoint = (((about x.outpoint (scanBlocks sha256 w.getPubkeys w.getUtxos bs)).getLast?.map
      PartialUtxo.isSpent).or (mark w x.outpoint)).map fun b => { x with isSpent := b } := by
  rw [(insertUtxos_eq_ok h).2, hw.coin_eq hord hx]
  refine foldl_reportAt (fun u hu => ?_) _
  obtain ⟨hu, hout⟩ := List.mem_filter.mp hu
  obtain ⟨y, hy, hyu⟩ := exists_ledger_of_report hord hw hbs hu
  have hyx : y = x := by
    refine hord.eq_of_mem_ledger hy hx ?_
    rw [← of_decide_eq_true hout, hyu]
  rwa [hyx] at hyu

theorem getPubkeys_of_insertUtxos {us : List PartialUtxo} {v : PUnit}
    (h : insertUtxos us w = (.ok v, w')) : w'.getPubkeys = w.getPubkeys := by
  rw [getPubkeys, (insertUtxos_eq_ok h).1]
  rfl

/-- A scan brings in only coins of the ledger. -/
theorem OfLedger.scan (hord : InOrder sha256 blocks) (hw : OfLedger sha256 blocks w)
    (hbs : bs.Sublist blocks) {v : PUnit}
    (h : insertUtxos (scanBlocks sha256 w.getPubkeys w.getUtxos bs) w = (.ok v, w')) :
    OfLedger sha256 blocks w' := by
  intro o u hu
  rw [getPubkeys_of_insertUtxos h]
  by_cases hex : ∃ x ∈ ledger sha256 w.getPubkeys blocks, x.outpoint = o
  · obtain ⟨x, hx, rfl⟩ := hex
    rw [mark_scan hord hw hbs h hx] at hu
    obtain ⟨b, -, rfl⟩ := Option.map_eq_some_iff.mp hu
    exact ⟨rfl, x, hx, rfl⟩
  · have hnone : about o (scanBlocks sha256 w.getPubkeys w.getUtxos bs) = [] := by
      refine List.filter_eq_nil_iff.mpr fun u' hu' hout => hex ?_
      obtain ⟨y, hy, hyu⟩ := exists_ledger_of_report hord hw hbs hu'
      exact ⟨y, hy, by rw [← of_decide_eq_true hout, hyu]⟩
    rw [(insertUtxos_eq_ok h).2, hnone] at hu
    exact hw o u hu

/-- The blocks hold the transaction of an outpoint. -/
def Opens (sha256 : List UInt8 → Bytes 32) (o : Wallet.OutPoint) (bs : List Block) : Prop :=
  ∃ t ∈ txnsOf bs, txid sha256 t = o.txid

/-- The blocks hold an input that refers to an outpoint. -/
def Sets (o : Wallet.OutPoint) (bs : List Block) : Prop := ∃ t ∈ txnsOf bs, Spends o t

/-- A transaction reports the new coins it creates… -/
theorem new_report_of_mem (hord : InOrder sha256 blocks) {t : Tx} (ht : t ∈ txnsOf blocks)
    {u : PartialUtxo} (hu : u ∈ newUtxosOf sha256 w.getPubkeys t) :
    txid sha256 t = u.outpoint.txid ∧ u.isSpent = false := by
  obtain ⟨i, output, -, -, rfl⟩ := (hord.mem_newUtxosOf ht).mp hu
  exact ⟨rfl, rfl⟩

/-- …and the coins of the wallet that it spends. -/
theorem spent_report_of_mem (hw : OfLedger sha256 blocks w) {t : Tx} {u : PartialUtxo}
    (hu : u ∈ spentUtxosOf w.getUtxos t) :
    Spends u.outpoint t ∧ mark w u.outpoint ≠ none ∧ u.isSpent = true := by
  obtain ⟨y, hy, ⟨input, hinput, -, hid, hidx⟩, rfl⟩ := mem_spentUtxosOf.mp hu
  obtain ⟨o, ho⟩ := mem_getUtxos.mp hy
  have hyo := (hw o y ho).1
  refine ⟨⟨input, hinput, hid.symm, hidx.symm⟩, ?_, rfl⟩
  change (w.coin y.outpoint).map PartialUtxo.isSpent ≠ none
  rw [hyo, ho]
  exact Option.some_ne_none _

theorem exists_spent_report (hord : InOrder sha256 blocks) (hw : OfLedger sha256 blocks w)
    (hx : x ∈ ledger sha256 w.getPubkeys blocks) (hheld : mark w x.outpoint ≠ none) {t : Tx}
    (hspends : Spends x.outpoint t) :
    ∃ u ∈ spentUtxosOf w.getUtxos t, u.outpoint = x.outpoint := by
  obtain ⟨y, hy⟩ : ∃ y, w.coin x.outpoint = some y :=
    Option.ne_none_iff_exists'.mp fun h => hheld (by rw [mark, h]; rfl)
  have hyo := (hw _ y hy).1
  obtain ⟨input, hinput, hid, hidx⟩ := hspends
  obtain ⟨t₀, ht₀, i, output, -, -, rfl⟩ := mem_ledger.mp hx
  refine ⟨{ y with isSpent := true }, mem_spentUtxosOf.mpr ⟨y, mem_getUtxos.mpr ⟨_, hy⟩,
    ⟨input, hinput, ?_, ?_, ?_⟩, rfl⟩, hyo⟩
  · rw [hid]
    exact hord.ne_zero t₀ ht₀
  · rw [hyo, hid]
  · rw [hyo, hidx]

/-- **A spend of a coin that the wallet holds decides its mark**: what comes after it cannot create
the coin. -/
theorem mark_of_sets (hord : InOrder sha256 blocks) (hw : OfLedger sha256 blocks w)
    (hbs : bs.Sublist blocks) (hx : x ∈ ledger sha256 w.getPubkeys blocks)
    (hheld : mark w x.outpoint ≠ none) (hsets : Sets x.outpoint bs) :
    (about x.outpoint (scanBlocks sha256 w.getPubkeys w.getUtxos bs)).getLast?.map
      PartialUtxo.isSpent = some true := by
  obtain ⟨t, ht, hspends⟩ := hsets
  obtain ⟨before, after, hsplit⟩ := List.append_of_mem ht
  have hsub : (before ++ t :: after).Sublist (txnsOf blocks) := hsplit ▸ txnsOf_sublist hbs
  have hlate : ∀ t' ∈ t :: after, txid sha256 t' ≠ x.outpoint.txid := by
    obtain ⟨input, hinput, hid, -⟩ := hspends
    intro t' ht' heq
    rcases List.mem_cons.mp ht' with rfl | ht'
    · exact hord.notSelf t' (hsub.subset (by simp)) input hinput (hid.trans heq.symm)
    · have hcausal := List.pairwise_append.mp (hord.causal.sublist hsub)
      exact (List.pairwise_cons.mp hcausal.2.1).1 t' ht' input hinput (hid.trans heq.symm)
  have hall : ∀ u ∈ about x.outpoint ((t :: after).flatMap
      (reportsOf sha256 w.getPubkeys w.getUtxos)), u.isSpent = true := by
    intro u hu
    obtain ⟨hout, t', ht', hu⟩ := mem_about_flatMap.mp hu
    rcases List.mem_append.mp hu with hnew | hspent
    · have htb := hsub.subset (List.mem_append_right before ht')
      have hid := (new_report_of_mem hord htb hnew).1
      exact absurd (hid.trans (by rw [hout])) (hlate t' ht')
    · exact (spent_report_of_mem hw hspent).2.2
  have hne : about x.outpoint ((t :: after).flatMap
      (reportsOf sha256 w.getPubkeys w.getUtxos)) ≠ [] := by
    obtain ⟨u, hu, hout⟩ := exists_spent_report hord hw hx hheld hspends
    exact List.ne_nil_of_mem
      (mem_about_flatMap.mpr ⟨hout, t, List.mem_cons_self, List.mem_append_right _ hu⟩)
  rw [scanBlocks_eq, hsplit, List.flatMap_append, about_append,
    List.getLast?_append_of_ne_nil _ hne]
  exact mark_of_forall hne hall

/-- Without one, the reports about the coin are those of its creation. -/
theorem about_of_not_sets (hord : InOrder sha256 blocks) (hw : OfLedger sha256 blocks w)
    (hbs : bs.Sublist blocks) {o : Wallet.OutPoint} (h : mark w o = none ∨ ¬Sets o bs)
    {u : PartialUtxo} (hu : u ∈ about o (scanBlocks sha256 w.getPubkeys w.getUtxos bs)) :
    Opens sha256 o bs ∧ u.isSpent = false := by
  rw [scanBlocks_eq] at hu
  obtain ⟨rfl, t, ht, hu⟩ := mem_about_flatMap.mp hu
  rcases List.mem_append.mp hu with hnew | hspent
  · obtain ⟨hid, hfalse⟩ := new_report_of_mem hord ((txnsOf_sublist hbs).subset ht) hnew
    exact ⟨⟨t, ht, hid⟩, hfalse⟩
  · obtain ⟨hspends, hheld, -⟩ := spent_report_of_mem hw hspent
    rcases h with h | h
    · exact absurd h hheld
    · exact absurd ⟨t, ht, hspends⟩ h

theorem about_ne_nil_of_opens (hord : InOrder sha256 blocks) (hbs : bs.Sublist blocks)
    (hx : x ∈ ledger sha256 w.getPubkeys blocks) (hopens : Opens sha256 x.outpoint bs) :
    about x.outpoint (scanBlocks sha256 w.getPubkeys w.getUtxos bs) ≠ [] := by
  obtain ⟨t, ht, hid⟩ := hopens
  obtain ⟨t₀, ht₀, i, output, hi, hs, rfl⟩ := mem_ledger.mp hx
  have htb := (txnsOf_sublist hbs).subset ht
  obtain rfl := hord.eq_of_txid_eq htb ht₀ hid
  rw [scanBlocks_eq]
  refine List.ne_nil_of_mem (a := coinOf sha256 t i output false) ?_
  refine mem_about_flatMap.mpr ⟨rfl, t, ht, List.mem_append_left _ ?_⟩
  exact (hord.mem_newUtxosOf htb).mpr ⟨i, output, hi, hs, rfl⟩

/-- **A scan moves the mark of a coin as its creation and its spends in the blocks say.** -/
theorem markStep_scan (hord : InOrder sha256 blocks) (hw : OfLedger sha256 blocks w)
    (hbs : bs.Sublist blocks) {v : PUnit}
    (h : insertUtxos (scanBlocks sha256 w.getPubkeys w.getUtxos bs) w = (.ok v, w'))
    (hx : x ∈ ledger sha256 w.getPubkeys blocks) :
    Batches.MarkStep (Opens sha256 x.outpoint) (Sets x.outpoint) bs (mark w x.outpoint)
      (mark w' x.outpoint) := by
  have hmark : mark w' x.outpoint = ((about x.outpoint
      (scanBlocks sha256 w.getPubkeys w.getUtxos bs)).getLast?.map PartialUtxo.isSpent).or
        (mark w x.outpoint) := by
    rw [mark, mark_scan hord hw hbs h hx, Option.map_map]
    exact congrFun Option.map_id _
  have hopened : mark w x.outpoint = none ∨ ¬Sets x.outpoint bs → Opens sha256 x.outpoint bs →
      mark w' x.outpoint = some false := by
    intro hquiet hopens
    rw [hmark, mark_of_forall (about_ne_nil_of_opens hord hbs hx hopens) fun u hu =>
      (about_of_not_sets hord hw hbs hquiet hu).2]
    rfl
  have hquiet : mark w x.outpoint = none ∨ ¬Sets x.outpoint bs → ¬Opens sha256 x.outpoint bs →
      mark w' x.outpoint = mark w x.outpoint := by
    intro hquiet hopens
    have hnil : about x.outpoint (scanBlocks sha256 w.getPubkeys w.getUtxos bs) = [] :=
      List.eq_nil_iff_forall_not_mem.mpr fun u hu =>
        hopens (about_of_not_sets hord hw hbs hquiet hu).1
    rw [hmark, hnil]
    rfl
  rcases hm : mark w x.outpoint with _ | b
  · exact ⟨hopened (.inl hm), fun ho => (hquiet (.inl hm) ho).trans hm⟩
  · refine ⟨fun hs => ?_, fun hs => hopened (.inr hs), fun hs ho => (hquiet (.inr hs) ho).trans hm⟩
    rw [hmark, mark_of_sets hord hw hbs hx (by rw [hm]; exact Option.some_ne_none b) hs]
    rfl

end Scan

/-! ## One call -/

/-- The block creates or spends a coin of the ledger. -/
def Touches (sha256 : List UInt8 → Bytes 32) (scripts : List Script) (blocks : List Block)
    (b : Block) : Prop :=
  ∃ x ∈ ledger sha256 scripts blocks, ∃ t ∈ b.txns,
    txid sha256 t = x.outpoint.txid ∨ Spends x.outpoint t

/-- The request for the blocks of some hashes. -/
def blockInv (present : List Hash256) : Inv :=
  { objects := present.map fun hash => { objType := 2, hash } }

/-- **A batch handed over by an honest peer**: one filter for each block, which matches if the block
touches the wallet, and the requested blocks served in order. -/
structure Handed (lib : ChainLib) (blocks : List Block) (x : ℕ × ℕ) (filters : List CompactFilter)
    (c : CompactChain Xpub) : Prop where
  hashes : filters.map CompactFilter.blockHash = (batchOf blocks x).map (blockHash lib.sha256)
  matched : ∀ y ∈ filters.zip (batchOf blocks x),
    Touches lib.sha256 c.wallet.getPubkeys blocks y.2 →
    lib.matchAny y.1.filterBytes y.1.blockHash c.wallet.getPubkeys = .ok true
  served : ∀ present bs p, lib.blockhashPresent c.wallet.getPubkeys filters = .ok present →
    Peer.fetchBlocks (blockInv present) c.p2p = (.ok bs, p) →
    bs.Sublist (batchOf blocks x) ∧ bs.map (blockHash lib.sha256) = present

namespace ChainLib

variable {lib : ChainLib} {filters : List CompactFilter} {c c' : CompactChain Xpub}

/-- **What a call that returns has done**: nothing if no filter matched, else a scan of the blocks it
got. -/
theorem fetchAndSaveUtxos_eq_ok {u : Unit} (h : lib.fetchAndSaveUtxos filters c = (.ok u, c')) :
    ∃ present, lib.blockhashPresent c.wallet.getPubkeys filters = .ok present
      ∧ ((present = [] ∧ c' = c) ∨ ∃ bs p v, Peer.fetchBlocks (blockInv present) c.p2p = (.ok bs, p)
        ∧ insertUtxos (scanBlocks lib.sha256 c.wallet.getPubkeys c.wallet.getUtxos bs) c.wallet
          = (.ok v, c'.wallet)) := by
  obtain ⟨pubKeys, c₁, hkeys, h₁⟩ := Op.bind_eq_ok.mp h
  cases hkeys
  obtain ⟨present, c₂, hlift, h₂⟩ := Op.bind_eq_ok.mp h₁
  obtain ⟨hpresent, rfl⟩ := Op.lift_eq_ok.mp hlift
  refine ⟨present, hpresent, ?_⟩
  split_ifs at h₂ with hnone
  · obtain ⟨-, rfl⟩ := Op.pure_eq_ok.mp h₂
    exact .inl ⟨List.isEmpty_iff.mp hnone, rfl⟩
  · obtain ⟨bs, c₃, hget, h₃⟩ := Op.bind_eq_ok.mp h₂
    obtain ⟨p, hp, rfl⟩ := Op.zoom_eq_ok.mp (Op.mapErr_eq_ok.mp hget)
    obtain ⟨utxos, c₄, hutxos, h₄⟩ := Op.bind_eq_ok.mp h₃
    cases hutxos
    obtain ⟨w', hw', rfl⟩ := Op.zoom_eq_ok.mp (Op.mapErr_eq_ok.mp h₄)
    exact .inr ⟨bs, p, u, hp, hw'⟩

/-- The wallet takes every report of a scan: a new coin has one of its scripts, a spent one is
known. -/
theorem insertUtxos_scan_ok {sha256 : List UInt8 → Bytes 32} {blocks bs : List Block}
    {w : WatchOnly Xpub} (hw : OfLedger sha256 blocks w) (sha256' : List UInt8 → Bytes 32) :
    ∃ w', insertUtxos (scanBlocks sha256' w.getPubkeys w.getUtxos bs) w = (.ok (), w') := by
  refine insertUtxos_ok fun u hu => ?_
  rw [scanBlocks_eq] at hu
  obtain ⟨t, -, hu⟩ := List.mem_flatMap.mp hu
  rcases List.mem_append.mp hu with hnew | hspent
  · obtain ⟨i, output, -, hs, rfl⟩ := mem_newUtxosOf.mp hnew
    refine .inr ?_
    have hmem := Std.TreeMap.mem_keys.mp hs
    rw [Std.TreeMap.getElem?_eq_some_getElem hmem]
    exact Option.some_ne_none _
  · refine .inl fun hnone => (spent_report_of_mem hw hspent).2.1 ?_
    rw [mark, hnone]
    rfl

/-- **A call that is served scans the blocks it gets.** -/
theorem fetchAndSaveUtxos_of_served {present : List Hash256} {bs : List Block} {p : Peer}
    {w' : WatchOnly Xpub} (hpresent : lib.blockhashPresent c.wallet.getPubkeys filters = .ok present)
    (hne : present ≠ []) (hget : Peer.fetchBlocks (blockInv present) c.p2p = (.ok bs, p))
    (hins : insertUtxos (scanBlocks lib.sha256 c.wallet.getPubkeys c.wallet.getUtxos bs)
      c.wallet = (.ok (), w')) :
    lib.fetchAndSaveUtxos filters c = (.ok (), { c with p2p := p, wallet := w' }) := by
  refine Op.bind_eq_ok.mpr ⟨c.wallet.getPubkeys, c, rfl, ?_⟩
  refine Op.bind_eq_ok.mpr ⟨present, c, Op.lift_eq_ok.mpr ⟨hpresent, rfl⟩, ?_⟩
  rw [if_neg (by simpa using hne)]
  refine Op.bind_eq_ok.mpr ⟨bs, { c with p2p := p },
    Op.mapErr_eq_ok.mpr (Op.zoom_eq_ok.mpr ⟨p, hget, rfl⟩), ?_⟩
  refine Op.bind_eq_ok.mpr ⟨c.wallet.getUtxos, _, rfl, ?_⟩
  exact Op.mapErr_eq_ok.mpr (Op.zoom_eq_ok.mpr ⟨w', hins, rfl⟩)

/-- …and one whose filters match nothing does nothing. -/
theorem fetchAndSaveUtxos_of_none (hpresent : lib.blockhashPresent c.wallet.getPubkeys filters = .ok []) :
    lib.fetchAndSaveUtxos filters c = (.ok (), c) := by
  refine Op.bind_eq_ok.mpr ⟨c.wallet.getPubkeys, c, rfl, ?_⟩
  exact Op.bind_eq_ok.mpr ⟨[], c, Op.lift_eq_ok.mpr ⟨hpresent, rfl⟩, rfl⟩

/-- **A call that fails leaves the wallet as it was.** -/
theorem wallet_of_fetchAndSaveUtxos_error {sha256 : List UInt8 → Bytes 32} {blocks : List Block}
    (hw : OfLedger sha256 blocks c.wallet) {e : Fault Error}
    (h : lib.fetchAndSaveUtxos filters c = (.error e, c')) : c'.wallet = c.wallet := by
  obtain h₁ | ⟨pubKeys, c₁, hkeys, h₁⟩ := Op.bind_eq_error.mp h
  · cases h₁
  cases hkeys
  obtain h₂ | ⟨present, c₂, hlift, h₂⟩ := Op.bind_eq_error.mp h₁
  · exact (congrArg (fun r => r.2.wallet) h₂).symm
  obtain ⟨-, rfl⟩ := Op.lift_eq_ok.mp hlift
  split_ifs at h₂
  · cases h₂
  obtain h₃ | ⟨bs, c₃, hget, h₃⟩ := Op.bind_eq_error.mp h₂
  · exact (congrArg (fun r => r.2.wallet) h₃).symm
  obtain ⟨p, -, rfl⟩ := Op.zoom_eq_ok.mp (Op.mapErr_eq_ok.mp hget)
  obtain h₄ | ⟨utxos, c₄, hutxos, h₄⟩ := Op.bind_eq_error.mp h₃
  · cases h₄
  cases hutxos
  obtain ⟨w', hw'⟩ : ∃ w', insertUtxos (scanBlocks lib.sha256 c.wallet.getPubkeys
    c.wallet.getUtxos bs) c.wallet = (.ok (), w') := insertUtxos_scan_ok hw lib.sha256
  have hfst := congrArg Prod.fst h₄
  change Outcome.mapErr _ (insertUtxos (scanBlocks lib.sha256 c.wallet.getPubkeys
    c.wallet.getUtxos bs) c.wallet).1 = .error e at hfst
  rw [hw'] at hfst
  cases hfst

/-- A filter that matches puts its block on the list. -/
theorem mem_blockhashPresent {pubKeys : List Script} {present : List Hash256}
    (h : lib.blockhashPresent pubKeys filters = .ok present) {f : CompactFilter} (hf : f ∈ filters)
    (hmatch : lib.matchAny f.filterBytes f.blockHash pubKeys = .ok true) : f.blockHash ∈ present := by
  obtain ⟨matched, hmatched, h⟩ := Outcome.bind_eq_ok.mp h
  cases h
  obtain ⟨i, hi⟩ := List.mem_iff_getElem?.mp hf
  obtain ⟨b, hb, hfb⟩ := Outcome.getElem?_of_mapM_eq_ok hmatched hi
  rw [hmatch] at hfb
  cases hfb
  exact List.reduceOption_mem_iff.mpr (List.mem_of_getElem? hb)

end ChainLib

section Step

variable {lib : ChainLib} {blocks : List Block} {x : ℕ × ℕ} {filters : List CompactFilter}
  {c c' : CompactChain Xpub}

/-- **A call scans a part of its batch that has every block touching the wallet.** -/
theorem Handed.exists_scan (hord : InOrder lib.sha256 blocks) (hh : Handed lib blocks x filters c)
    (h : lib.fetchAndSaveUtxos filters c = (.ok (), c')) :
    ∃ bs v, bs.Sublist (batchOf blocks x)
      ∧ (∀ b ∈ batchOf blocks x, Touches lib.sha256 c.wallet.getPubkeys blocks b → b ∈ bs)
      ∧ insertUtxos (scanBlocks lib.sha256 c.wallet.getPubkeys c.wallet.getUtxos bs) c.wallet
          = (.ok v, c'.wallet) := by
  obtain ⟨present, hpresent, hcall⟩ := ChainLib.fetchAndSaveUtxos_eq_ok h
  have hfound : ∀ bs : List Block, bs.Sublist (batchOf blocks x) →
      bs.map (blockHash lib.sha256) = present →
      ∀ b ∈ batchOf blocks x, Touches lib.sha256 c.wallet.getPubkeys blocks b → b ∈ bs := by
    intro bs hbs hhash b hb htouch
    obtain ⟨i, hi⟩ := List.mem_iff_getElem?.mp hb
    have hbi := congrArg (fun l : List Hash256 => l[i]?) hh.hashes
    simp only [List.getElem?_map, hi, Option.map_some] at hbi
    obtain ⟨f, hf, hfb⟩ := Option.map_eq_some_iff.mp hbi
    have hzip : (f, b) ∈ filters.zip (batchOf blocks x) :=
      List.mem_of_getElem? (i := i) (List.getElem?_zip_eq_some.mpr ⟨hf, hi⟩)
    have hmem := ChainLib.mem_blockhashPresent hpresent (List.mem_of_getElem? hf)
      (hh.matched _ hzip htouch)
    rw [hfb, ← hhash] at hmem
    obtain ⟨b', hb', hbb⟩ := List.mem_map.mp hmem
    have hin : batchOf blocks x ⊆ blocks := (batchOf_sublist x).subset
    rwa [← hord.hashes b' (hin (hbs.subset hb')) b (hin hb) hbb]
  obtain ⟨rfl, rfl⟩ | ⟨bs, p, v, hget, hins⟩ := hcall
  · exact ⟨[], (), List.nil_sublist _, hfound [] (List.nil_sublist _) rfl, rfl⟩
  · obtain ⟨hbs, hhash⟩ := hh.served present bs p hpresent hget
    exact ⟨bs, v, hbs, hfound bs hbs hhash, hins⟩

/-- **So a call moves each mark as its batch says**, whatever else the filters matched. -/
theorem Handed.step (hord : InOrder lib.sha256 blocks) (hw : OfLedger lib.sha256 blocks c.wallet)
    (hh : Handed lib blocks x filters c) (h : lib.fetchAndSaveUtxos filters c = (.ok (), c')) :
    OfLedger lib.sha256 blocks c'.wallet ∧ c'.wallet.getPubkeys = c.wallet.getPubkeys
      ∧ ∀ u ∈ ledger lib.sha256 c.wallet.getPubkeys blocks,
        Batches.MarkStep (fun y => Opens lib.sha256 u.outpoint (batchOf blocks y))
          (fun y => Sets u.outpoint (batchOf blocks y)) x (mark c.wallet u.outpoint)
          (mark c'.wallet u.outpoint) := by
  obtain ⟨bs, v, hbs, hall, hins⟩ := hh.exists_scan hord h
  have hsub := hbs.trans (batchOf_sublist x)
  refine ⟨hw.scan hord hsub hins, getPubkeys_of_insertUtxos hins, fun u hu => ?_⟩
  have hiff : ∀ P : Tx → Prop, (∀ t, P t → txid lib.sha256 t = u.outpoint.txid ∨ Spends u.outpoint t) →
      ((∃ t ∈ txnsOf bs, P t) ↔ ∃ t ∈ txnsOf (batchOf blocks x), P t) := by
    intro P hP
    constructor
    · rintro ⟨t, ht, htP⟩
      exact ⟨t, (txnsOf_sublist hbs).subset ht, htP⟩
    · rintro ⟨t, ht, htP⟩
      obtain ⟨b, hb, htb⟩ := mem_txnsOf.mp ht
      exact ⟨t, mem_txnsOf.mpr ⟨b, hall b hb ⟨u, hu, t, htb, hP t htP⟩, htb⟩, htP⟩
  have hopens : Opens lib.sha256 u.outpoint bs ↔ Opens lib.sha256 u.outpoint (batchOf blocks x) :=
    hiff _ fun _ => .inl
  have hsets : Sets u.outpoint bs ↔ Sets u.outpoint (batchOf blocks x) := hiff _ fun _ => .inr
  exact (markStep_scan hord hw hsub hins hu).congr hopens hsets

end Step

end Bitspend.Chain
