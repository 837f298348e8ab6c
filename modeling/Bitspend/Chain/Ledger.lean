import Bitspend.Chain.CompactChain
import Bitspend.Machinery.Batches
import Mathlib.Data.List.Flatten
import Mathlib.Data.List.Sigma

/-!
# Chain/Ledger — the coins of a sequence of blocks

What a wallet that watches some scripts is meant to hold once it has seen a sequence of blocks: every
output to one of the scripts, marked as spent if an input of the blocks refers to it.  `InOrder` is
what the blocks of a chain satisfy: transactions have distinct ids and only spend earlier ones.
-/

namespace Bitspend.Chain

open Wire Wallet

/-- The id of a transaction: the hash of its serialization without witnesses. -/
def txid (sha256 : List UInt8 → Bytes 32) (t : Tx) : Hash256 :=
  sha256d sha256 (emitted { t with flag := none, witnesses := none }.write)

/-- The transactions of the blocks, in order. -/
def txnsOf (blocks : List Block) : List Tx := blocks.flatMap Block.txns

/-- An input of the transaction refers to the outpoint. -/
def Spends (o : Wallet.OutPoint) (t : Tx) : Prop :=
  ∃ input ∈ t.inputs, input.prevOutput.hash = o.txid ∧ input.prevOutput.index = o.vout

instance (o : Wallet.OutPoint) (t : Tx) : Decidable (Spends o t) :=
  inferInstanceAs (Decidable (∃ input ∈ t.inputs, _))

/-- The coin of an output, marked as spent or not. -/
def coinOf (sha256 : List UInt8 → Bytes 32) (t : Tx) (i : ℕ) (output : Wire.TxOut) (isSpent : Bool) :
    PartialUtxo :=
  { outpoint := { txid := txid sha256 t, vout := UInt32.ofNat i }
    amount := output.satoshis.toInt.toNat
    script := output.lockScript
    isSpent }

/-- **The coins of the blocks** for a list of scripts. -/
def ledger (sha256 : List UInt8 → Bytes 32) (scripts : List Script) (blocks : List Block) :
    List PartialUtxo :=
  (txnsOf blocks).flatMap fun t => t.outputs.zipIdx.filterMap fun x =>
    if x.1.lockScript ∈ scripts then
      some (coinOf sha256 t x.2 x.1 (decide (∃ t' ∈ txnsOf blocks,
        Spends { txid := txid sha256 t, vout := UInt32.ofNat x.2 } t')))
    else none

/-- The hash of a block. -/
def blockHash (sha256 : List UInt8 → Bytes 32) (b : Block) : Hash256 := b.header.hash sha256

/-- **Blocks of a chain, in order**, as a peer serves them when not asked for witnesses. -/
structure InOrder (sha256 : List UInt8 → Bytes 32) (blocks : List Block) : Prop where
  stripped : ∀ t ∈ txnsOf blocks, t.witnesses = none
  distinct : (txnsOf blocks).Pairwise fun t t' => txid sha256 t ≠ txid sha256 t'
  /-- No input refers to a later transaction… -/
  causal : (txnsOf blocks).Pairwise fun t t' =>
    ∀ input ∈ t.inputs, input.prevOutput.hash ≠ txid sha256 t'
  /-- …nor to its own. -/
  notSelf : ∀ t ∈ txnsOf blocks, ∀ input ∈ t.inputs, input.prevOutput.hash ≠ txid sha256 t
  /-- The zero hash is the mark of a coinbase input. -/
  ne_zero : ∀ t ∈ txnsOf blocks, txid sha256 t ≠ NO_HASH_STOP
  count : ∀ t ∈ txnsOf blocks, t.outputs.length ≤ 2 ^ 32
  value : ∀ t ∈ txnsOf blocks, ∀ output ∈ t.outputs,
    0 ≤ output.satoshis.toInt ∧ output.satoshis.toInt ≤ 21 * 10 ^ 14
  hashes : ∀ b ∈ blocks, ∀ b' ∈ blocks, blockHash sha256 b = blockHash sha256 b' → b = b'

/-- The blocks of a batch. -/
def batchOf (blocks : List Block) (t : ℕ × ℕ) : List Block := (blocks.drop t.1).take (t.2 - t.1)

/-! ## Membership -/

section

variable {sha256 : List UInt8 → Bytes 32} {scripts : List Script} {blocks : List Block}

theorem mem_ledger {u : PartialUtxo} :
    u ∈ ledger sha256 scripts blocks ↔ ∃ t ∈ txnsOf blocks, ∃ i output,
      t.outputs[i]? = some output ∧ output.lockScript ∈ scripts
      ∧ u = coinOf sha256 t i output
          (decide (∃ t' ∈ txnsOf blocks, Spends (coinOf sha256 t i output false).outpoint t')) := by
  simp only [ledger, List.mem_flatMap, List.mem_filterMap, Option.ite_none_right_eq_some,
    Option.some.injEq]
  constructor
  · rintro ⟨t, ht, ⟨output, i⟩, hx, hs, rfl⟩
    exact ⟨t, ht, i, output, List.mem_zipIdx_iff_getElem?.mp hx, hs, rfl⟩
  · rintro ⟨t, ht, i, output, hi, hs, rfl⟩
    exact ⟨t, ht, (output, i), List.mem_zipIdx_iff_getElem?.mpr hi, hs, rfl⟩

theorem isSpent_of_mem_ledger {u : PartialUtxo} (hu : u ∈ ledger sha256 scripts blocks) :
    u.isSpent = true ↔ ∃ t ∈ txnsOf blocks, Spends u.outpoint t := by
  obtain ⟨t, -, i, output, -, -, rfl⟩ := mem_ledger.mp hu
  exact decide_eq_true_iff

theorem exists_tx_of_mem_ledger {u : PartialUtxo} (hu : u ∈ ledger sha256 scripts blocks) :
    ∃ t ∈ txnsOf blocks, txid sha256 t = u.outpoint.txid := by
  obtain ⟨t, ht, i, output, -, -, rfl⟩ := mem_ledger.mp hu
  exact ⟨t, ht, rfl⟩

theorem mem_batchOf {t : ℕ × ℕ} {b : Block} :
    b ∈ batchOf blocks t ↔ ∃ k, Batches.Holds t k ∧ blocks[k]? = some b := by
  simp only [batchOf, List.mem_iff_getElem?, List.getElem?_take, List.getElem?_drop,
    Option.ite_none_right_eq_some]
  constructor
  · rintro ⟨i, hlt, hi⟩
    exact ⟨t.1 + i, ⟨by omega, by omega⟩, hi⟩
  · rintro ⟨k, ⟨hlo, hhi⟩, hk⟩
    refine ⟨k - t.1, by omega, ?_⟩
    rw [Nat.add_sub_cancel' hlo]
    exact hk

theorem batchOf_sublist (t : ℕ × ℕ) : (batchOf blocks t).Sublist blocks :=
  (List.take_sublist _ _).trans (List.drop_sublist _ _)

theorem mem_txnsOf {t : Tx} : t ∈ txnsOf blocks ↔ ∃ b ∈ blocks, t ∈ b.txns := List.mem_flatMap

theorem txnsOf_sublist {bs : List Block} (h : bs.Sublist blocks) :
    (txnsOf bs).Sublist (txnsOf blocks) := h.flatMap _

/-! ## Positions -/

/-- The block at the position has a transaction with the property. -/
def At (blocks : List Block) (P : Tx → Prop) (k : ℕ) : Prop :=
  ∃ b, blocks[k]? = some b ∧ ∃ t ∈ b.txns, P t

/-- A batch has such a transaction exactly when it holds such a position. -/
theorem exists_txnsOf_batchOf {P : Tx → Prop} {x : ℕ × ℕ} :
    (∃ t ∈ txnsOf (batchOf blocks x), P t) ↔ Batches.Has (At blocks P) x := by
  constructor
  · rintro ⟨t, ht, hP⟩
    obtain ⟨b, hb, ht⟩ := mem_txnsOf.mp ht
    obtain ⟨k, hk, hb⟩ := mem_batchOf.mp hb
    exact ⟨k, ⟨b, hb, t, ht, hP⟩, hk⟩
  · rintro ⟨k, ⟨b, hb, t, ht, hP⟩, hk⟩
    exact ⟨t, mem_txnsOf.mpr ⟨b, mem_batchOf.mpr ⟨k, hk, hb⟩, ht⟩, hP⟩

theorem exists_at {P : Tx → Prop} {t : Tx} (ht : t ∈ txnsOf blocks) (hP : P t) :
    ∃ k, At blocks P k := by
  obtain ⟨b, hb, ht⟩ := mem_txnsOf.mp ht
  obtain ⟨k, hk⟩ := List.mem_iff_getElem?.mp hb
  exact ⟨k, b, hk, t, ht, hP⟩

theorem At.lt {P : Tx → Prop} {k : ℕ} (h : At blocks P k) : k < blocks.length := by
  obtain ⟨b, hb, -⟩ := h
  exact (List.getElem?_eq_some_iff.mp hb).1

/-- Two positions in the wrong order carry what a relation on the transactions says of them. -/
theorem rel_of_lt {R : Tx → Tx → Prop} (hR : (txnsOf blocks).Pairwise R) {i k : ℕ} (hik : i < k)
    {b b' : Block} (hb : blocks[i]? = some b) (hb' : blocks[k]? = some b') {t t' : Tx}
    (ht : t ∈ b.txns) (ht' : t' ∈ b'.txns) : R t t' := by
  have hblocks := (List.pairwise_flatMap.mp hR).2
  obtain ⟨hi, rfl⟩ := List.getElem?_eq_some_iff.mp hb
  obtain ⟨hk, rfl⟩ := List.getElem?_eq_some_iff.mp hb'
  exact List.pairwise_iff_getElem.mp hblocks i k hi hk hik t ht t' ht'

namespace InOrder

variable (hord : InOrder sha256 blocks)

include hord

theorem hash_eq_txid {t : Tx} (ht : t ∈ txnsOf blocks) : t.hash sha256 = txid sha256 t := by
  have h := hord.stripped t ht
  unfold Tx.hash txid Tx.write
  rw [h]
  rfl

/-- **A transaction is at one position.** -/
theorem at_unique {h : Hash256} {i k : ℕ} (hi : At blocks (fun t => txid sha256 t = h) i)
    (hk : At blocks (fun t => txid sha256 t = h) k) : i = k := by
  obtain ⟨b, hb, t, ht, hid⟩ := hi
  obtain ⟨b', hb', t', ht', hid'⟩ := hk
  rcases Nat.lt_trichotomy i k with hlt | heq | hlt
  · exact absurd (hid.trans hid'.symm) (rel_of_lt hord.distinct hlt hb hb' ht ht')
  · exact heq
  · exact absurd (hid'.trans hid.symm) (rel_of_lt hord.distinct hlt hb' hb ht' ht)

/-- **A transaction is not spent before its own position.** -/
theorem at_le {o : Wallet.OutPoint} {i j : ℕ}
    (hi : At blocks (fun t => txid sha256 t = o.txid) i) (hj : At blocks (Spends o) j) : i ≤ j := by
  obtain ⟨b, hb, t, ht, hid⟩ := hi
  obtain ⟨b', hb', t', ht', input, hinput, hhash, -⟩ := hj
  by_contra hlt
  exact rel_of_lt hord.causal (Nat.lt_of_not_le hlt) hb' hb ht' ht input hinput
    (hhash.trans hid.symm)

/-- **A transaction is known by its id**… -/
theorem eq_of_txid_eq {t t' : Tx} (ht : t ∈ txnsOf blocks) (ht' : t' ∈ txnsOf blocks)
    (h : txid sha256 t = txid sha256 t') : t = t' := by
  have hnodup : ((txnsOf blocks).map (txid sha256)).Nodup := List.pairwise_map.mpr hord.distinct
  exact List.inj_on_of_nodup_map hnodup ht ht' h

theorem index_inj {t : Tx} (ht : t ∈ txnsOf blocks) {i k : ℕ} {output output' : Wire.TxOut}
    (hi : t.outputs[i]? = some output) (hk : t.outputs[k]? = some output')
    (h : UInt32.ofNat i = UInt32.ofNat k) : i = k := by
  have hcount := hord.count t ht
  have hi' := (List.getElem?_eq_some_iff.mp hi).1
  have hk' := (List.getElem?_eq_some_iff.mp hk).1
  have hnat := congrArg UInt32.toNat h
  rw [UInt32.toNat_ofNat', UInt32.toNat_ofNat'] at hnat
  omega

/-- **…and an output by its outpoint.** -/
theorem eq_of_outpoint_eq {t t' : Tx} (ht : t ∈ txnsOf blocks) (ht' : t' ∈ txnsOf blocks)
    {i k : ℕ} {output output' : Wire.TxOut} (hi : t.outputs[i]? = some output)
    (hk : t'.outputs[k]? = some output') {b b' : Bool}
    (h : (coinOf sha256 t i output b).outpoint = (coinOf sha256 t' k output' b').outpoint) :
    t = t' ∧ i = k ∧ output = output' := by
  obtain ⟨hid, hidx⟩ := (Wallet.OutPoint.mk.injEq ..).mp h
  obtain rfl := hord.eq_of_txid_eq ht ht' hid
  obtain rfl := hord.index_inj ht hi hk hidx
  exact ⟨rfl, rfl, Option.some_inj.mp (hi.symm.trans hk)⟩

theorem eq_of_mem_ledger {u u' : PartialUtxo} (hu : u ∈ ledger sha256 scripts blocks)
    (hu' : u' ∈ ledger sha256 scripts blocks) (h : u.outpoint = u'.outpoint) : u = u' := by
  obtain ⟨t, ht, i, output, hi, -, rfl⟩ := mem_ledger.mp hu
  obtain ⟨t', ht', k, output', hk, -, rfl⟩ := mem_ledger.mp hu'
  obtain ⟨rfl, rfl, rfl⟩ := hord.eq_of_outpoint_eq ht ht' hi hk h
  rfl

theorem nodup_ledger (scripts : List Script) : (ledger sha256 scripts blocks).Nodup := by
  refine List.pairwise_flatMap.mpr ⟨fun t ht => ?_, hord.distinct.imp ?_⟩
  · have hidx : t.outputs.zipIdx.Pairwise fun x y => x.2 ≠ y.2 :=
      List.pairwise_map.mp (List.nodup_zipIdx_map_snd t.outputs)
    refine List.pairwise_filterMap.mpr (hidx.imp_of_mem ?_)
    rintro ⟨output, i⟩ ⟨output', k⟩ hx hy hne u hu u' hu' rfl
    obtain ⟨-, hu⟩ := Option.ite_none_right_eq_some.mp hu
    obtain ⟨-, hu'⟩ := Option.ite_none_right_eq_some.mp hu'
    have hout := congrArg PartialUtxo.outpoint
      ((Option.some_inj.mp hu).trans (Option.some_inj.mp hu').symm)
    exact hne (hord.eq_of_outpoint_eq ht ht (List.mem_zipIdx_iff_getElem?.mp hx)
      (List.mem_zipIdx_iff_getElem?.mp hy) hout).2.1
  · intro t t' hne u hu u' hu'
    rintro rfl
    obtain ⟨x, -, hx⟩ := List.mem_filterMap.mp hu
    obtain ⟨y, -, hy⟩ := List.mem_filterMap.mp hu'
    obtain ⟨-, hx⟩ := Option.ite_none_right_eq_some.mp hx
    obtain ⟨-, hy⟩ := Option.ite_none_right_eq_some.mp hy
    have hout := congrArg PartialUtxo.outpoint
      ((Option.some_inj.mp hx).trans (Option.some_inj.mp hy).symm)
    exact hne ((Wallet.OutPoint.mk.injEq ..).mp hout).1

end InOrder

end

end Bitspend.Chain
