import Bitspend.Chain.Agreement
import Bitspend.Filter.Matching
import Mathlib.Data.List.Dedup

/-!
# Chain/BasicFilters — the chain over filters that are read

`chain.rs` asks `block_filter.rs` whether a filter matches the scripts of the wallet; here the one is put
over the other.  The filters themselves are made by peers, from the scripts that a block creates and
spends (`basicElements`).  `blockhashPresent_basicFilters`: then the blocks that are asked for are known,
they are those with an element that falls where a script of the wallet does, and no block that touches
the wallet is missing among them.
-/

namespace Bitspend.Chain

open Wire Wallet Bitspend.Filter GcsFilterReader

/-! ## What a service of filters offers -/

/-- **Filters for the blocks of a chain**: their bytes, and which of them match the scripts.  A block
that touches the wallet is matched. -/
structure FilterService (lib : ChainLib) (blocks : List Block) (scripts : List Script) where
  bytes : Block → List UInt8
  picks : Block → Bool
  matchAny_eq : ∀ b ∈ blocks,
    lib.matchAny (bytes b) (blockHash lib.sha256 b) scripts = .ok (picks b)
  picks_of_touches : ∀ b ∈ blocks, Touches lib.sha256 scripts blocks b → picks b = true

namespace FilterService

variable {lib : ChainLib} {blocks : List Block} {scripts : List Script}

/-- The filter of a block, as it is sent. -/
def filter (svc : FilterService lib blocks scripts) (b : Block) : CompactFilter :=
  { filterType := 0, blockHash := blockHash lib.sha256 b, filterBytes := svc.bytes b }

/-- **The blocks on the list are those that the service picks.** -/
theorem blockhashPresent_eq (svc : FilterService lib blocks scripts) {bs : List Block}
    (hbs : bs ⊆ blocks) :
    lib.blockhashPresent scripts (bs.map svc.filter)
      = .ok ((bs.filter svc.picks).map (blockHash lib.sha256)) := by
  have hmatched : (bs.map svc.filter).mapM (fun f => do
      let result ← Outcome.expectOk "error matching Filters"
        (lib.matchAny f.filterBytes f.blockHash scripts)
      (pure (if result then some f.blockHash else none) : Outcome Error (Option Hash256)))
      = .ok (bs.map fun b => if svc.picks b then some (blockHash lib.sha256 b) else none) := by
    rw [List.mapM_map]
    refine Outcome.mapM_ok fun b hb => ?_
    change (Outcome.expectOk _ (lib.matchAny (svc.bytes b) (blockHash lib.sha256 b) scripts) >>= _) = _
    rw [svc.matchAny_eq b (hbs hb)]
    rfl
  rw [ChainLib.blockhashPresent, hmatched]
  refine congrArg Except.ok ?_
  clear hbs hmatched
  induction bs with
  | nil => rfl
  | cons b bs ih =>
    rw [List.map_cons, List.filter_cons]
    cases svc.picks b with
    | false => exact ih
    | true => exact congrArg (blockHash lib.sha256 b :: ·) ih

end FilterService

/-! ## The filter of a block -/

/-- `OP_RETURN`. -/
def OP_RETURN : UInt8 := 0x6a

section Basic

variable (sip : SipHash) (sha256 : List UInt8 → Bytes 32) (blocks : List Block)

/-- The script of the output that an input spends. -/
def spentScript (input : Wire.TxIn) : Option Script := do
  let t ← (txnsOf blocks).find? fun t => decide (txid sha256 t = input.prevOutput.hash)
  let output ← t.outputs[input.prevOutput.index.toNat]?
  pure output.lockScript

/-- **What goes into the filter of a block**: the scripts of its outputs, other than `OP_RETURN` ones,
and of the outputs that it spends, each once and none that is empty. -/
def basicElements (b : Block) : List Script :=
  ((b.txns.flatMap fun t =>
      (t.outputs.map TxOut.lockScript).filter (fun s => s.head? ≠ some OP_RETURN)
        ++ t.inputs.filterMap (spentScript sha256 blocks)).filter fun s => s ≠ []).dedup

/-- Where a script falls in the filter of a block with so many elements. -/
def place (hash : Hash256) (n : ℕ) (s : Script) : UInt64 :=
  mapToRange ((blockFilterReader hash).filter.hash sip s) (UInt64.ofNat (n * M.toNat))

/-- **The basic filter of a block**, as a peer makes it. -/
def basicFilter (b : Block) : List UInt8 :=
  gcsContent (mapped sip (blockFilterReader (blockHash sha256 b))
    (UInt64.ofNat (basicElements sha256 blocks b).length) (basicElements sha256 blocks b))

/-- An element of the block falls where a script does; without scripts every filter matches. -/
def Hits (scripts : List Script) (b : Block) : Prop :=
  scripts = [] ∨ ∃ q ∈ scripts, ∃ e ∈ basicElements sha256 blocks b,
    place sip (blockHash sha256 b) (basicElements sha256 blocks b).length q
      = place sip (blockHash sha256 b) (basicElements sha256 blocks b).length e

instance (scripts : List Script) (b : Block) : Decidable (Hits sip sha256 blocks scripts b) :=
  inferInstanceAs (Decidable (_ ∨ _))

end Basic

/-- `match_any` of `block_filter.rs`, as `chain.rs` calls it. -/
def filterMatch (sip : SipHash) (bytes : List UInt8) (hash : Hash256) (scripts : List Script) :
    Outcome Error Bool :=
  Outcome.mapErr (fun
    | .other msg => .ioError { kind := .other, msg }) (BlockFilter.matchAny sip ⟨bytes⟩ hash scripts)

/-- The chain over the filter reader. -/
def readingLib (sha256 : List UInt8 → Bytes 32) (sip : SipHash) : ChainLib :=
  { sha256, matchAny := filterMatch sip }

/-! ## Matching it -/

theorem mapToRange_lt (hash : UInt64) {nm : UInt64} (h : 0 < nm.toNat) :
    (mapToRange hash nm).toNat < nm.toNat := by
  have hlt : (hash.toNat * nm.toNat) >>> 64 < nm.toNat := by
    rw [Nat.shiftRight_eq_div_pow, Nat.div_lt_iff_lt_mul (by decide), Nat.mul_comm]
    exact Nat.mul_lt_mul_of_pos_left (UInt64.toNat_lt hash) h
  rwa [mapToRange, UInt64.toNat_ofNat_of_lt' (hlt.trans (UInt64.toNat_lt nm))]

section Match

variable {sip : SipHash} {sha256 : List UInt8 → Bytes 32} {blocks : List Block}

/-- **A basic filter is matched by the scripts that hit it.** -/
theorem filterMatch_basicFilter {b : Block}
    (hsize : (basicElements sha256 blocks b).length * M.toNat < 2 ^ 64) (scripts : List Script) :
    filterMatch sip (basicFilter sip sha256 blocks b) (blockHash sha256 b) scripts
      = .ok (decide (Hits sip sha256 blocks scripts b)) := by
  have hlen : (mapped sip (blockFilterReader (blockHash sha256 b))
      (UInt64.ofNat (basicElements sha256 blocks b).length) (basicElements sha256 blocks b)).length
      = (basicElements sha256 blocks b).length := by
    rw [mapped, List.length_mergeSort, List.length_map]
  have hnm : UInt64.ofNat (basicElements sha256 blocks b).length * M
      = UInt64.ofNat ((basicElements sha256 blocks b).length * M.toNat) := by
    rw [UInt64.ofNat_mul, UInt64.ofNat_toNat]
  have hbelow : ∀ v ∈ mapped sip (blockFilterReader (blockHash sha256 b))
      (UInt64.ofNat (basicElements sha256 blocks b).length) (basicElements sha256 blocks b),
      v.toNat < (basicElements sha256 blocks b).length * M.toNat := by
    intro v hv
    obtain ⟨e, he, rfl⟩ := mem_mapped.mp hv
    have hto : (UInt64.ofNat ((basicElements sha256 blocks b).length * M.toNat)).toNat
        = (basicElements sha256 blocks b).length * M.toNat := UInt64.toNat_ofNat_of_lt' hsize
    have hpos : 0 < (basicElements sha256 blocks b).length * M.toNat :=
      Nat.mul_pos (List.length_pos_of_mem he) (by decide)
    change (mapToRange _ (UInt64.ofNat (basicElements sha256 blocks b).length * M)).toNat < _
    rw [hnm]
    exact (mapToRange_lt _ (by rwa [hto])).trans_eq hto
  have hmatch := matchAny_gcsContent sip
    (UInt64.ofNat (ofLE ((blockHash sha256 b).toList.take 8)))
    (UInt64.ofNat (ofLE (((blockHash sha256 b).toList.drop 8).take 8))) M scripts
    (pairwise_mapped sip (blockFilterReader (blockHash sha256 b))
      (UInt64.ofNat (basicElements sha256 blocks b).length) (basicElements sha256 blocks b))
    (by rwa [hlen]) (by rwa [hlen])
  rw [filterMatch, BlockFilter.matchAny]
  refine (congrArg (Outcome.mapErr _) hmatch).trans (congrArg Except.ok (decide_eq_decide.mpr ?_))
  refine or_congr Iff.rfl (exists_congr fun q => and_congr Iff.rfl ?_)
  rw [hlen, mem_mapped]
  refine exists_congr fun e => and_congr Iff.rfl ?_
  change mapToRange _ (UInt64.ofNat (basicElements sha256 blocks b).length * M) = _ ↔ _
  rw [hnm, eq_comm]
  rfl

/-- **A block that touches the wallet has one of its scripts for an element.** -/
theorem exists_element_of_touches (hord : InOrder sha256 blocks) {scripts : List Script}
    (hscripts : ∀ s ∈ scripts, s ≠ [] ∧ s.head? ≠ some OP_RETURN) {b : Block} (hb : b ∈ blocks)
    (h : Touches sha256 scripts blocks b) : ∃ s ∈ scripts, s ∈ basicElements sha256 blocks b := by
  obtain ⟨x, hx, t, ht, hid⟩ := h
  obtain ⟨t₀, ht₀, i, output, hi, hs, rfl⟩ := mem_ledger.mp hx
  obtain ⟨hne, hreturn⟩ := hscripts _ hs
  refine ⟨output.lockScript, hs, ?_⟩
  rw [basicElements, List.mem_dedup, List.mem_filter, List.mem_flatMap]
  refine ⟨⟨t, ht, ?_⟩, by simpa using hne⟩
  rcases hid with hid | ⟨input, hinput, hhash, hindex⟩
  · obtain rfl := hord.eq_of_txid_eq (mem_txnsOf.mpr ⟨b, hb, ht⟩) ht₀ hid
    refine List.mem_append_left _ (List.mem_filter.mpr ⟨?_, by simpa using hreturn⟩)
    exact List.mem_map_of_mem (List.mem_of_getElem? hi)
  · -- the input's transaction is the only one with that id
    refine List.mem_append_right _ (List.mem_filterMap.mpr ⟨input, hinput, ?_⟩)
    have hfind : (txnsOf blocks).find? (fun t => decide (txid sha256 t = input.prevOutput.hash))
        = some t₀ := by
      obtain ⟨t', ht'⟩ := Option.ne_none_iff_exists'.mp (show (txnsOf blocks).find?
          (fun t => decide (txid sha256 t = input.prevOutput.hash)) ≠ none from fun hnone =>
        List.find?_eq_none.mp hnone t₀ ht₀ (decide_eq_true hhash.symm))
      have heq : txid sha256 t' = input.prevOutput.hash := by simpa using List.find?_some ht'
      rw [ht', hord.eq_of_txid_eq (List.mem_of_find?_eq_some ht') ht₀ (heq.trans hhash)]
    have hlt := (List.getElem?_eq_some_iff.mp hi).1
    have hto : (UInt32.ofNat i).toNat = i :=
      UInt32.toNat_ofNat_of_lt' (hlt.trans_le (hord.count t₀ ht₀))
    have hget : t₀.outputs[input.prevOutput.index.toNat]? = some output := by
      rw [hindex]
      change t₀.outputs[(UInt32.ofNat i).toNat]? = _
      rw [hto, hi]
    rw [spentScript, hfind]
    change (t₀.outputs[input.prevOutput.index.toNat]? >>= _) = _
    rw [hget]
    rfl

variable (sip) in
/-- **A peer that makes the filters serves them.** -/
def basicService (hord : InOrder sha256 blocks)
    (hsize : ∀ b ∈ blocks, (basicElements sha256 blocks b).length * M.toNat < 2 ^ 64)
    {scripts : List Script} (hscripts : ∀ s ∈ scripts, s ≠ [] ∧ s.head? ≠ some OP_RETURN) :
    FilterService (readingLib sha256 sip) blocks scripts where
  bytes := basicFilter sip sha256 blocks
  picks := fun b => decide (Hits sip sha256 blocks scripts b)
  matchAny_eq := fun _ hb => filterMatch_basicFilter (hsize _ hb) scripts
  picks_of_touches := fun _ hb htouch => by
    obtain ⟨s, hs, hmem⟩ := exists_element_of_touches hord hscripts hb htouch
    exact decide_eq_true (.inr ⟨s, hs, s, hmem, rfl⟩)

/-- **The blocks that are asked for, over basic filters.**  For any blocks of a chain and scripts that
a filter can hold, the filters are read without a failure, a block is on the list exactly when a script
hits its filter, and every block that touches the wallet is on it. -/
theorem blockhashPresent_basicFilters (sip : SipHash) (hord : InOrder sha256 blocks)
    (hsize : ∀ b ∈ blocks, (basicElements sha256 blocks b).length * M.toNat < 2 ^ 64)
    {scripts : List Script} (hscripts : ∀ s ∈ scripts, s ≠ [] ∧ s.head? ≠ some OP_RETURN)
    {bs : List Block} (hbs : bs ⊆ blocks) :
    (readingLib sha256 sip).blockhashPresent scripts (bs.map fun b =>
        { filterType := 0, blockHash := blockHash sha256 b
          filterBytes := basicFilter sip sha256 blocks b })
      = .ok ((bs.filter fun b => Hits sip sha256 blocks scripts b).map (blockHash sha256))
    ∧ ∀ b ∈ bs, Touches sha256 scripts blocks b → b ∈ bs.filter fun b =>
        Hits sip sha256 blocks scripts b := by
  refine ⟨(basicService sip hord hsize hscripts).blockhashPresent_eq hbs, fun b hb htouch => ?_⟩
  exact List.mem_filter.mpr ⟨hb, (basicService sip hord hsize hscripts).picks_of_touches b (hbs hb) htouch⟩

end Match

/-- The hash of a script is its first byte, in the upper bits. -/
def headSip : SipHash := fun _ _ s => UInt64.ofNat ((s.head?.getD 0).toNat * 2 ^ 56)

/-- The coinbase and its spend are both asked for. -/
theorem blockhashPresent_basicFilters_twoBlocks :
    (readingLib headHash headSip).blockhashPresent [[0x51]] (twoBlocks.map fun b =>
        { filterType := 0, blockHash := blockHash headHash b
          filterBytes := basicFilter headSip headHash twoBlocks b })
      = .ok (twoBlocks.map (blockHash headHash)) := by
  have hsize : ∀ b ∈ twoBlocks, (basicElements headHash twoBlocks b).length * M.toNat < 2 ^ 64 := by
    decide +kernel
  have hall : twoBlocks.filter (fun b => Hits headSip headHash twoBlocks [[0x51]] b) = twoBlocks := by
    decide +kernel
  have hscripts : ∀ s ∈ ([[0x51]] : List Script), s ≠ [] ∧ s.head? ≠ some OP_RETURN := by decide
  have h := (blockhashPresent_basicFilters headSip inOrder_twoBlocks hsize hscripts
    (List.Subset.refl twoBlocks)).1
  rwa [hall] at h

end Bitspend.Chain
