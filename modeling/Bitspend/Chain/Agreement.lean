import Bitspend.Chain.Scan

/-!
# Chain/Agreement — the wallet against the chain it was shown

The blocks of a chain are handed over in batches, some of them again after a failure.  A coin that is
created and spent within one batch is filed as unspent, and corrected only if its spending block
comes again in a later batch.  This is the one way in which the wallet comes to differ from the
ledger of the chain.
-/

namespace Bitspend.Chain

open Wire Wallet WatchOnly

variable {Xpub : Type}

/-! ## Runs of calls -/

/-- **The chain after a sequence of batches**, in each of which calls may fail first.  Between two
calls the peer may change. -/
inductive BatchRun (lib : ChainLib) (blocks : List Block) :
    List (ℕ × ℕ) → CompactChain Xpub → CompactChain Xpub → Prop
  | done (c : CompactChain Xpub) : BatchRun lib blocks [] c c
  | batch {x : ℕ × ℕ} {ts : List (ℕ × ℕ)} {filters : List CompactFilter}
    {c c₁ c₂ : CompactChain Xpub} (p2p : Peer) :
    Handed lib blocks x filters c → lib.fetchAndSaveUtxos filters c = (.ok (), c₁) →
    BatchRun lib blocks ts { c₁ with p2p } c₂ → BatchRun lib blocks (x :: ts) c c₂
  | failed {ts : List (ℕ × ℕ)} {filters : List CompactFilter} {e : Fault Error}
    {c c₁ c₂ : CompactChain Xpub} (p2p : Peer) :
    lib.fetchAndSaveUtxos filters c = (.error e, c₁) →
    BatchRun lib blocks ts { c₁ with p2p } c₂ → BatchRun lib blocks ts c c₂

/-- The coin is spent from a batch that comes after one with its transaction. -/
def SpentLater (sha256 : List UInt8 → Bytes 32) (blocks : List Block) (ts : List (ℕ × ℕ))
    (u : PartialUtxo) : Prop :=
  Batches.SetLater (fun y => Opens sha256 u.outpoint (batchOf blocks y))
    (fun y => Sets u.outpoint (batchOf blocks y)) ts

section Runs

variable {lib : ChainLib} {blocks : List Block} {ts : List (ℕ × ℕ)} {c c' : CompactChain Xpub}

/-- **Over a run of calls each mark moves as the batches say.** -/
theorem BatchRun.marks (hord : InOrder lib.sha256 blocks) (hrun : BatchRun lib blocks ts c c')
    (hw : OfLedger lib.sha256 blocks c.wallet) :
    OfLedger lib.sha256 blocks c'.wallet ∧ c'.wallet.getPubkeys = c.wallet.getPubkeys
      ∧ ∀ u ∈ ledger lib.sha256 c.wallet.getPubkeys blocks,
        Batches.MarkRun (fun y => Opens lib.sha256 u.outpoint (batchOf blocks y))
          (fun y => Sets u.outpoint (batchOf blocks y)) (mark c.wallet u.outpoint) ts
          (mark c'.wallet u.outpoint) := by
  induction hrun with
  | done c => exact ⟨hw, rfl, fun u _ => .nil _⟩
  | batch p2p hh hcall _ ih =>
    obtain ⟨hw₁, hkeys₁, hstep⟩ := hh.step hord hw hcall
    obtain ⟨hw₂, hkeys₂, hrest⟩ := ih hw₁
    refine ⟨hw₂, hkeys₂.trans hkeys₁, fun u hu => .cons (hstep u hu) (hrest u ?_)⟩
    rwa [← hkeys₁] at hu
  | failed p2p hcall _ ih =>
    have hsame := ChainLib.wallet_of_fetchAndSaveUtxos_error hw hcall
    rw [← hsame] at hw ⊢
    exact ih hw

/-- **What a coin of the ledger ends as**: held, and marked exactly when it was spent later. -/
theorem mark_of_batchRun (hord : InOrder lib.sha256 blocks)
    (hreach : Batches.Reaches blocks.length 0 ts) {u : PartialUtxo}
    (hu : u ∈ ledger lib.sha256 c.wallet.getPubkeys blocks) {m : Option Bool}
    (hrun : Batches.MarkRun (fun y => Opens lib.sha256 u.outpoint (batchOf blocks y))
      (fun y => Sets u.outpoint (batchOf blocks y)) none ts m) :
    ∃ b, m = some b ∧ (b = true ↔ SpentLater lib.sha256 blocks ts u) := by
  obtain ⟨t, ht, hid⟩ := exists_tx_of_mem_ledger hu
  obtain ⟨k, hk⟩ := exists_at (P := fun t' => txid lib.sha256 t' = u.outpoint.txid) ht hid
  have hopens : (fun y => Opens lib.sha256 u.outpoint (batchOf blocks y))
      = (Batches.Holds · k) := by
    refine funext fun y => propext (exists_txnsOf_batchOf.trans ⟨?_, fun hold => ⟨k, hk, hold⟩⟩)
    rintro ⟨k', hk', hold⟩
    rwa [hord.at_unique hk hk']
  have hsets : (fun y => Sets u.outpoint (batchOf blocks y))
      = Batches.Has (At blocks (Spends u.outpoint)) :=
    funext fun y => propext exists_txnsOf_batchOf
  unfold SpentLater
  rw [hopens, hsets] at hrun ⊢
  exact Batches.MarkRun.of_none (fun j hj => ⟨hord.at_le hk hj, hj.lt⟩) hk.lt (Nat.zero_le k)
    hreach hrun

theorem isSpent_of_spentLater {u : PartialUtxo}
    (hu : u ∈ ledger lib.sha256 c.wallet.getPubkeys blocks)
    (h : SpentLater lib.sha256 blocks ts u) : u.isSpent = true := by
  obtain ⟨l, y, r, -, ⟨t, ht, hspends⟩, -⟩ := h
  exact (isSpent_of_mem_ledger hu).mpr
    ⟨t, (txnsOf_sublist (batchOf_sublist y)).subset ht, hspends⟩

end Runs

/-! ## Agreement -/

/-- **The wallet agrees with the ledger**: at each outpoint it holds the coin of the ledger, with its
mark, or nothing. -/
def Agrees (sha256 : List UInt8 → Bytes 32) (blocks : List Block) (w : WatchOnly Xpub) : Prop :=
  ∀ o, w.coin o = (ledger sha256 w.getPubkeys blocks).find? fun u => u.outpoint = o

section Agreement

variable {sha256 : List UInt8 → Bytes 32} {blocks : List Block} {w : WatchOnly Xpub}

theorem find?_ledger (hord : InOrder sha256 blocks) {scripts : List Script} {u : PartialUtxo}
    (hu : u ∈ ledger sha256 scripts blocks) :
    (ledger sha256 scripts blocks).find? (fun x => x.outpoint = u.outpoint) = some u := by
  rcases h : (ledger sha256 scripts blocks).find? (fun x => x.outpoint = u.outpoint) with _ | x
  · exact absurd (decide_eq_true rfl) (List.find?_eq_none.mp h u hu)
  · have hx := List.mem_of_find?_eq_some h
    have hout : x.outpoint = u.outpoint := by simpa using List.find?_some h
    rw [h, hord.eq_of_mem_ledger hx hu hout]

/-- A wallet with only coins of the ledger agrees with it when it holds them all with the right
marks. -/
theorem agrees_iff (hord : InOrder sha256 blocks) (hw : OfLedger sha256 blocks w) :
    Agrees sha256 blocks w
      ↔ ∀ u ∈ ledger sha256 w.getPubkeys blocks, mark w u.outpoint = some u.isSpent := by
  constructor
  · intro h u hu
    rw [mark, h, find?_ledger hord hu]
    rfl
  · intro h o
    by_cases hex : ∃ u ∈ ledger sha256 w.getPubkeys blocks, u.outpoint = o
    · obtain ⟨u, hu, rfl⟩ := hex
      rw [hw.coin_eq hord hu, h u hu, find?_ledger hord hu]
      rfl
    · have hnone : (ledger sha256 w.getPubkeys blocks).find? (fun u => u.outpoint = o) = none :=
        List.find?_eq_none.mpr fun u hu hout => hex ⟨u, hu, of_decide_eq_true hout⟩
      rw [hnone]
      refine Option.eq_none_iff_forall_ne_some.mpr fun u hu => hex ?_
      obtain ⟨hout, x, hx, hux⟩ := hw o u hu
      exact ⟨x, hx, by rw [← hout, hux]⟩

/-- A wallet that agrees with the ledger has its coins. -/
theorem Agrees.perm (hord : InOrder sha256 blocks) (hw : OfLedger sha256 blocks w)
    (h : Agrees sha256 blocks w) : w.getUtxos.Perm (ledger sha256 w.getPubkeys blocks) := by
  refine (List.perm_ext_iff_of_nodup (nodup_getUtxos fun o u hu => (hw o u hu).1)
    (hord.nodup_ledger _)).mpr fun u => ?_
  rw [mem_getUtxos]
  constructor
  · rintro ⟨o, ho⟩
    rw [h] at ho
    exact List.mem_of_find?_eq_some ho
  · intro hu
    exact ⟨u.outpoint, by rw [h, find?_ledger hord hu]⟩

end Agreement

/-- **The wallet agrees with the chain exactly when every coin that is spent is spent in a later batch
than it is created.**  From a wallet without coins, over any batches that reach the end of the
blocks; the balance is then the value of the unspent coins, if that fits a `u64`. -/
theorem agrees_batchRun_iff {lib : ChainLib} {blocks : List Block} {ts : List (ℕ × ℕ)}
    {c c' : CompactChain Xpub} (hord : InOrder lib.sha256 blocks)
    (hempty : ∀ o : Wallet.OutPoint, c.wallet.utxoMap[o]? = none)
    (hreach : Batches.Reaches blocks.length 0 ts) (hrun : BatchRun lib blocks ts c c') :
    (Agrees lib.sha256 blocks c'.wallet
      ∧ c'.wallet.balance = .ok (unspentValue (ledger lib.sha256 c'.wallet.getPubkeys blocks)))
    ↔ (∀ u ∈ ledger lib.sha256 c.wallet.getPubkeys blocks, u.isSpent = true →
        SpentLater lib.sha256 blocks ts u)
      ∧ unspentValue (ledger lib.sha256 c.wallet.getPubkeys blocks) < 2 ^ 64 := by
  have hnone : ∀ o, c.wallet.coin o = none := fun o => by rw [coin, hempty o]; rfl
  have hstart : OfLedger lib.sha256 blocks c.wallet := by
    intro o u hu
    rw [hnone o] at hu
    cases hu
  obtain ⟨hw, hkeys, hmarks⟩ := hrun.marks hord hstart
  have hagree : Agrees lib.sha256 blocks c'.wallet
      ↔ ∀ u ∈ ledger lib.sha256 c.wallet.getPubkeys blocks, u.isSpent = true →
        SpentLater lib.sha256 blocks ts u := by
    rw [agrees_iff hord hw, hkeys]
    refine forall₂_congr fun u hu => ?_
    have hmark := hmarks u hu
    rw [mark, hnone] at hmark
    obtain ⟨b, hb, hlater⟩ := mark_of_batchRun hord hreach hu hmark
    rw [hb, Option.some_inj, Bool.eq_iff_iff, hlater]
    exact ⟨Iff.mpr, fun h => ⟨isSpent_of_spentLater hu, h⟩⟩
  rw [← hagree, ← hkeys]
  refine and_congr_right fun h => ?_
  rw [balance_eq_ok_iff, unspentValue_perm (h.perm hord hw)]
  exact and_iff_left rfl

/-! ## A coin created and spent in two blocks -/

section TwoBlocks

/-- A stand-in for the hash: the first 32 bytes. -/
def headHash (bs : List UInt8) : Bytes 32 := ⟨(bs ++ List.replicate 32 0).take 32, by simp⟩

/-- A transaction with one input, to one script. -/
def payment (version : UInt32) (prevOutput : Wire.OutPoint) (script : Script) : Tx :=
  { version, flag := none, inputs := [{ prevOutput, unlockScript := [], sequence := 0xffffffff }]
    outputs := [{ satoshis := 50, lockScript := script }], witnesses := none, lockTime := 0 }

/-- A coinbase that pays to the wallet… -/
def coinbase : Tx := payment 1 { hash := NO_HASH_STOP, index := 0xffffffff } [0x51]

/-- …and a transaction that spends it. -/
def spending : Tx := payment 2 { hash := txid headHash coinbase, index := 0 } [0x52]

/-- The two blocks. -/
def twoBlocks : List Block :=
  [{ header := { (default : BlockHeader) with version := 1 }, txns := [coinbase] },
    { header := { (default : BlockHeader) with version := 2 }, txns := [spending] }]

/-- A library whose filters always match. -/
def headLib : ChainLib :=
  { sha256 := headHash
    matchAny := fun _ _ _ => .ok true }

/-- A peer that serves some blocks. -/
def servingPeer (bs : List Block) : Peer :=
  { incoming := bs.map fun b => .message Commands.BLOCK (.block b)
    writes := []
    sent := []
    version := default
    ping := default }

/-- Filters for some blocks. -/
def filtersOf (bs : List Block) : List CompactFilter :=
  bs.map fun b => { filterType := 0, blockHash := blockHash headHash b, filterBytes := [] }

/-- A chain whose wallet watches one script. -/
def watching (p2p : Peer) : CompactChain Unit :=
  ⟨p2p, { lastBlockHash := Bytes.zero 32, lastBlockHeight := 0 },
    (WatchOnly.new () .regtest [] default).track [0x51] { keyType := .external, keyDepth := 0 }, []⟩

theorem inOrder_twoBlocks : InOrder headHash twoBlocks where
  stripped := by decide +kernel
  distinct := by decide +kernel
  causal := by decide +kernel
  notSelf := by decide +kernel
  ne_zero := by decide +kernel
  count := by decide +kernel
  value := by decide +kernel
  hashes := by decide +kernel

/-- The chain after a call on some of the blocks. -/
def afterCall (bs : List Block) (c : CompactChain Unit) : CompactChain Unit :=
  (headLib.fetchAndSaveUtxos (filtersOf bs) c).2

/-- A batch that is served as asked for. -/
theorem handed_of_served {blocks bs : List Block} {x : ℕ × ℕ} {c : CompactChain Unit}
    (hbatch : batchOf blocks x = bs)
    (hpresent : headLib.blockhashPresent c.wallet.getPubkeys (filtersOf bs)
      = .ok (bs.map (blockHash headHash)))
    (hserved : (Peer.fetchBlocks (blockInv (bs.map (blockHash headHash))) c.p2p).1 = .ok bs) :
    Handed headLib blocks x (filtersOf bs) c := by
  refine ⟨?_, fun _ _ _ => rfl, fun present bs' p hp hget => ?_⟩
  · rw [hbatch, filtersOf, List.map_map]
    rfl
  · rw [hpresent] at hp
    cases hp
    rw [hget] at hserved
    cases hserved
    rw [hbatch]
    exact ⟨List.Sublist.refl bs, rfl⟩

/-- In one batch, both blocks are scanned against a wallet without coins: the coin is filed as
unspent. -/
theorem not_agrees_of_one_batch :
    InOrder headHash twoBlocks
      ∧ Batches.Reaches twoBlocks.length 0 [(0, 2)]
      ∧ BatchRun headLib twoBlocks [(0, 2)] (watching (servingPeer twoBlocks))
          { afterCall twoBlocks (watching (servingPeer twoBlocks)) with p2p := servingPeer [] }
      ∧ ¬Agrees headHash twoBlocks
          (afterCall twoBlocks (watching (servingPeer twoBlocks))).wallet := by
  refine ⟨inOrder_twoBlocks, .next le_rfl .done, ?_, fun h => ?_⟩
  · have hhanded : Handed headLib twoBlocks (0, 2) (filtersOf twoBlocks)
        (watching (servingPeer twoBlocks)) :=
      handed_of_served rfl (by decide +kernel) (by decide +kernel)
    exact .batch (servingPeer []) hhanded (Prod.ext (by decide +kernel) rfl) (.done _)
  · exact absurd (h { txid := txid headHash coinbase, vout := 0 }) (by decide +kernel)

/-- The chain after the first block, with the second one to be served. -/
def afterFirst : CompactChain Unit :=
  { afterCall (twoBlocks.take 1) (watching (servingPeer (twoBlocks.take 1))) with
    p2p := servingPeer (twoBlocks.drop 1) }

/-- The chain after the second block. -/
def afterSecond : CompactChain Unit :=
  { afterCall (twoBlocks.drop 1) afterFirst with p2p := servingPeer [] }

/-- In two batches, the spend is looked up in a wallet that holds the coin. -/
theorem agrees_batchRun_two :
    Agrees headHash twoBlocks afterSecond.wallet ∧ afterSecond.wallet.balance = .ok 0 := by
  have hfirst : Handed headLib twoBlocks (0, 1) (filtersOf (twoBlocks.take 1))
      (watching (servingPeer (twoBlocks.take 1))) :=
    handed_of_served rfl (by decide +kernel) (by decide +kernel)
  have hsecond : Handed headLib twoBlocks (1, 2) (filtersOf (twoBlocks.drop 1)) afterFirst :=
    handed_of_served rfl (by decide +kernel) (by decide +kernel)
  have hrun : BatchRun headLib twoBlocks [(0, 1), (1, 2)]
      (watching (servingPeer (twoBlocks.take 1))) afterSecond :=
    .batch _ hfirst (Prod.ext (by decide +kernel) rfl)
      (.batch _ hsecond (Prod.ext (by decide +kernel) rfl) (.done _))
  have h := agrees_batchRun_iff inOrder_twoBlocks (fun o => by simp [watching, WatchOnly.new])
    (.next le_rfl (.next le_rfl .done)) hrun
  have hledger : unspentValue (ledger headHash afterSecond.wallet.getPubkeys twoBlocks) = 0 := by
    decide +kernel
  rw [← hledger]
  refine h.mpr ⟨fun u hu _ => ?_, by decide +kernel⟩
  refine ⟨[(0, 1)], (1, 2), [], rfl, ?_, (0, 1), List.mem_cons_self, ?_⟩
  · have hall : ∀ u ∈ ledger headHash (watching (servingPeer (twoBlocks.take 1))).wallet.getPubkeys
        twoBlocks, ∃ t ∈ txnsOf (batchOf twoBlocks (1, 2)), Spends u.outpoint t := by decide +kernel
    exact hall u hu
  · have hall : ∀ u ∈ ledger headHash (watching (servingPeer (twoBlocks.take 1))).wallet.getPubkeys
        twoBlocks, ∃ t ∈ txnsOf (batchOf twoBlocks (0, 1)),
          txid headHash t = u.outpoint.txid := by decide +kernel
    exact hall u hu

end TwoBlocks

end Bitspend.Chain
