import Bitspend.Chain.Agreement
import Bitspend.Chain.Reorg
import Mathlib.Data.List.Induction

/-!
# Chain/Balance — the balance of a client that has caught up

`sync_state` against the ledger of the chain it follows.  The peers of a run answer from one chain of
blocks, each from the part of it that it has: headers after the locator, a filter for every block
from the start height up to the stop hash, and the blocks that were asked for.  Calls may fail
anywhere; what a failed call has scanned is handed over again by the next one.  Then the record of
the run names the batches the wallet has seen (`Synced`), and a call that returns at the end of the
chain leaves a balance that is wrong only by coins that were spent within one range.
-/

namespace Bitspend.Chain

open Wire Wallet WatchOnly

variable {Xpub : Type}

/-! ## Answers -/

/-- **How a peer of the chain answers `getcfilters`**: with a filter for each block from the start
height up to the stop hash, which matches if the block touches the wallet. -/
structure AnswersFilters (lib : ChainLib) (blocks : List Block) (scripts : List Script)
    (startHeight : UInt32) (hashStop : Hash256) (filters : List CompactFilter) : Prop where
  hashes : ∀ k b, blocks[k]? = some b → blockHash lib.sha256 b = hashStop →
    filters.map CompactFilter.blockHash
      = (batchOf blocks (startHeight.toNat - 1, k + 1)).map (blockHash lib.sha256)
  matched : ∀ f ∈ filters, ∀ b ∈ blocks, f.blockHash = blockHash lib.sha256 b →
    Touches lib.sha256 scripts blocks b → lib.matchAny f.filterBytes f.blockHash scripts = .ok true

/-- **…and `getdata`**: with the blocks that were asked for. -/
structure AnswersBlocks (lib : ChainLib) (blocks : List Block) (present : List Hash256)
    (bs : List Block) : Prop where
  mem : ∀ b ∈ bs, b ∈ blocks
  hashes : bs.map (blockHash lib.sha256) = present

namespace ChainLib

variable (lib : ChainLib)

/-- In a round of the call on `c`, with the headers `hs`, the ranges before `x` go through and leave
`c₂`. -/
def AtRange (c : CompactChain Xpub) (hs : List BlockHeader) (last : BlockHeader) (x : ℕ × ℕ)
    (c₂ : CompactChain Xpub) : Prop :=
  ∃ n c₁ p before after, lib.AtRound c n c₁
    ∧ Peer.fetchHeaders c₁.chainState.lastBlockHash c₁.p2p = (.ok hs, p)
    ∧ hs.getLast? = some last
    ∧ rangeStarts (c₁.chainState.lastBlockHeight + 1)
        (c₁.chainState.lastBlockHeight + 1 + (hs.length - 1)) = before ++ x :: after
    ∧ (ForM.forM before (lib.syncRange hs (c₁.chainState.lastBlockHeight + 1) (last.hash lib.sha256))
        : Op Error (CompactChain Xpub) PUnit) { c₁ with p2p := p } = (.ok PUnit.unit, c₂)

/-- The call on `c` asks for the filters from `startHeight` to `hashStop` and is sent `filters`, which
leaves `c₃`. -/
def SentFilters (c : CompactChain Xpub) (startHeight : UInt32) (hashStop : Hash256)
    (filters : List CompactFilter) (c₃ : CompactChain Xpub) : Prop :=
  ∃ hs last x c₂, lib.AtRange c hs last x c₂ ∧ startHeight = UInt32.ofNat x.1
    ∧ hashStop = lib.stopHash hs (last.hash lib.sha256) x.2
    ∧ lib.getAndVerifyCompactFilters startHeight hashStop c₂ = (.ok filters, c₃)

/-- The call on `c` asks for the blocks of the hashes `present` and is sent `bs`. -/
def SentBlocks (c : CompactChain Xpub) (present : List Hash256) (bs : List Block) : Prop :=
  ∃ startHeight hashStop filters c₃ p, lib.SentFilters c startHeight hashStop filters c₃
    ∧ present ≠ [] ∧ lib.blockhashPresent c₃.wallet.getPubkeys filters = .ok present
    ∧ Peer.fetchBlocks (blockInv present) c₃.p2p = (.ok bs, p)

variable {lib} {t : BlockTree lib} (best : BestChain t) (blocks : List Block)

/-- **The call is answered from the chain**, with no round whose last height would start a range. -/
structure Truthful (c : CompactChain Xpub) : Prop where
  headers : Honest t (fun _ => best) c
  counts : ∀ n locator hs, lib.Asked c n locator hs → ReachesLast hs.length
  filters : ∀ startHeight hashStop filters c₃,
    lib.SentFilters c startHeight hashStop filters c₃ →
    AnswersFilters lib blocks c₃.wallet.getPubkeys startHeight hashStop filters
  blocks : ∀ present bs, lib.SentBlocks c present bs → AnswersBlocks lib blocks present bs

/-- The headers are all there are, or as many as one reply holds. -/
def AnsweredInFull (c : CompactChain Xpub) : Prop :=
  ∀ n locator hs, lib.Asked c n locator hs → hs = (best.after locator).take MAX_HEADER_LEN

/-- **A client after any number of `sync_state` calls that are answered from the chain**, each of
which may fail anywhere, from genesis on.  Between calls the connection may be another. -/
inductive TruthfulRun (w : WatchOnly Xpub) : CompactChain Xpub → Prop
  | start (p2p : Peer) : TruthfulRun w ⟨p2p, ⟨t.genesis, 0⟩, w, []⟩
  | reconnect {c : CompactChain Xpub} (p2p : Peer) :
    TruthfulRun w c → TruthfulRun w { c with p2p }
  | sync {c : CompactChain Xpub} :
    TruthfulRun w c → Truthful best blocks c → TruthfulRun w (lib.syncState c).2

end ChainLib

/-! ## A batch from its answers -/

section Handed

variable {lib : ChainLib} {blocks : List Block} {filters : List CompactFilter}
  {c : CompactChain Xpub}

/-- The hashes on the list are those of some of the filters, in order. -/
theorem ChainLib.sublist_blockhashPresent {pubKeys : List Script} {present : List Hash256}
    (h : lib.blockhashPresent pubKeys filters = .ok present) :
    present.Sublist (filters.map CompactFilter.blockHash) := by
  obtain ⟨matched, hmatched, heq⟩ := Outcome.bind_eq_ok.mp h
  cases heq
  have hall := Outcome.forall₂_of_mapM_eq_ok hmatched
  clear h hmatched
  induction hall with
  | nil => exact List.nil_sublist _
  | @cons f o filters matched ho _ ih =>
    obtain ⟨result, -, ho⟩ := Outcome.bind_eq_ok.mp ho
    cases ho
    rw [List.map_cons]
    cases result with
    | false => exact ih.cons _
    | true => exact ih.cons_cons _

/-- Blocks of the chain are told apart by their hashes. -/
theorem InOrder.eq_of_map_blockHash (hord : InOrder lib.sha256 blocks) {bs bs' : List Block}
    (hbs : bs ⊆ blocks) (hbs' : bs' ⊆ blocks)
    (h : bs.map (blockHash lib.sha256) = bs'.map (blockHash lib.sha256)) : bs = bs' := by
  induction bs generalizing bs' with
  | nil => exact (List.map_eq_nil_iff.mp h.symm).symm
  | cons b bs ih =>
    rcases bs' with _ | ⟨b', bs'⟩
    · cases h
    · rw [List.map_cons, List.map_cons, List.cons.injEq] at h
      rw [hord.hashes b (hbs List.mem_cons_self) b' (hbs' List.mem_cons_self) h.1,
        ih (List.subset_of_cons_subset hbs) (List.subset_of_cons_subset hbs') h.2]

/-- **A range that is answered from the chain is handed over as a batch of it.** -/
theorem handed_of_answers (hord : InOrder lib.sha256 blocks) {startHeight : UInt32} {k : ℕ}
    {b : Block} (hk : blocks[k]? = some b)
    (hfilters : AnswersFilters lib blocks c.wallet.getPubkeys startHeight (blockHash lib.sha256 b)
      filters)
    (hblocks : ∀ present bs p, present ≠ [] →
      lib.blockhashPresent c.wallet.getPubkeys filters = .ok present →
      Peer.fetchBlocks (blockInv present) c.p2p = (.ok bs, p) →
      AnswersBlocks lib blocks present bs) :
    Handed lib blocks (startHeight.toNat - 1, k + 1) filters c := by
  have hhashes := hfilters.hashes k b hk rfl
  refine ⟨hhashes, ?_, ?_⟩
  · rintro ⟨f, b'⟩ hy htouch
    obtain ⟨hf, hb'⟩ := List.of_mem_zip hy
    refine hfilters.matched f hf b' ((batchOf_sublist _).subset hb') ?_ htouch
    obtain ⟨i, hi⟩ := List.mem_iff_getElem?.mp hy
    obtain ⟨hfi, hbi⟩ := List.getElem?_zip_eq_some.mp hi
    have hget := congrArg (fun l : List Hash256 => l[i]?) hhashes
    simp only [List.getElem?_map, hfi, hbi, Option.map_some] at hget
    exact Option.some_inj.mp hget
  · intro present bs p hpresent hget
    rcases eq_or_ne present [] with rfl | hne
    · have hlen : bs.length = 0 := Peer.fetchBlocks_eq_ok hget
      rw [List.length_eq_zero_iff.mp hlen]
      exact ⟨List.nil_sublist _, rfl⟩
    · have hanswer := hblocks present bs p hne hpresent hget
      have hsub := ChainLib.sublist_blockhashPresent hpresent
      rw [hhashes] at hsub
      obtain ⟨bs', hbs', hpre⟩ := List.sublist_map_iff.mp hsub
      have heq : bs = bs' := hord.eq_of_map_blockHash hanswer.mem
        (hbs'.trans (batchOf_sublist _)).subset (hanswer.hashes.trans hpre)
      rw [heq]
      exact ⟨hbs', hpre.symm⟩

end Handed

/-! ## What a run has scanned -/

/-- The batches of a record: the block at height `h` is at position `h - 1`. -/
def scannedBatches (log : List SyncEvent) : List (ℕ × ℕ) :=
  log.filterMap fun
    | .scanned startHeight _ stopHeight => some (startHeight.toNat - 1, stopHeight)
    | .advanced _ => none

theorem scannedBatches_append (log log' : List SyncEvent) :
    scannedBatches (log ++ log') = scannedBatches log ++ scannedBatches log' :=
  List.filterMap_append

/-- **The wallet has seen the batches of the record**, which reach height `p` or higher: each mark is
what they make of it. -/
structure Synced (lib : ChainLib) (blocks : List Block) (w : WatchOnly Xpub) (p : ℕ)
    (c : CompactChain Xpub) : Prop where
  coins : OfLedger lib.sha256 blocks c.wallet
  pubkeys : c.wallet.getPubkeys = w.getPubkeys
  marks : ∀ u ∈ ledger lib.sha256 w.getPubkeys blocks,
    Batches.MarkRun (fun y => Opens lib.sha256 u.outpoint (batchOf blocks y))
      (fun y => Sets u.outpoint (batchOf blocks y)) none (scannedBatches c.log)
      (mark c.wallet u.outpoint)
  reaches : ∃ e, Batches.Reaches e 0 (scannedBatches c.log) ∧ p ≤ e ∧ e ≤ blocks.length
  short : ∀ y ∈ scannedBatches c.log, y.2 ≤ y.1 + FILTER_SIZE

namespace Synced

variable {lib : ChainLib} {blocks : List Block} {w : WatchOnly Xpub} {p : ℕ}
  {c c' : CompactChain Xpub}

/-- Only the wallet and the record matter. -/
theorem congr (h : Synced lib blocks w p c) (hwallet : c'.wallet = c.wallet)
    (hbatches : scannedBatches c'.log = scannedBatches c.log) : Synced lib blocks w p c' := by
  obtain ⟨hcoins, hkeys, hmarks, hreaches, hshort⟩ := h
  rw [← hwallet] at hcoins hkeys hmarks
  rw [← hbatches] at hmarks hreaches hshort
  exact ⟨hcoins, hkeys, hmarks, hreaches, hshort⟩

theorem advance (h : Synced lib blocks w p c) (height : ℕ) (hash : Hash256) :
    Synced lib blocks w p (c.advance height hash) := by
  refine h.congr rfl ?_
  change scannedBatches (c.log ++ [_]) = _
  rw [scannedBatches_append]
  exact List.append_nil _

theorem mono {q : ℕ} (h : Synced lib blocks w p c) (hq : q ≤ p) : Synced lib blocks w q c := by
  obtain ⟨e, he, hp, hlen⟩ := h.reaches
  exact { h with reaches := ⟨e, he, hq.trans hp, hlen⟩ }

/-- **A batch that is handed over and scanned goes on the record.** -/
theorem scan (h : Synced lib blocks w p c) (hord : InOrder lib.sha256 blocks) {a b : ℕ}
    (ha : a ≤ p) (hb : b ≤ blocks.length) (hshort : b ≤ a + FILTER_SIZE)
    {filters : List CompactFilter} (hhanded : Handed lib blocks (a, b) filters c)
    (hcall : lib.fetchAndSaveUtxos filters c = (.ok (), c')) {c'' : CompactChain Xpub}
    (hwallet : c''.wallet = c'.wallet)
    (hbatches : scannedBatches c''.log = scannedBatches c.log ++ [(a, b)]) :
    Synced lib blocks w b c'' := by
  obtain ⟨hcoins, hkeys, hstep⟩ := hhanded.step hord h.coins hcall
  obtain ⟨e, he, hp, -⟩ := h.reaches
  refine ⟨by rw [hwallet]; exact hcoins, by rw [hwallet, hkeys, h.pubkeys], fun u hu => ?_,
    ⟨b, ?_, le_rfl, hb⟩, ?_⟩
  · rw [hbatches, hwallet]
    exact (h.marks u hu).concat (hstep u (by rwa [h.pubkeys]))
  · rw [hbatches]
    exact he.concat (ha.trans hp)
  · rw [hbatches]
    intro y hy
    rcases List.mem_append.mp hy with hy | hy
    · exact h.short y hy
    · rw [List.mem_singleton.mp hy]
      exact hshort

end Synced

/-! ## One range -/

namespace ChainLib

variable {lib : ChainLib}

theorem keeps_wallet_onPeer {α : Type} (w : WatchOnly Xpub) (x : Op Error Peer α) :
    Op.Keeps (fun c : CompactChain Xpub => c.wallet = w) (CompactChain.onPeer x) := fun _ h => h

theorem keeps_wallet_getAndVerifyCompactFilters (w : WatchOnly Xpub) (n : UInt32) (h : Hash256) :
    Op.Keeps (fun c : CompactChain Xpub => c.wallet = w) (lib.getAndVerifyCompactFilters n h) := by
  refine (keeps_wallet_onPeer w _).mapErr.bind fun _ => (keeps_wallet_onPeer w _).mapErr.bind fun _ => ?_
  exact (Op.Keeps.lift _).bind fun _ => Op.Keeps.pure _

/-- **A range that goes through** has fetched filters and handed them over. -/
theorem exists_of_syncRange_eq_ok {hs : List BlockHeader} {start : ℕ} {hash : Hash256} {x : ℕ × ℕ}
    {c c' : CompactChain Xpub} {u : Unit} (h : lib.syncRange hs start hash x c = (.ok u, c')) :
    ∃ filters c₁ c₂, lib.getAndVerifyCompactFilters (UInt32.ofNat x.1) (lib.stopHash hs hash x.2) c
        = (.ok filters, c₁)
      ∧ lib.fetchAndSaveUtxos filters c₁ = (.ok (), c₂) ∧ c'.wallet = c₂.wallet := by
  obtain ⟨filters, c₁, hget, h⟩ := Op.bind_eq_ok.mp h
  have hne := lib.getAndVerifyCompactFilters_eq_ok hget
  rw [if_neg (by simpa using hne)] at h
  obtain ⟨_, c₂, hfetch, h⟩ := Op.bind_eq_ok.mp h
  obtain rfl := Op.update_eq_ok.mp h
  exact ⟨filters, c₁, c₂, hget, hfetch, rfl⟩

/-- **A range that fails** leaves the wallet and the record as they were. -/
theorem syncRange_eq_error {hs : List BlockHeader} {start : ℕ} {hash : Hash256} {x : ℕ × ℕ}
    {blocks : List Block} {c c' : CompactChain Xpub} {e : Fault Error}
    (hcoins : OfLedger lib.sha256 blocks c.wallet)
    (h : lib.syncRange hs start hash x c = (.error e, c')) :
    c'.wallet = c.wallet ∧ c'.log = c.log := by
  have hkeep (n : UInt32) (stop : Hash256) := @keeps_wallet_getAndVerifyCompactFilters Xpub lib c.wallet n stop
  obtain h₁ | ⟨filters, c₁, hget, h₁⟩ := Op.bind_eq_error.mp h
  · have hfollow := (lib.keeps_getAndVerifyCompactFilters _ _ c).of_eq (Follows.refl c) h₁
    exact ⟨(hkeep _ _).of_eq rfl h₁, hfollow.log⟩
  have hfollow := (lib.keeps_getAndVerifyCompactFilters _ _ c).of_eq (Follows.refl c) hget
  have hwallet : c₁.wallet = c.wallet := (hkeep _ _).of_eq rfl hget
  rw [if_neg (by simpa using lib.getAndVerifyCompactFilters_eq_ok hget)] at h₁
  obtain h₂ | ⟨_, c₂, -, h₂⟩ := Op.bind_eq_error.mp h₁
  · have hfollow₂ := (lib.keeps_fetchAndSaveUtxos filters c₁).of_eq (Follows.refl c₁) h₂
    rw [← hwallet] at hcoins
    exact ⟨(wallet_of_fetchAndSaveUtxos_error hcoins h₂).trans hwallet,
      hfollow₂.log.trans hfollow.log⟩
  · cases h₂

end ChainLib

/-- The headers of a round, by position. -/
theorem exists_block_of_lt {blocks : List Block} {hs : List BlockHeader} {h k : ℕ}
    (hhs : hs = ((blocks.map Block.header).drop h).take k) {j : ℕ} (hj : j < hs.length) :
    ∃ b, blocks[h + j]? = some b ∧ hs[j]? = some b.header := by
  have hget : hs[j]? = (blocks.map Block.header)[h + j]? := by
    rw [hhs, List.length_take] at hj
    rw [hhs, List.getElem?_take_of_lt (by omega), List.getElem?_drop]
  obtain ⟨header, hheader⟩ : ∃ header, hs[j]? = some header := ⟨_, List.getElem?_eq_getElem hj⟩
  have hblock := hget ▸ hheader
  rw [List.getElem?_map] at hblock
  obtain ⟨b, hb, rfl⟩ := Option.map_eq_some_iff.mp hblock
  exact ⟨b, hb, hheader⟩

theorem add_length_le {blocks : List Block} {hs : List BlockHeader} {h k : ℕ}
    (hhs : hs = ((blocks.map Block.header).drop h).take k) (hne : hs ≠ []) :
    h + hs.length ≤ blocks.length := by
  have hpos : 0 < hs.length := List.length_pos_iff.mpr hne
  rw [hhs, List.length_take, List.length_drop, List.length_map] at hpos ⊢
  omega

section Range

variable {lib : ChainLib} {blocks : List Block} {w : WatchOnly Xpub}

/-- The ranges of a round, by number. -/
theorem eq_of_rangeStarts {start n : ℕ} {before after : List (ℕ × ℕ)} {x : ℕ × ℕ}
    (h : rangeStarts start (start + (n - 1)) = before ++ x :: after) :
    before.length < rangeCount n ∧ x = (start + 500 * before.length, 500 + 500 * before.length) := by
  have hget : (rangeStarts start (start + (n - 1)))[before.length]? = some x := by
    rw [h, List.getElem?_append_right le_rfl, Nat.sub_self]
    rfl
  rw [rangeStarts, List.getElem?_map, List.getElem?_zipIdx] at hget
  have hlt : before.length < rangeCount n := by
    rw [← length_blockNumbers start n]
    by_contra hge
    rw [List.getElem?_eq_none (Nat.le_of_not_lt hge)] at hget
    cases hget
  rw [getElem?_blockNumbers hlt] at hget
  cases hget
  exact ⟨hlt, by simp [FILTER_SIZE]⟩

/-- **A range that is answered from the chain and goes through** puts its batch on the record. -/
theorem Synced.range (hord : InOrder lib.sha256 blocks) (hlen : blocks.length < 2 ^ 32)
    {hs : List BlockHeader} {h k i : ℕ} (hhs : hs = ((blocks.map Block.header).drop h).take k)
    {last : BlockHeader} (hlast : hs.getLast? = some last) (hi : 500 * i < hs.length)
    {c c' : CompactChain Xpub} (hc : Synced lib blocks w (h + 500 * i) c) {u : Unit}
    (hrange : lib.syncRange hs (h + 1) (last.hash lib.sha256) (h + 1 + 500 * i, 500 + 500 * i) c
      = (.ok u, c'))
    (hfilters : ∀ filters c₁, lib.getAndVerifyCompactFilters (UInt32.ofNat (h + 1 + 500 * i))
        (lib.stopHash hs (last.hash lib.sha256) (500 + 500 * i)) c = (.ok filters, c₁) →
      AnswersFilters lib blocks c₁.wallet.getPubkeys (UInt32.ofNat (h + 1 + 500 * i))
          (lib.stopHash hs (last.hash lib.sha256) (500 + 500 * i)) filters
        ∧ ∀ present bs p, present ≠ [] →
          lib.blockhashPresent c₁.wallet.getPubkeys filters = .ok present →
          Peer.fetchBlocks (blockInv present) c₁.p2p = (.ok bs, p) →
          AnswersBlocks lib blocks present bs) :
    Synced lib blocks w (h + min (500 * i + 500) hs.length) c' := by
  have hle := add_length_le hhs (by rintro rfl; exact absurd hi (Nat.not_lt_zero _))
  obtain ⟨filters, c₁, c₂, hget, hfetch, hwallet⟩ := ChainLib.exists_of_syncRange_eq_ok hrange
  obtain ⟨hanswers, hserved⟩ := hfilters filters c₁ hget
  -- the stop hash is that of the block at the range's last height
  obtain ⟨b, hb, hheader⟩ := exists_block_of_lt hhs
    (by omega : min (500 + 500 * i - 1) (hs.length - 1) < hs.length)
  have hstop : lib.stopHash hs (last.hash lib.sha256) (500 + 500 * i) = blockHash lib.sha256 b := by
    refine Option.some_inj.mp ((stopHash_eq lib hlast).trans ?_)
    rw [hheader]
    rfl
  rw [hstop] at hanswers
  have hhanded := handed_of_answers hord hb hanswers hserved
  have hstart : (UInt32.ofNat (h + 1 + 500 * i)).toNat = h + 1 + 500 * i :=
    UInt32.toNat_ofNat_of_lt' (show h + 1 + 500 * i < 2 ^ 32 by omega)
  have hbatch : ((UInt32.ofNat (h + 1 + 500 * i)).toNat - 1,
        h + min (500 + 500 * i - 1) (hs.length - 1) + 1)
      = (h + 500 * i, h + min (500 * i + 500) hs.length) := by
    rw [hstart, Prod.mk.injEq]
    omega
  rw [hbatch] at hhanded
  -- fetching the filters leaves the wallet and the record alone
  have hfollow := (lib.keeps_getAndVerifyCompactFilters _ _ c).of_eq (Follows.refl c) hget
  have hsame : c₁.wallet = c.wallet :=
    (@ChainLib.keeps_wallet_getAndVerifyCompactFilters Xpub lib c.wallet _ _).of_eq rfl hget
  have hc₁ : Synced lib blocks w (h + 500 * i) c₁ := hc.congr hsame (by rw [hfollow.log])
  refine hc₁.scan hord le_rfl (by omega) (by unfold FILTER_SIZE; omega) hhanded hfetch hwallet ?_
  rw [lib.syncRange_eq_ok _ _ _ hrange, scannedBatches_append, hfollow.log]
  refine congrArg (scannedBatches c.log ++ ·) ?_
  have hstopHeight : h + 1 + min (500 + 500 * i - 1) (hs.length - 1)
      = h + min (500 + 500 * i - 1) (hs.length - 1) + 1 := by omega
  simp only [scannedBatches, ChainLib.rangeEvent, List.filterMap_cons, List.filterMap_nil, hstopHeight]
  rw [hbatch]

end Range

/-! ## A round and a call -/

namespace ChainLib

variable {lib : ChainLib} {t : BlockTree lib} {best : BestChain t} {blocks : List Block}
  {w : WatchOnly Xpub}

/-- **The client stands in the chain**: the wallet has seen at least the blocks up to the height of
the state, whose hash is that of the block there. -/
structure StandsSynced (best : BestChain t) (blocks : List Block) (w : WatchOnly Xpub)
    (c : CompactChain Xpub) : Prop where
  synced : Synced lib blocks w c.chainState.lastBlockHeight c
  hash : best.hashes[c.chainState.lastBlockHeight]? = some c.chainState.lastBlockHash

/-- Calls on the peer do not matter. -/
theorem StandsSynced.withPeer {c : CompactChain Xpub} (hc : StandsSynced best blocks w c) (p2p : Peer) :
    StandsSynced best blocks w { c with p2p } := ⟨hc.synced.congr rfl rfl, hc.hash⟩

theorem StandsSynced.height_le {c : CompactChain Xpub} (hc : StandsSynced best blocks w c) :
    c.chainState.lastBlockHeight ≤ blocks.length := by
  obtain ⟨e, -, hle, hlen⟩ := hc.synced.reaches
  exact hle.trans hlen

/-- The ranges of a round reach its last height, unless that would start one. -/
theorem min_rangeCount {n : ℕ} (h : ReachesLast n) : min (500 * rangeCount n) n = n := by
  unfold ReachesLast FILTER_SIZE at h
  unfold rangeCount
  split_ifs <;> omega

theorem length_rangeStarts (start n : ℕ) :
    (rangeStarts start (start + (n - 1))).length = rangeCount n := by
  rw [rangeStarts, List.length_map, List.length_zipIdx, length_blockNumbers]

section Round

variable (hord : InOrder lib.sha256 blocks) (hlen : blocks.length < 2 ^ 32)
  (hchain : best.blocks = blocks.map Block.header) {c : CompactChain Xpub}
  (hcall : Truthful best blocks c) {n : ℕ} {c₁ : CompactChain Xpub} (hround : lib.AtRound c n c₁)
  (hc : StandsSynced best blocks w c₁)

include hchain hc in
/-- The headers of an honest answer are the next ones. -/
theorem StandsSynced.headers {hs : List BlockHeader} {m : ℕ}
    (h : hs = (best.after c₁.chainState.lastBlockHash).take m) :
    hs = ((blocks.map Block.header).drop c₁.chainState.lastBlockHeight).take m := by
  rw [h, HashChain.after_of_mem hc.hash, hchain]

include hchain hc in
/-- Fewer headers than one reply holds, of an answer in full, lead to the end of the chain. -/
theorem StandsSynced.height_add_length {hs : List BlockHeader}
    (h : hs = (best.after c₁.chainState.lastBlockHash).take MAX_HEADER_LEN)
    (hlt : hs.length < MAX_HEADER_LEN) : c₁.chainState.lastBlockHeight + hs.length = blocks.length := by
  have hcount := congrArg List.length (hc.headers hchain h)
  have hle := hc.height_le
  rw [List.length_take, List.length_drop, List.length_map] at hcount
  omega

include hord hlen hchain hcall hround hc

/-- **After each range of a round** the wallet has seen the blocks up to its end. -/
theorem StandsSynced.ranges {hs : List BlockHeader} {p : Peer}
    (hfetch : Peer.fetchHeaders c₁.chainState.lastBlockHash c₁.p2p = (.ok hs, p)) {last : BlockHeader}
    (hlast : hs.getLast? = some last) (before after : List (ℕ × ℕ))
    (hsplit : rangeStarts (c₁.chainState.lastBlockHeight + 1)
      (c₁.chainState.lastBlockHeight + 1 + (hs.length - 1)) = before ++ after)
    {c₂ : CompactChain Xpub}
    (hbefore : (ForM.forM before (lib.syncRange hs (c₁.chainState.lastBlockHeight + 1)
      (last.hash lib.sha256)) : Op Error (CompactChain Xpub) PUnit) { c₁ with p2p := p }
        = (.ok PUnit.unit, c₂)) :
    Synced lib blocks w (c₁.chainState.lastBlockHeight + min (500 * before.length) hs.length) c₂ := by
  induction before using List.reverseRecOn generalizing after c₂ with
  | nil =>
    obtain ⟨-, rfl⟩ := Op.pure_eq_ok.mp hbefore
    exact (hc.withPeer p).synced.mono (by simp)
  | append_singleton before x ih =>
    rw [List.append_assoc] at hsplit
    rw [List.forM_append] at hbefore
    obtain ⟨_, c₃, hfirst, hlastRange⟩ := Op.bind_eq_ok.mp hbefore
    obtain ⟨_, c₄, hx, hnil⟩ := Op.forM_cons_eq_ok.mp hlastRange
    obtain ⟨-, rfl⟩ := Op.pure_eq_ok.mp hnil
    obtain ⟨hlt, rfl⟩ := eq_of_rangeStarts hsplit
    have hsynced := ih (_ :: after) hsplit hfirst
    obtain ⟨m, -, hanswer⟩ := hcall.headers n _ hs ⟨c₁, p, hround, rfl, hfetch⟩
    have hpos : 0 < hs.length := by
      rw [List.length_pos_iff]
      rintro rfl
      cases hlast
    have hi : 500 * before.length < hs.length := by
      unfold rangeCount at hlt
      split_ifs at hlt <;> omega
    rw [min_eq_left hi.le] at hsynced
    have hrange : lib.AtRange c hs last (c₁.chainState.lastBlockHeight + 1 + 500 * before.length,
        500 + 500 * before.length) c₃ :=
      ⟨n, c₁, p, before, after, hround, hfetch, hlast, hsplit, hfirst⟩
    have hend := hsynced.range hord hlen (hc.headers hchain hanswer) hlast hi hx
      fun filters c₅ hget => by
        have hsent : lib.SentFilters c _ _ filters c₅ := ⟨hs, last, _, c₃, hrange, rfl, rfl, hget⟩
        exact ⟨hcall.filters _ _ _ _ hsent, fun present bs p' hne hpresent hblocks =>
          hcall.blocks present bs ⟨_, _, filters, c₅, p', hsent, hne, hpresent, hblocks⟩⟩
    rw [List.length_append, List.length_singleton, Nat.mul_succ]
    exact hend

/-- **A range that fails** leaves the client where it stood: the ranges before it have been scanned. -/
theorem StandsSynced.of_failed {hs : List BlockHeader} {p : Peer}
    (hfetch : Peer.fetchHeaders c₁.chainState.lastBlockHash c₁.p2p = (.ok hs, p)) {last : BlockHeader}
    (hlast : hs.getLast? = some last) {e : Fault Error} {c' : CompactChain Xpub}
    (hfail : (ForM.forM (rangeStarts (c₁.chainState.lastBlockHeight + 1)
        (c₁.chainState.lastBlockHeight + 1 + (hs.length - 1)))
      (lib.syncRange hs (c₁.chainState.lastBlockHeight + 1) (last.hash lib.sha256)) :
      Op Error (CompactChain Xpub) PUnit) { c₁ with p2p := p } = (.error e, c')) :
    StandsSynced best blocks w c' := by
  obtain ⟨before, x, after, c₂, hsplit, hbefore, hx⟩ := Op.exists_of_forM_eq_error hfail
  have hsynced := hc.ranges hord hlen hchain hcall hround hfetch hlast before (x :: after) hsplit hbefore
  obtain ⟨hwallet, hlog⟩ := syncRange_eq_error hsynced.coins hx
  have hscan := (Op.Keeps.forM (P := Scans { c₁ with p2p := p }) fun x _ =>
    lib.keeps_syncRange hs _ _ x _).of_eq (Scans.refl _) hfail
  have hstate : c'.chainState = c₁.chainState := hscan.chainState
  refine ⟨?_, by rw [hstate]; exact hc.hash⟩
  rw [hstate]
  exact (hsynced.congr hwallet (by rw [hlog])).mono (Nat.le_add_right _ _)

/-- **Ranges that return** lead to the last of the headers: every height of the round lies in one. -/
theorem StandsSynced.of_ranges {hs : List BlockHeader} {p : Peer}
    (hfetch : Peer.fetchHeaders c₁.chainState.lastBlockHash c₁.p2p = (.ok hs, p)) {last : BlockHeader}
    (hlast : hs.getLast? = some last) {c₂ : CompactChain Xpub}
    (hall : (ForM.forM (rangeStarts (c₁.chainState.lastBlockHeight + 1)
        (c₁.chainState.lastBlockHeight + 1 + (hs.length - 1)))
      (lib.syncRange hs (c₁.chainState.lastBlockHeight + 1) (last.hash lib.sha256)) :
      Op Error (CompactChain Xpub) PUnit) { c₁ with p2p := p } = (.ok PUnit.unit, c₂)) :
    StandsSynced best blocks w
      (c₂.advance (c₁.chainState.lastBlockHeight + hs.length) (last.hash lib.sha256)) := by
  have hasked : lib.Asked c n c₁.chainState.lastBlockHash hs := ⟨c₁, p, hround, rfl, hfetch⟩
  have hsynced := hc.ranges hord hlen hchain hcall hround hfetch hlast _ [] (List.append_nil _).symm hall
  rw [length_rangeStarts, min_rangeCount (hcall.counts n _ hs hasked)] at hsynced
  obtain ⟨m, -, hanswer⟩ := hcall.headers n _ hs hasked
  have hnext : hs = (best.blocks.drop c₁.chainState.lastBlockHeight).take m := by
    rw [← HashChain.after_of_mem hc.hash]
    exact hanswer
  exact ⟨hsynced.advance _ _, HashChain.getElem?_hashes_of_getLast? hnext hlast⟩

/-- **What a round makes of its headers**: however it ends, the client stands in the chain; and at its
end, if the round is the last one and the headers were all there are. -/
theorem StandsSynced.syncHeaders {hs : List BlockHeader} {p : Peer}
    (hfetch : Peer.fetchHeaders c₁.chainState.lastBlockHash c₁.p2p = (.ok hs, p))
    {r : Outcome Error (Unit ⊕ Unit)} {c' : CompactChain Xpub}
    (h : lib.syncHeaders hs { c₁ with p2p := p } = (r, c')) :
    StandsSynced best blocks w c'
      ∧ (AnsweredInFull best c → r = .ok (.inr ()) →
        c'.chainState.lastBlockHeight = blocks.length) := by
  have hend : AnsweredInFull best c → hs.length < MAX_HEADER_LEN →
      c₁.chainState.lastBlockHeight + hs.length = blocks.length := fun hfull =>
    hc.height_add_length hchain (hfull n _ hs ⟨c₁, p, hround, rfl, hfetch⟩)
  rcases eq_or_ne hs [] with rfl | hne
  · cases h
    exact ⟨hc.withPeer p, fun hfull _ => hend hfull (by decide)⟩
  obtain ⟨last, hlast⟩ : ∃ last, hs.getLast? = some last :=
    ⟨_, List.getLast?_eq_some_getLast hne⟩
  obtain ⟨e, rfl, hfail⟩ | ⟨c₂, hall, rfl, rfl⟩ := lib.syncHeaders_split hlast h
  · exact ⟨hc.of_failed hord hlen hchain hcall hround hfetch hlast hfail, fun _ hr => by cases hr⟩
  · refine ⟨hc.of_ranges hord hlen hchain hcall hround hfetch hlast hall, fun hfull hr => hend hfull ?_⟩
    by_contra hge
    rw [if_neg hge] at hr
    cases hr

/-- **A round of a truthful call** leaves the client standing in the chain. -/
theorem StandsSynced.round {r : Outcome Error (Unit ⊕ Unit)} {c' : CompactChain Xpub}
    (h : lib.syncRound () c₁ = (r, c')) :
    StandsSynced best blocks w c'
      ∧ (AnsweredInFull best c → r = .ok (.inr ()) →
        c'.chainState.lastBlockHeight = blocks.length) := by
  obtain ⟨_, e, p, -, rfl, rfl⟩ | ⟨hs, p, hfetch, h⟩ := lib.syncRound_split h
  · exact ⟨hc.withPeer p, fun _ hr => by cases hr⟩
  · exact hc.syncHeaders hord hlen hchain hcall hround hfetch h

end Round

section Call

variable (hord : InOrder lib.sha256 blocks) (hlen : blocks.length < 2 ^ 32)
  (hchain : best.blocks = blocks.map Block.header) {c : CompactChain Xpub}
  (hc : StandsSynced best blocks w c) (hcall : Truthful best blocks c)

include hord hlen hchain hc hcall

/-- At every round of a truthful call the client stands in the chain… -/
theorem StandsSynced.atRound {n : ℕ} {c₁ : CompactChain Xpub} (h : lib.AtRound c n c₁) :
    StandsSynced best blocks w c₁ := by
  obtain ⟨c₀, halive, hreach⟩ := h
  obtain rfl : { c with p2p := (Peer.keepAlive c.p2p).2 } = c₀ := congrArg Prod.snd halive
  generalize hu : () = u₁ at hreach
  induction hreach with
  | start => exact hc.withPeer _
  | step hreach hgo ih =>
    exact ((ih rfl).round hord hlen hchain hcall ⟨_, halive, hreach⟩ hgo).1

/-- …**and after it, however it ends**: at the end of the chain, if it returned and was answered in
full. -/
theorem StandsSynced.syncState {r : Outcome Error Unit} {c' : CompactChain Xpub}
    (h : lib.syncState c = (r, c')) :
    StandsSynced best blocks w c'
      ∧ (AnsweredInFull best c → r = .ok () → c'.chainState.lastBlockHeight = blocks.length) := by
  obtain ⟨e, p, rfl, rfl⟩ | ⟨n, c₁, hround, hend⟩ := lib.syncState_cases h
  · exact ⟨hc.withPeer p, fun _ hr => by cases hr⟩
  have hc₁ := hc.atRound hord hlen hchain hcall hround
  obtain ⟨rfl, hlast⟩ | ⟨e, rfl, hfail⟩ := hend
  · obtain ⟨hstands, htip⟩ := hc₁.round hord hlen hchain hcall hround hlast
    exact ⟨hstands, fun hall _ => htip hall rfl⟩
  · exact ⟨(hc₁.round hord hlen hchain hcall hround hfail).1, fun _ hr => by cases hr⟩

end Call

/-- **In every state of a truthful run the client stands in the chain.** -/
theorem standsSynced_of_truthfulRun (hord : InOrder lib.sha256 blocks) (hlen : blocks.length < 2 ^ 32)
    (hchain : best.blocks = blocks.map Block.header)
    (hempty : ∀ o : Wallet.OutPoint, w.utxoMap[o]? = none) {c : CompactChain Xpub}
    (h : TruthfulRun best blocks w c) : StandsSynced best blocks w c := by
  induction h with
  | start p2p =>
    have hnone : ∀ o, w.coin o = none := fun o => by rw [coin, hempty o]; rfl
    refine ⟨⟨fun o u hu => ?_, rfl, fun u _ => ?_, ⟨0, .done, le_rfl, Nat.zero_le _⟩, ?_⟩, rfl⟩
    · rw [hnone o] at hu
      cases hu
    · rw [mark, hnone]
      exact .nil _
    · exact fun y hy => absurd hy List.not_mem_nil
  | reconnect p2p _ ih => exact ih.withPeer p2p
  | @sync c _ hcall ih => exact (ih.syncState hord hlen hchain hcall rfl).1

end ChainLib

/-! ## The balance -/

section Balance

open scoped Classical in
/-- The coins of the ledger as the batches leave them: marked when they are spent later. -/
noncomputable def seen (sha256 : List UInt8 → Bytes 32) (scripts : List Script) (blocks : List Block)
    (ts : List (ℕ × ℕ)) : List PartialUtxo :=
  (ledger sha256 scripts blocks).map fun u =>
    { u with isSpent := decide (SpentLater sha256 blocks ts u) }

open scoped Classical in
/-- The coins that are spent, but in no later batch than one they are created in. -/
noncomputable def spentWithin (sha256 : List UInt8 → Bytes 32) (scripts : List Script)
    (blocks : List Block) (ts : List (ℕ × ℕ)) : List PartialUtxo :=
  (ledger sha256 scripts blocks).filter fun u =>
    u.isSpent = true ∧ ¬SpentLater sha256 blocks ts u

variable {lib : ChainLib} {blocks : List Block} {w : WatchOnly Xpub} {c : CompactChain Xpub}

/-- **What a wallet that has seen all blocks holds.** -/
theorem Synced.perm (hord : InOrder lib.sha256 blocks) (h : Synced lib blocks w blocks.length c) :
    c.wallet.getUtxos.Perm (seen lib.sha256 w.getPubkeys blocks (scannedBatches c.log)) := by
  classical
  obtain ⟨e, hreach, hle, hge⟩ := h.reaches
  obtain rfl := le_antisymm hle hge
  have hmark : ∀ u ∈ ledger lib.sha256 w.getPubkeys blocks, ∃ b, mark c.wallet u.outpoint = some b
      ∧ (b = true ↔ SpentLater lib.sha256 blocks (scannedBatches c.log) u) := fun u hu =>
    mark_of_batchRun (c := c) hord hreach (by rwa [h.pubkeys]) (h.marks u hu)
  refine (List.perm_ext_iff_of_nodup (nodup_getUtxos fun o u hu => (h.coins o u hu).1) ?_).mpr
    fun u => ?_
  · refine (hord.nodup_ledger _).map_on fun u hu u' hu' heq => hord.eq_of_mem_ledger hu hu' ?_
    have := congrArg PartialUtxo.outpoint heq
    exact this
  rw [mem_getUtxos, seen, List.mem_map]
  constructor
  · rintro ⟨o, ho⟩
    obtain ⟨rfl, x, hx, hux⟩ := h.coins o u ho
    rw [h.pubkeys] at hx
    obtain ⟨b, hb, hlater⟩ := hmark x hx
    have hout : u.outpoint = x.outpoint := by rw [hux]
    rw [mark, ← hout, ho, Option.map_some, Option.some_inj] at hb
    refine ⟨x, hx, ?_⟩
    rw [hux, hb, Bool.eq_iff_iff.mpr (hlater.trans decide_eq_true_iff.symm)]
  · rintro ⟨x, hx, rfl⟩
    obtain ⟨b, hb, hlater⟩ := hmark x hx
    refine ⟨x.outpoint, ?_⟩
    rw [h.coins.coin_eq hord (by rwa [h.pubkeys]), hb, Option.map_some,
      Bool.eq_iff_iff.mpr (hlater.trans decide_eq_true_iff.symm)]

/-- The unmarked coins are the unspent ones and those whose spend was missed. -/
theorem unspentValue_seen (scripts : List Script) (ts : List (ℕ × ℕ)) :
    unspentValue (seen lib.sha256 scripts blocks ts)
      = unspentValue (ledger lib.sha256 scripts blocks)
        + ((spentWithin lib.sha256 scripts blocks ts).map PartialUtxo.amount).sum := by
  have hspent : ∀ u ∈ ledger lib.sha256 scripts blocks, SpentLater lib.sha256 blocks ts u →
      u.isSpent = true := by
    rintro u hu ⟨l, y, r, -, ⟨t, ht, hspends⟩, -⟩
    exact (isSpent_of_mem_ledger hu).mpr ⟨t, (txnsOf_sublist (batchOf_sublist y)).subset ht, hspends⟩
  unfold seen spentWithin
  generalize ledger lib.sha256 scripts blocks = us at hspent
  induction us with
  | nil => rfl
  | cons u us ih =>
    have hrest := ih fun u' hu' => hspent u' (List.mem_cons_of_mem u hu')
    have hhead := hspent u List.mem_cons_self
    rw [List.map_cons, unspentValue_cons, unspentValue_cons, hrest, List.filter_cons]
    by_cases hs : u.isSpent = true <;> by_cases hl : SpentLater lib.sha256 blocks ts u
    · simp [hs, hl]
    · simp [hs, hl]
      omega
    · exact absurd (hhead hl) hs
    · simp [hs, hl]
      omega

/-- **Coins spent 500 blocks or more after they were created are spent later.** -/
theorem spentWithin_eq_nil {scripts : List Script} {ts : List (ℕ × ℕ)}
    (hreach : Batches.Reaches blocks.length 0 ts) (hshort : ∀ y ∈ ts, y.2 ≤ y.1 + FILTER_SIZE)
    (hfar : ∀ u ∈ ledger lib.sha256 scripts blocks, ∀ i j,
      At blocks (fun t => txid lib.sha256 t = u.outpoint.txid) i → At blocks (Spends u.outpoint) j →
      i + FILTER_SIZE ≤ j) :
    spentWithin lib.sha256 scripts blocks ts = [] := by
  classical
  refine List.filter_eq_nil_iff.mpr fun u hu hmissed => ?_
  obtain ⟨hspent, hlater⟩ := of_decide_eq_true hmissed
  obtain ⟨t, ht, hid⟩ := exists_tx_of_mem_ledger hu
  obtain ⟨i, hi⟩ := exists_at (P := fun t' => txid lib.sha256 t' = u.outpoint.txid) ht hid
  obtain ⟨t', ht', hspends⟩ := (isSpent_of_mem_ledger hu).mp hspent
  obtain ⟨j, hj⟩ := exists_at ht' hspends
  obtain ⟨l, y, r, hsplit, hset, y', hy', hold⟩ := hreach.setLater_of_far (Nat.zero_le i) hshort
    (hfar u hu i j hi hj) hj.lt hj
  exact hlater ⟨l, y, r, hsplit, exists_txnsOf_batchOf.mpr hset, y', hy',
    exists_txnsOf_batchOf.mpr ⟨i, hi, hold⟩⟩

/-- **The balance of a wallet that has seen all blocks.** -/
theorem Synced.balance_eq_ok_iff (hord : InOrder lib.sha256 blocks)
    (h : Synced lib blocks w blocks.length c) (b : ℕ) :
    c.wallet.balance = .ok b ↔ b < 2 ^ 64
      ∧ b = unspentValue (ledger lib.sha256 w.getPubkeys blocks)
        + ((spentWithin lib.sha256 w.getPubkeys blocks (scannedBatches c.log)).map
          PartialUtxo.amount).sum := by
  rw [WatchOnly.balance_eq_ok_iff, unspentValue_perm (h.perm hord), unspentValue_seen]
  constructor
  · rintro ⟨hfits, rfl⟩
    exact ⟨hfits, rfl⟩
  · rintro ⟨hfits, rfl⟩
    exact ⟨hfits, rfl⟩

/-- Nothing is missed in it if every spend is at least 500 blocks after its coin. -/
theorem Synced.spentWithin_eq_nil (h : Synced lib blocks w blocks.length c)
    (hfar : ∀ u ∈ ledger lib.sha256 w.getPubkeys blocks, ∀ i j,
      At blocks (fun t => txid lib.sha256 t = u.outpoint.txid) i → At blocks (Spends u.outpoint) j →
      i + FILTER_SIZE ≤ j) :
    spentWithin lib.sha256 w.getPubkeys blocks (scannedBatches c.log) = [] := by
  obtain ⟨e, hreach, hle, hge⟩ := h.reaches
  obtain rfl := le_antisymm hle hge
  exact Chain.spentWithin_eq_nil hreach h.short hfar

namespace ChainLib

/-- **The balance of a client that has caught up.**  After any truthful run, a call that returns and
was answered in full leaves the client at the end of the chain.  The wallet then holds the coins of
the ledger, and its balance is the value of the unspent ones and of those that were spent within one
range; there are none of the latter if every spend is at least 500 blocks after its coin. -/
theorem balance_of_truthfulRun {t : BlockTree lib} {best : BestChain t} {c' : CompactChain Xpub}
    (hord : InOrder lib.sha256 blocks) (hlen : blocks.length < 2 ^ 32)
    (hchain : best.blocks = blocks.map Block.header)
    (hempty : ∀ o : Wallet.OutPoint, w.utxoMap[o]? = none) (hrun : TruthfulRun best blocks w c)
    (hcall : Truthful best blocks c) (hfull : AnsweredInFull best c)
    (hok : lib.syncState c = (.ok (), c')) :
    c'.chainState.lastBlockHeight = blocks.length
    ∧ best.hashes[blocks.length]? = some c'.chainState.lastBlockHash
    ∧ c'.wallet.getUtxos.Perm (seen lib.sha256 w.getPubkeys blocks (scannedBatches c'.log))
    ∧ (∀ b, c'.wallet.balance = .ok b ↔ b < 2 ^ 64
      ∧ b = unspentValue (ledger lib.sha256 w.getPubkeys blocks)
        + ((spentWithin lib.sha256 w.getPubkeys blocks (scannedBatches c'.log)).map
          PartialUtxo.amount).sum)
    ∧ ((∀ u ∈ ledger lib.sha256 w.getPubkeys blocks, ∀ i j,
        At blocks (fun t => txid lib.sha256 t = u.outpoint.txid) i →
        At blocks (Spends u.outpoint) j → i + FILTER_SIZE ≤ j) →
      spentWithin lib.sha256 w.getPubkeys blocks (scannedBatches c'.log) = []) := by
  have hc := standsSynced_of_truthfulRun hord hlen hchain hempty hrun
  obtain ⟨⟨hsynced, hhash⟩, htip⟩ := hc.syncState hord hlen hchain hcall hok
  have hheight := htip hfull rfl
  rw [hheight] at hsynced hhash
  exact ⟨hheight, hhash, hsynced.perm hord, hsynced.balance_eq_ok_iff hord, hsynced.spentWithin_eq_nil⟩

end ChainLib

end Balance

/-! ## Two calls for two blocks -/

section LinkedBlocks

/-- A coinbase that pays to the wallet, in a block on genesis… -/
def minedBlock : Block :=
  { header := { (default : BlockHeader) with version := 1, prevHash := Bytes.zero 32 }
    txns := [coinbase] }

/-- …and a spend of it, in the block on that. -/
def spendingBlock : Block :=
  { header := { (default : BlockHeader) with version := 2, prevHash := blockHash headHash minedBlock }
    txns := [spending] }

/-- The chain of the two. -/
def linkedBlocks : List Block := [minedBlock, spendingBlock]

theorem inOrder_linkedBlocks : InOrder headHash linkedBlocks where
  stripped := by decide +kernel
  distinct := by decide +kernel
  causal := by decide +kernel
  notSelf := by decide +kernel
  ne_zero := by decide +kernel
  count := by decide +kernel
  value := by decide +kernel
  hashes := by decide +kernel

def linkedTree : BlockTree headLib where
  genesis := Bytes.zero 32
  mined := { b | b ∈ linkedBlocks.map Block.header }
  hash_injOn := fun b hb b' hb' =>
    (by decide +kernel : ∀ b ∈ linkedBlocks.map Block.header, ∀ b' ∈ linkedBlocks.map Block.header,
      b.hash headHash = b'.hash headHash → b = b') b hb b' hb'
  hash_ne_genesis := fun b hb =>
    (by decide +kernel : ∀ b ∈ linkedBlocks.map Block.header, b.hash headHash ≠ Bytes.zero 32) b hb

def linkedChain : BestChain linkedTree where
  blocks := linkedBlocks.map Block.header
  mined := fun _ hb => hb
  linked := HashChain.linked_of_zip (t := linkedTree.links) (by decide +kernel)

/-- A peer that answers a round with one block. -/
def oneBlockPeer (b : Block) : Peer :=
  { incoming :=
      [.message Commands.PONG (.pong default),
        .message Commands.HEADERS (.headers { inner := [b.header] }),
        .message Commands.CFHEADERS (.cfHeaders default)]
      ++ (filtersOf [b]).map (fun f => .message Commands.CFILTERS (.cFilters f))
      ++ [.message Commands.BLOCK (.block b)]
    writes := []
    sent := []
    version := default
    ping := default }

/-- A client before its first call… -/
def firstCall : CompactChain Unit := ⟨oneBlockPeer minedBlock, ⟨Bytes.zero 32, 0⟩,
  (watching (oneBlockPeer minedBlock)).wallet, []⟩

/-- …and before its second. -/
def secondCall : CompactChain Unit :=
  { (headLib.syncState firstCall).2 with p2p := oneBlockPeer spendingBlock }

/-- The client once its first request is out, and the headers are in. -/
def withHeaders (c : CompactChain Unit) : CompactChain Unit :=
  { c with p2p := (Peer.fetchHeaders c.chainState.lastBlockHash (Peer.keepAlive c.p2p).2).2 }

/-- A call of one round and one range. -/
theorem atRange_oneBlock {c c₂ : CompactChain Unit} {b : Block}
    (hstop : (headLib.syncRound () (Op.mapErr (fun _ => Error.networkError)
      (CompactChain.onPeer Peer.keepAlive) c).2).1 = .ok (.inr ()))
    (hheaders : (Peer.fetchHeaders c.chainState.lastBlockHash (Peer.keepAlive c.p2p).2).1
      = .ok [b.header]) {hs : List BlockHeader} {last : BlockHeader} {x : ℕ × ℕ}
    (h : headLib.AtRange c hs last x c₂) :
    hs = [b.header] ∧ last = b.header ∧ x = (c.chainState.lastBlockHeight + 1, 500)
      ∧ c₂ = withHeaders c := by
  obtain ⟨n, c₁, p, before, after, ⟨c₀, halive, hreach⟩, hfetch, hlast, hsplit, hbefore⟩ := h
  obtain rfl : (Op.mapErr (fun _ => Error.networkError)
    (CompactChain.onPeer Peer.keepAlive) c).2 = c₀ := congrArg Prod.snd halive
  obtain ⟨rfl, -, rfl⟩ := hreach.eq_start fun u s hgo => by
    rw [hgo] at hstop
    cases hstop
  have hfst : hs = [b.header] := Except.ok.inj ((congrArg Prod.fst hfetch).symm.trans hheaders)
  have hsnd : (Peer.fetchHeaders c.chainState.lastBlockHash (Peer.keepAlive c.p2p).2).2 = p :=
    congrArg Prod.snd hfetch
  subst hfst
  obtain ⟨hlt, rfl⟩ := eq_of_rangeStarts hsplit
  obtain rfl : before = [] := List.length_eq_zero_iff.mp (Nat.lt_one_iff.mp hlt)
  obtain ⟨-, rfl⟩ := Op.pure_eq_ok.mp hbefore
  refine ⟨rfl, (Option.some_inj.mp hlast).symm, rfl, ?_⟩
  rw [withHeaders, hsnd]
  rfl

/-- Such a call is answered from the chain, if it gets the next block. -/
theorem truthful_oneBlock {c : CompactChain Unit} {b : Block}
    (hstop : (headLib.syncRound () (Op.mapErr (fun _ => Error.networkError)
      (CompactChain.onPeer Peer.keepAlive) c).2).1 = .ok (.inr ()))
    (hheaders : (Peer.fetchHeaders c.chainState.lastBlockHash (Peer.keepAlive c.p2p).2).1
      = .ok [b.header])
    (hnext : ∃ k ≤ 2000, [b.header] = (linkedChain.after c.chainState.lastBlockHash).take k)
    (hposition : ∀ k < linkedBlocks.length, ∀ b' ∈ linkedBlocks[k]?,
      blockHash headHash b' = blockHash headHash b →
        (batchOf linkedBlocks ((UInt32.ofNat (c.chainState.lastBlockHeight + 1)).toNat - 1, k + 1))
          = [b])
    (hfilters : (headLib.getAndVerifyCompactFilters (UInt32.ofNat (c.chainState.lastBlockHeight + 1))
      (blockHash headHash b) (withHeaders c)).1 = .ok (filtersOf [b]))
    (hpresent : headLib.blockhashPresent c.wallet.getPubkeys (filtersOf [b])
      = .ok [blockHash headHash b])
    (hblocks : (Peer.fetchBlocks (blockInv [blockHash headHash b]) (headLib.getAndVerifyCompactFilters
      (UInt32.ofNat (c.chainState.lastBlockHeight + 1)) (blockHash headHash b)
      (withHeaders c)).2.p2p).1 = .ok [b]) (hb : b ∈ linkedBlocks) :
    ChainLib.Truthful linkedChain linkedBlocks c := by
  have hasked : ∀ n locator hs, headLib.Asked c n locator hs →
      locator = c.chainState.lastBlockHash ∧ hs = [b.header] := by
    intro n locator hs h
    obtain ⟨-, rfl, hfetch⟩ := h.eq_of_oneRound hstop
    exact ⟨rfl, Except.ok.inj (hfetch.symm.trans hheaders)⟩
  have hsent : ∀ startHeight hashStop filters c₃, headLib.SentFilters c startHeight hashStop filters c₃ →
      startHeight = UInt32.ofNat (c.chainState.lastBlockHeight + 1)
        ∧ hashStop = blockHash headHash b ∧ filters = filtersOf [b]
        ∧ c₃ = (headLib.getAndVerifyCompactFilters (UInt32.ofNat (c.chainState.lastBlockHeight + 1))
          (blockHash headHash b) (withHeaders c)).2 := by
    rintro startHeight hashStop filters c₃ ⟨hs, last, x, c₂, hrange, rfl, rfl, hget⟩
    obtain ⟨rfl, rfl, rfl, rfl⟩ := atRange_oneBlock hstop hheaders hrange
    have hhash : headLib.stopHash [b.header] (b.header.hash headLib.sha256) 500
        = blockHash headHash b := rfl
    rw [hhash] at hget
    exact ⟨rfl, hhash, Except.ok.inj ((congrArg Prod.fst hget).symm.trans hfilters),
      (congrArg Prod.snd hget).symm⟩
  refine ⟨fun n locator hs h => ?_, fun n locator hs h => ?_, fun s stop fs c₃ h => ?_,
    fun present bs h => ?_⟩
  · obtain ⟨rfl, rfl⟩ := hasked n locator hs h
    exact hnext
  · obtain ⟨rfl, rfl⟩ := hasked n locator hs h
    exact .inl rfl
  · obtain ⟨rfl, rfl, rfl, rfl⟩ := hsent s stop fs c₃ h
    refine ⟨fun k b' hk hhash => ?_, fun _ _ _ _ _ _ => rfl⟩
    rw [show headLib.sha256 = headHash from rfl] at hhash ⊢
    rw [hposition k (List.getElem?_eq_some_iff.mp hk).1 b' hk hhash]
    rfl
  · obtain ⟨s, stop, fs, c₃, p, hfs, -, hp, hget⟩ := h
    obtain ⟨rfl, rfl, rfl, rfl⟩ := hsent s stop fs c₃ hfs
    have hwallet := (@ChainLib.keeps_wallet_getAndVerifyCompactFilters Unit headLib c.wallet
      (UInt32.ofNat (c.chainState.lastBlockHeight + 1)) (blockHash headHash b)) (withHeaders c) rfl
    rw [hwallet, hpresent] at hp
    cases hp
    rw [Except.ok.inj ((congrArg Prod.fst hget).symm.trans hblocks)]
    exact ⟨fun b' hb' => by rwa [List.mem_singleton.mp hb'], rfl⟩

/-- Two calls, one block each: the spend is scanned in a later range than its coin. -/
theorem balance_of_truthfulRun_linkedBlocks :
    (headLib.syncState secondCall).2.chainState.lastBlockHeight = linkedBlocks.length
      ∧ (headLib.syncState secondCall).2.wallet.getUtxos.Perm
        (seen headHash firstCall.wallet.getPubkeys linkedBlocks
          (scannedBatches (headLib.syncState secondCall).2.log))
      ∧ ∀ b, (headLib.syncState secondCall).2.wallet.balance = .ok b ↔ b < 2 ^ 64
        ∧ b = unspentValue (ledger headHash firstCall.wallet.getPubkeys linkedBlocks)
          + ((spentWithin headHash firstCall.wallet.getPubkeys linkedBlocks
            (scannedBatches (headLib.syncState secondCall).2.log)).map PartialUtxo.amount).sum := by
  have hfirst : ChainLib.Truthful linkedChain linkedBlocks firstCall :=
    truthful_oneBlock (b := minedBlock) (by decide +kernel) (by decide +kernel)
      ⟨1, by decide, by decide +kernel⟩ (by decide +kernel) (by decide +kernel) (by decide +kernel)
      (by decide +kernel) List.mem_cons_self
  have hstop : (headLib.syncRound () (Op.mapErr (fun _ => Error.networkError)
      (CompactChain.onPeer Peer.keepAlive) secondCall).2).1 = .ok (.inr ()) := by decide +kernel
  have hheaders : (Peer.fetchHeaders secondCall.chainState.lastBlockHash
      (Peer.keepAlive secondCall.p2p).2).1 = .ok [spendingBlock.header] := by decide +kernel
  have hsecond : ChainLib.Truthful linkedChain linkedBlocks secondCall :=
    truthful_oneBlock (b := spendingBlock) hstop hheaders ⟨1, by decide, by decide +kernel⟩
      (by decide +kernel) (by decide +kernel) (by decide +kernel) (by decide +kernel)
      (List.mem_cons_of_mem _ List.mem_cons_self)
  have hfull : ChainLib.AnsweredInFull linkedChain secondCall := by
    intro n locator hs h
    obtain ⟨-, rfl, hfetch⟩ := h.eq_of_oneRound hstop
    obtain rfl := Except.ok.inj (hfetch.symm.trans hheaders)
    decide +kernel
  have hrun : ChainLib.TruthfulRun linkedChain linkedBlocks firstCall.wallet secondCall :=
    .reconnect _ (.sync (.start _) hfirst)
  have hok : (headLib.syncState secondCall).1 = .ok () := by decide +kernel
  have h := ChainLib.balance_of_truthfulRun inOrder_linkedBlocks (by decide) rfl
    (fun o => by simp [firstCall, watching, WatchOnly.new]) hrun hsecond hfull (Op.eq_of_fst hok)
  exact ⟨h.1, h.2.2.1, h.2.2.2.1⟩

end LinkedBlocks

end Bitspend.Chain
