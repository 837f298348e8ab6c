import Bitspend.Chain.Balance
import Bitspend.Chain.BasicFilters
import Bitspend.Chain.Replies

/-!
# Chain/CatchUp — an honest peer gets the client to the end of the chain

However the calls before it ended, one call of `sync_state` to a peer that has the chain, and replies to
every request out of it, returns at the end of the chain.  What such a peer says is written down
(`FilterService.syncReplies`): per round the next headers, per range the hashes of its filters, the
filters and the blocks that they pick.  Anything else may arrive in between.
-/

namespace Bitspend.Chain

open Wire Wallet WatchOnly

variable {Xpub : Type}

/-! ## What the peer replies -/

namespace FilterService

variable {lib : ChainLib} {blocks : List Block} {scripts : List Script}
  (svc : FilterService lib blocks scripts)

/-- The replies for a batch: the hashes of its filters, the filters, and the blocks they pick. -/
def batchReplies (x : ℕ × ℕ) : List Awaited :=
  Peer.cfheadersReply ((batchOf blocks x).map fun b => sha256d lib.sha256 (svc.bytes b))
    :: (((batchOf blocks x).map svc.filter).map Peer.cfilterReply
      ++ ((batchOf blocks x).filter svc.picks).map Peer.blockReply)

/-- The batches of a round of `n` headers after height `h`. -/
def roundBatches (h n : ℕ) : List (ℕ × ℕ) :=
  (List.range (rangeCount n)).map fun i => (h + 500 * i, h + min (500 * i + 500) n)

/-- The headers of a round, as they are sent. -/
def roundHeaders (blocks : List Block) (h : ℕ) : List BlockHeader :=
  ((blocks.map Block.header).drop h).take MAX_HEADER_LEN

/-- The replies for a round: the next headers, and what belongs to them. -/
def roundReplies (h : ℕ) : List Awaited :=
  Peer.headersReply (roundHeaders blocks h) ::
    if (roundHeaders blocks h).length = 0 then []
    else (roundBatches h (roundHeaders blocks h).length).flatMap svc.batchReplies

/-- The replies for so many full rounds and the last one. -/
def replies : ℕ → ℕ → List Awaited
  | 0, h => svc.roundReplies h
  | n + 1, h => svc.roundReplies h ++ replies n (h + MAX_HEADER_LEN)

/-- **The replies for a call** of a client that stands at height `h`. -/
def syncReplies (h : ℕ) : List Awaited :=
  Peer.pongReply :: svc.replies ((blocks.length - h) / MAX_HEADER_LEN) h

theorem lt_length_replies (n h : ℕ) : n < (svc.replies n h).length := by
  induction n generalizing h with
  | zero => exact Nat.succ_pos _
  | succ n ih =>
    rw [replies, List.length_append, roundReplies, List.length_cons]
    have := ih (h + MAX_HEADER_LEN)
    omega

end FilterService

/-! ## One batch -/

/-- The last block of a batch, and those before it. -/
theorem batchOf_eq_concat {blocks : List Block} {a e : ℕ} {b : Block} (hae : a ≤ e)
    (hb : blocks[e]? = some b) : batchOf blocks (a, e + 1) = batchOf blocks (a, e) ++ [b] := by
  have hlen : e - a < (blocks.drop a).length := by
    have := (List.getElem?_eq_some_iff.mp hb).1
    rw [List.length_drop]
    omega
  have hsub : e + 1 - a = e - a + 1 := by omega
  have hget : (blocks.drop a)[e - a] = b := by
    have h := List.getElem?_eq_getElem hlen
    rw [List.getElem?_drop, Nat.add_sub_cancel' hae, hb] at h
    exact (Option.some_inj.mp h).symm
  rw [batchOf, batchOf, hsub, List.take_succ_eq_append_getElem hlen, hget]

section Batch

variable {lib : ChainLib} {t : BlockTree lib} {best : BestChain t} {blocks : List Block}

/-- Blocks of the chain at different positions have different hashes. -/
theorem position_unique (hchain : best.blocks = blocks.map Block.header) {i j : ℕ} {b b' : Block}
    (hb : blocks[i]? = some b) (hb' : blocks[j]? = some b')
    (h : blockHash lib.sha256 b = blockHash lib.sha256 b') : i = j := by
  have hheight : ∀ {k : ℕ} {x : Block}, blocks[k]? = some x →
      best.hashes[k + 1]? = some (blockHash lib.sha256 x) := by
    intro k x hx
    rw [HashChain.hashes, List.getElem?_cons_succ, hchain, List.getElem?_map, List.getElem?_map, hx]
    rfl
  have := HashChain.height_unique (hheight hb) ((hheight hb').trans (congrArg some h.symm))
  omega

variable {scripts : List Script} (svc : FilterService lib blocks scripts)

theorem FilterService.verifyFilters_eq (bs : List Block) :
    lib.verifyFilters (bs.map fun b => sha256d lib.sha256 (svc.bytes b)) (bs.map svc.filter)
      = .ok () := by
  rw [ChainLib.verifyFilters, List.zip_map']
  induction bs with
  | nil => rfl
  | cons b bs ih =>
    change ((if sha256d lib.sha256 (svc.bytes b) ≠ sha256d lib.sha256 (svc.bytes b)
      then Outcome.err Error.filterMatchEror else pure ()) >>= fun _ => _) = _
    rw [if_neg (not_not_intro rfl)]
    exact ih

include svc

/-- **The filters of a batch are fetched and pass the check.** -/
theorem FilterService.getAndVerifyCompactFilters_eq (hchain : best.blocks = blocks.map Block.header)
    {a e : ℕ} {b : Block} (hae : a ≤ e) (hb : blocks[e]? = some b) (n : UInt32)
    {c : CompactChain Xpub} {rest : List Awaited}
    (hready : c.p2p.Ready (svc.batchReplies (a, e + 1) ++ rest)) :
    ∃ p, lib.getAndVerifyCompactFilters n (blockHash lib.sha256 b) c
        = (.ok ((batchOf blocks (a, e + 1)).map svc.filter), { c with p2p := p })
      ∧ p.Ready (((batchOf blocks (a, e + 1)).filter svc.picks).map Peer.blockReply ++ rest) := by
  have hbefore : ∀ f ∈ (batchOf blocks (a, e)).map svc.filter,
      f.blockHash ≠ blockHash lib.sha256 b := by
    intro f hf heq
    obtain ⟨b', hb', rfl⟩ := List.mem_map.mp hf
    obtain ⟨k, ⟨-, hlt⟩, hk⟩ := mem_batchOf.mp hb'
    exact absurd (position_unique hchain hk hb heq) hlt.ne
  have hfilters : (batchOf blocks (a, e + 1)).map svc.filter
      = (batchOf blocks (a, e)).map svc.filter ++ [svc.filter b] := by
    rw [batchOf_eq_concat hae hb, List.map_append, List.map_singleton]
  rw [batchReplies, hfilters] at hready
  obtain ⟨f, p₁, hfetch₁, hhashes, hready₁⟩ := Peer.gets_fetchCompactFilterHeaders n _ _ c.p2p
    (_ ++ rest) hready
  rw [List.append_assoc] at hready₁
  obtain ⟨_, p₂, hfetch₂, rfl, hready₂⟩ := Peer.gets_fetchCompactFilters n rfl hbefore p₁ _ hready₁
  refine ⟨p₂, ?_, hready₂⟩
  refine Op.bind_eq_ok.mpr ⟨f, { c with p2p := p₁ },
    Op.mapErr_eq_ok.mpr (Op.zoom_eq_ok.mpr ⟨p₁, hfetch₁, rfl⟩), ?_⟩
  refine Op.bind_eq_ok.mpr ⟨_, { c with p2p := p₂ },
    Op.mapErr_eq_ok.mpr (Op.zoom_eq_ok.mpr ⟨p₂, hfetch₂, rfl⟩), ?_⟩
  refine Op.bind_eq_ok.mpr ⟨(), _, Op.lift_eq_ok.mpr ⟨?_, rfl⟩, ?_⟩
  · rw [hhashes, ← hfilters]
    exact svc.verifyFilters_eq _
  · rw [hfilters]
    rfl

omit svc in
/-- The blocks of some hashes are those that are sent. -/
theorem gets_fetchBlocks_blockInv (sha256 : List UInt8 → Bytes 32) {bs : List Block} (hne : bs ≠ []) :
    Peer.Gets (Peer.fetchBlocks (blockInv (bs.map (blockHash sha256)))) (· = bs)
      (bs.map Peer.blockReply) :=
  Peer.gets_fetchBlocks hne (by rw [blockInv, List.length_map, List.length_map])

/-- **The blocks that are picked are fetched and scanned.** -/
theorem FilterService.fetchAndSaveUtxos_eq {x : ℕ × ℕ} {c : CompactChain Xpub}
    (hcoins : OfLedger lib.sha256 blocks c.wallet) (hscripts : c.wallet.getPubkeys = scripts)
    {rest : List Awaited}
    (hready : c.p2p.Ready (((batchOf blocks x).filter svc.picks).map Peer.blockReply ++ rest)) :
    ∃ c', lib.fetchAndSaveUtxos ((batchOf blocks x).map svc.filter) c = (.ok (), c')
      ∧ c'.p2p.Ready rest := by
  subst hscripts
  have hpresent := svc.blockhashPresent_eq (@batchOf_sublist blocks x).subset
  rcases eq_or_ne ((batchOf blocks x).filter svc.picks) [] with hnil | hne
  · rw [hnil] at hpresent hready
    exact ⟨c, ChainLib.fetchAndSaveUtxos_of_none hpresent, hready⟩
  · obtain ⟨_, p, hfetch, rfl, hrest⟩ := gets_fetchBlocks_blockInv lib.sha256 hne c.p2p rest hready
    obtain ⟨w', hins⟩ := @ChainLib.insertUtxos_scan_ok Xpub lib.sha256 blocks
      ((batchOf blocks x).filter svc.picks) c.wallet hcoins lib.sha256
    exact ⟨_, ChainLib.fetchAndSaveUtxos_of_served hpresent (by simpa using hne) hfetch hins, hrest⟩

end Batch

/-! ## A range, and the ranges of a round -/

section Round

variable {lib : ChainLib} {t : BlockTree lib} {best : BestChain t} {blocks : List Block}
  {w : WatchOnly Xpub} (hord : InOrder lib.sha256 blocks) (hlen : blocks.length < 2 ^ 32)
  (hchain : best.blocks = blocks.map Block.header) (svc : FilterService lib blocks w.getPubkeys)
  {h : ℕ} {hs : List BlockHeader} (hhs : hs = FilterService.roundHeaders blocks h)
  {last : BlockHeader} (hlast : hs.getLast? = some last)

include hord hlen hchain hhs hlast

/-- **A range that is replied to goes through**, and its batch is on the record. -/
theorem FilterService.syncRange_eq {i : ℕ} (hi : 500 * i < hs.length) {c : CompactChain Xpub}
    (hc : Synced lib blocks w (h + 500 * i) c) {rest : List Awaited}
    (hready : c.p2p.Ready
      (svc.batchReplies (h + 500 * i, h + min (500 * i + 500) hs.length) ++ rest)) :
    ∃ c', lib.syncRange hs (h + 1) (last.hash lib.sha256) (h + 1 + 500 * i, 500 + 500 * i) c
        = (.ok (), c')
      ∧ c'.p2p.Ready rest ∧ Synced lib blocks w (h + min (500 * i + 500) hs.length) c' := by
  -- the stop hash is that of the last block of the batch
  obtain ⟨b, hb, hheader⟩ := exists_block_of_lt hhs
    (by omega : min (500 + 500 * i - 1) (hs.length - 1) < hs.length)
  have hstop : lib.stopHash hs (last.hash lib.sha256) (500 + 500 * i) = blockHash lib.sha256 b := by
    refine Option.some_inj.mp ((stopHash_eq lib hlast).trans ?_)
    rw [hheader]
    rfl
  have hend : h + min (500 * i + 500) hs.length
      = h + min (500 + 500 * i - 1) (hs.length - 1) + 1 := by omega
  rw [hend] at hready
  obtain ⟨p, hget, hready₁⟩ := svc.getAndVerifyCompactFilters_eq hchain (by omega) hb
    (UInt32.ofNat (h + 1 + 500 * i)) hready
  obtain ⟨c₂, hfetch, hready₂⟩ := svc.fetchAndSaveUtxos_eq (c := { c with p2p := p })
    hc.coins hc.pubkeys hready₁
  rw [← hstop] at hget
  have hne := lib.getAndVerifyCompactFilters_eq_ok hget
  obtain ⟨c', hcall, hpeer⟩ : ∃ c', lib.syncRange hs (h + 1) (last.hash lib.sha256)
      (h + 1 + 500 * i, 500 + 500 * i) c = (.ok (), c') ∧ c'.p2p.Ready rest := by
    refine ⟨c₂.note (lib.rangeEvent hs (h + 1) (last.hash lib.sha256)
      (h + 1 + 500 * i, 500 + 500 * i)), Op.bind_eq_ok.mpr ⟨_, _, hget, ?_⟩, hready₂⟩
    rw [if_neg (by simpa using hne)]
    exact Op.bind_eq_ok.mpr ⟨(), c₂, hfetch, rfl⟩
  refine ⟨c', hcall, hpeer, hc.range hord hlen hhs hlast hi hcall fun filters c₁ hget' => ?_⟩
  -- the answers are those of the service
  rw [hget] at hget'
  cases hget'
  have hstart : (UInt32.ofNat (h + 1 + 500 * i)).toNat - 1 = h + 500 * i := by
    have := add_length_le hhs (by rintro rfl; exact absurd hi (Nat.not_lt_zero _))
    rw [UInt32.toNat_ofNat_of_lt' (show h + 1 + 500 * i < 2 ^ 32 by omega)]
    omega
  refine ⟨⟨fun k b' hb' heq => ?_, fun f hf b' hb' heq htouch => ?_⟩,
    fun present bs p' hne' hpresent hblocks => ?_⟩
  · rw [hstop] at heq
    rw [hstart, position_unique hchain hb' hb heq, List.map_map]
    rfl
  · obtain ⟨b₂, hb₂, rfl⟩ := List.mem_map.mp hf
    obtain rfl := hord.hashes b₂ ((batchOf_sublist _).subset hb₂) b' hb' heq
    change lib.matchAny (svc.bytes b₂) (blockHash lib.sha256 b₂) c.wallet.getPubkeys = _
    rw [hc.pubkeys] at htouch ⊢
    rw [svc.matchAny_eq b₂ hb', svc.picks_of_touches b₂ hb' htouch]
  · change lib.blockhashPresent c.wallet.getPubkeys _ = _ at hpresent
    rw [hc.pubkeys, svc.blockhashPresent_eq (@batchOf_sublist blocks _).subset] at hpresent
    cases hpresent
    obtain ⟨_, p₂, hfetch', rfl, -⟩ := gets_fetchBlocks_blockInv lib.sha256
      (fun hnil => hne' (congrArg (List.map (blockHash lib.sha256)) hnil)) p rest hready₁
    rw [hfetch'] at hblocks
    cases hblocks
    exact ⟨fun b' hb' => (batchOf_sublist _).subset (List.mem_of_mem_filter hb'), rfl⟩

/-- **So do all ranges of a round**, one after another. -/
theorem FilterService.forM_syncRange_eq {m i : ℕ} (hm : i + m ≤ rangeCount hs.length)
    {c : CompactChain Xpub} (hc : Synced lib blocks w (h + min (500 * i) hs.length) c)
    {rest : List Awaited}
    (hready : c.p2p.Ready (((List.range' i m).map fun i =>
      (h + 500 * i, h + min (500 * i + 500) hs.length)).flatMap svc.batchReplies ++ rest)) :
    ∃ c', (forM ((List.range' i m).map fun i => (h + 1 + 500 * i, 500 + 500 * i))
        (lib.syncRange hs (h + 1) (last.hash lib.sha256)) : Op Error (CompactChain Xpub) Unit) c
          = (.ok (), c')
      ∧ c'.p2p.Ready rest ∧ Synced lib blocks w (h + min (500 * (i + m)) hs.length) c' := by
  induction m generalizing i c with
  | zero => exact ⟨c, rfl, hready, hc⟩
  | succ m ih =>
    have hpos : 0 < hs.length := by
      rw [List.length_pos_iff]
      rintro rfl
      cases hlast
    have hi : 500 * i < hs.length := by
      unfold rangeCount at hm
      split_ifs at hm <;> omega
    rw [List.range'_succ, List.map_cons, List.flatMap_cons, List.append_assoc] at hready
    rw [min_eq_left hi.le] at hc
    obtain ⟨c₁, hrange, hready₁, hc₁⟩ := svc.syncRange_eq hord hlen hchain hhs hlast hi hc hready
    obtain ⟨c₂, hrest, hready₂, hc₂⟩ := @ih (i + 1) (by omega) c₁ hc₁ hready₁
    rw [show i + 1 + m = i + (m + 1) by omega] at hc₂
    rw [List.range'_succ, List.map_cons]
    exact ⟨c₂, Op.forM_cons_eq_ok.mpr ⟨(), c₁, hrange, hrest⟩, hready₂, hc₂⟩

end Round

theorem rangeStarts_eq (start n : ℕ) : rangeStarts start (start + (n - 1))
    = (List.range (rangeCount n)).map fun i => (start + 500 * i, 500 + 500 * i) := by
  refine List.ext_getElem? fun i => ?_
  rw [rangeStarts, List.getElem?_map, List.getElem?_zipIdx, List.getElem?_map]
  rcases Nat.lt_or_ge i (rangeCount n) with hi | hi
  · rw [getElem?_blockNumbers hi, List.getElem?_range hi]
    simp [FILTER_SIZE]
  · rw [List.getElem?_eq_none (by rwa [length_blockNumbers]),
      List.getElem?_eq_none (by rwa [List.length_range])]
    rfl

/-! ## Rounds -/

namespace ChainLib

variable {lib : ChainLib} {t : BlockTree lib} {best : BestChain t} {blocks : List Block}
  {w : WatchOnly Xpub} (hord : InOrder lib.sha256 blocks) (hlen : blocks.length < 2 ^ 32)
  (hchain : best.blocks = blocks.map Block.header) (svc : FilterService lib blocks w.getPubkeys)
  {c : CompactChain Xpub} (hc : StandsSynced best blocks w c)

include hord hlen hchain hc

/-- **A round that is replied to** moves the state past its headers; and the wallet with it, if their
last height does not start a range. -/
theorem StandsSynced.round_of_ready {rest : List Awaited}
    (hready : c.p2p.Ready (svc.roundReplies c.chainState.lastBlockHeight ++ rest)) :
    ∃ c', lib.syncRound () c = (.ok (if blocks.length - c.chainState.lastBlockHeight < MAX_HEADER_LEN
        then .inr () else .inl ()), c')
      ∧ c'.p2p.Ready rest
      ∧ c'.chainState.lastBlockHeight = c.chainState.lastBlockHeight
          + min MAX_HEADER_LEN (blocks.length - c.chainState.lastBlockHeight)
      ∧ best.hashes[c'.chainState.lastBlockHeight]? = some c'.chainState.lastBlockHash
      ∧ (ReachesLast (min MAX_HEADER_LEN (blocks.length - c.chainState.lastBlockHeight)) →
        StandsSynced best blocks w c') := by
  obtain ⟨hs, hhs⟩ : ∃ hs, hs = FilterService.roundHeaders blocks c.chainState.lastBlockHeight := ⟨_, rfl⟩
  have hcount : hs.length = min MAX_HEADER_LEN (blocks.length - c.chainState.lastBlockHeight) := by
    rw [hhs, FilterService.roundHeaders, List.length_take, List.length_drop, List.length_map]
  rw [FilterService.roundReplies, ← hhs] at hready
  obtain ⟨_, p, hfetch, heq, hready₁⟩ := Peer.gets_fetchHeaders c.chainState.lastBlockHash hs c.p2p
    (_ ++ rest) hready
  rw [heq] at hfetch
  rw [lib.syncRound_of_fetchHeaders hfetch, ← hcount]
  have hle := hc.height_le
  rcases eq_or_ne hs [] with hnil | hne
  · -- there is nothing after the state
    rw [hnil, List.length_nil] at hcount ⊢
    rw [hnil, if_pos List.length_nil] at hready₁
    rw [if_pos (by unfold MAX_HEADER_LEN at hcount ⊢; omega)]
    exact ⟨_, rfl, hready₁, rfl, hc.hash, fun _ => hc.withPeer p⟩
  have hpos : 0 < hs.length := List.length_pos_iff.mpr hne
  obtain ⟨last, hlast⟩ : ∃ last, hs.getLast? = some last := ⟨_, List.getLast?_eq_some_getLast hne⟩
  rw [if_neg hpos.ne'] at hready₁
  rw [FilterService.roundBatches, List.range_eq_range'] at hready₁
  obtain ⟨c₂, hranges, hready₂, hc₂⟩ := svc.forM_syncRange_eq hord hlen hchain hhs hlast
    (by rw [Nat.zero_add]) (c := { c with p2p := p }) ((hc.withPeer p).synced.mono (by simp)) hready₁
  rw [Nat.zero_add] at hc₂
  have hhash : best.hashes[c.chainState.lastBlockHeight + hs.length]? = some (last.hash lib.sha256) :=
    HashChain.getElem?_hashes_of_getLast? (by rw [hhs, FilterService.roundHeaders, hchain]) hlast
  refine ⟨c₂.advance (c.chainState.lastBlockHeight + hs.length) (last.hash lib.sha256), ?_, hready₂, rfl,
    hhash, fun hreaches => ⟨?_, hhash⟩⟩
  · have hlast' : hs.length < MAX_HEADER_LEN
        ↔ blocks.length - c.chainState.lastBlockHeight < MAX_HEADER_LEN := by
      rw [hcount, min_lt_iff, or_iff_right (lt_irrefl _)]
    rw [lib.syncHeaders_of_getLast? hlast, rangeStarts_eq, List.range_eq_range', if_congr hlast' rfl rfl]
    exact Op.bind_eq_ok.mpr ⟨(), c₂, hranges, Op.bind_eq_ok.mpr ⟨(), _, rfl, rfl⟩⟩
  · rw [min_rangeCount hreaches] at hc₂
    exact hc₂.advance _ _

omit hc in
/-- **Rounds that are replied to** get to the end of the chain. -/
theorem StandsSynced.rounds_of_ready {n : ℕ} (hc : StandsSynced best blocks w c)
    (hn : (blocks.length - c.chainState.lastBlockHeight) / MAX_HEADER_LEN = n) {m : ℕ} (hm : n < m)
    {rest : List Awaited}
    (hready : c.p2p.Ready (svc.replies n c.chainState.lastBlockHeight ++ rest)) :
    ∃ c', Op.loop lib.syncRound m () c = (.ok (), c')
      ∧ c'.chainState.lastBlockHeight = blocks.length
      ∧ best.hashes[blocks.length]? = some c'.chainState.lastBlockHash
      ∧ (ReachesLast ((blocks.length - c.chainState.lastBlockHeight) % MAX_HEADER_LEN) →
        StandsSynced best blocks w c') := by
  induction n generalizing m c with
  | zero =>
    obtain ⟨m, rfl⟩ : ∃ k, m = k + 1 := ⟨m - 1, by omega⟩
    have hlt : blocks.length - c.chainState.lastBlockHeight < MAX_HEADER_LEN :=
      (Nat.div_eq_zero_iff.mp hn).resolve_left (by decide)
    have hle := hc.height_le
    obtain ⟨c', hround, -, hheight, hhash, hstands⟩ := hc.round_of_ready hord hlen hchain svc hready
    rw [min_eq_right hlt.le] at hheight hstands
    rw [Nat.add_sub_cancel' hle] at hheight
    rw [if_pos hlt] at hround
    rw [hheight] at hhash
    refine ⟨c', ?_, hheight, hhash, fun hreaches => hstands ?_⟩
    · rw [Op.loop_succ, hround]
    · rwa [Nat.mod_eq_of_lt hlt] at hreaches
  | succ n ih =>
    obtain ⟨m, rfl⟩ : ∃ k, m = k + 1 := ⟨m - 1, by omega⟩
    have hge : MAX_HEADER_LEN ≤ blocks.length - c.chainState.lastBlockHeight := by
      unfold MAX_HEADER_LEN at hn ⊢
      omega
    rw [FilterService.replies, List.append_assoc] at hready
    obtain ⟨c₁, hround, hready₁, hheight, -, hstands⟩ :=
      hc.round_of_ready hord hlen hchain svc hready
    rw [min_eq_left hge] at hheight hstands
    rw [if_neg (Nat.not_lt.mpr hge)] at hround
    have hleft : blocks.length - c.chainState.lastBlockHeight
        = blocks.length - c₁.chainState.lastBlockHeight + MAX_HEADER_LEN := by omega
    rw [← hheight] at hready₁
    obtain ⟨c', hloop, hend⟩ := ih (m := m) (hstands (.inr (by decide)))
      (by rw [hleft, Nat.add_div_right _ (by decide)] at hn; omega) (by omega) hready₁
    refine ⟨c', ?_, ?_⟩
    · rw [Op.loop_succ, hround]
      exact hloop
    · rwa [hleft, Nat.add_mod_right]

omit hc in
/-- **An honest peer gets the client to the end of the chain.**  After calls that were answered from the
chain, however they ended, a call that is replied to returns, at the end of the chain; and if the last
height of its last round starts no range, the wallet then holds the coins of the ledger, with the balance
of `balance_of_truthfulRun`. -/
theorem catches_up (hempty : ∀ o : Wallet.OutPoint, w.utxoMap[o]? = none)
    (hrun : TruthfulRun best blocks w c)
    (hready : c.p2p.Ready (svc.syncReplies c.chainState.lastBlockHeight)) :
    ∃ c', lib.syncState c = (.ok (), c')
      ∧ c'.chainState.lastBlockHeight = blocks.length
      ∧ best.hashes[blocks.length]? = some c'.chainState.lastBlockHash
      ∧ (ReachesLast ((blocks.length - c.chainState.lastBlockHeight) % MAX_HEADER_LEN) →
        c'.wallet.getUtxos.Perm (seen lib.sha256 w.getPubkeys blocks (scannedBatches c'.log))
        ∧ ∀ b, c'.wallet.balance = .ok b ↔ b < 2 ^ 64
          ∧ b = unspentValue (ledger lib.sha256 w.getPubkeys blocks)
            + ((spentWithin lib.sha256 w.getPubkeys blocks (scannedBatches c'.log)).map
              PartialUtxo.amount).sum) := by
  have hc := standsSynced_of_truthfulRun hord hlen hchain hempty hrun
  obtain ⟨_, p, halive, -, hready₁⟩ := Peer.gets_keepAlive c.p2p
    (svc.replies ((blocks.length - c.chainState.lastBlockHeight) / MAX_HEADER_LEN)
      c.chainState.lastBlockHeight) hready
  have hrounds := hready₁.delivers.length_le
  have hlt := svc.lt_length_replies ((blocks.length - c.chainState.lastBlockHeight) / MAX_HEADER_LEN)
    c.chainState.lastBlockHeight
  rw [← List.append_nil (svc.replies _ _)] at hready₁
  obtain ⟨c', hloop, hheight, hhash, hstands⟩ := (hc.withPeer p).rounds_of_ready hord hlen hchain svc
    rfl (hlt.trans_le (Nat.le_succ_of_le hrounds)) hready₁
  refine ⟨c', ?_, hheight, hhash, fun hreaches => ?_⟩
  · exact Op.bind_eq_ok.mpr ⟨(), { c with p2p := p },
      Op.mapErr_eq_ok.mpr (Op.zoom_eq_ok.mpr ⟨p, halive, rfl⟩), hloop⟩
  · have hsynced := (hstands hreaches).synced
    rw [hheight] at hsynced
    exact ⟨hsynced.perm hord, hsynced.balance_eq_ok_iff hord⟩

end ChainLib

/-! ## A chain of two blocks -/

section LinkedBlocks

/-- The chain of two, for the client that reads filters. -/
def readTree : BlockTree (readingLib headHash headSip) where
  genesis := linkedTree.genesis
  mined := linkedTree.mined
  hash_injOn := linkedTree.hash_injOn
  hash_ne_genesis := linkedTree.hash_ne_genesis

def readChain : BestChain readTree where
  blocks := linkedChain.blocks
  mined := linkedChain.mined
  linked := linkedChain.linked

theorem size_linkedBlocks :
    ∀ b ∈ linkedBlocks, (basicElements headHash linkedBlocks b).length * Filter.M.toNat < 2 ^ 64 := by
  decide +kernel

/-- The filter of a block of it, as it is sent. -/
def linkedFilter (b : Block) : CompactFilter :=
  { filterType := 0, blockHash := blockHash headHash b
    filterBytes := basicFilter headSip headHash linkedBlocks b }

/-- What a peer with the chain says to a client at genesis; an `inv` and a failed read come in between. -/
def linkedReplies : List Incoming :=
  [.message Commands.INV (.inv { objects := [] }),
    .message Commands.PONG (.pong default),
    .read (.error (.error (.ioError { kind := .timedOut, msg := "" }))),
    .message Commands.HEADERS (.headers { inner := linkedBlocks.map Block.header }),
    .message Commands.CFHEADERS (.cfHeaders { (default : CompactFilterHeader) with
      filterHashes := linkedBlocks.map fun b => sha256d headHash (linkedFilter b).filterBytes }),
    .message Commands.CFILTERS (.cFilters (linkedFilter minedBlock)),
    .message Commands.CFILTERS (.cFilters (linkedFilter spendingBlock)),
    .message Commands.BLOCK (.block minedBlock),
    .message Commands.BLOCK (.block spendingBlock)]

/-- The client before the call. -/
def freshClient : CompactChain Unit :=
  { firstCall with p2p := { oneBlockPeer minedBlock with incoming := linkedReplies } }

/-- The peer makes the filters. -/
def linkedService :
    FilterService (readingLib headHash headSip) linkedBlocks freshClient.wallet.getPubkeys :=
  basicService headSip inOrder_linkedBlocks size_linkedBlocks (by decide +kernel)

theorem ready_freshClient : freshClient.p2p.Ready (linkedService.syncReplies 0) := by
  have hpicks : (batchOf linkedBlocks (0, 2)).filter linkedService.picks = linkedBlocks := by
    decide +kernel
  have hreplies : linkedService.syncReplies 0 = Peer.pongReply
      :: Peer.headersReply (linkedBlocks.map Block.header)
      :: (linkedService.batchReplies (0, 2) ++ []) := rfl
  rw [hreplies, FilterService.batchReplies, hpicks]
  refine ⟨?_, fun r hr => absurd hr List.not_mem_nil⟩
  refine .other (by decide) (by decide) (.reply rfl trivial (.failed (.reply rfl rfl ?_)))
  refine .reply rfl ⟨_, rfl, rfl⟩ (.reply rfl rfl (.reply rfl rfl ?_))
  exact .reply rfl rfl (.reply rfl rfl (.done _))

/-- It gets to the second block, and its wallet to a balance. -/
theorem catches_up_linkedBlocks :
    ∃ c', (readingLib headHash headSip).syncState freshClient = (.ok (), c')
      ∧ c'.chainState.lastBlockHeight = 2
      ∧ c'.wallet.getUtxos.Perm (seen headHash freshClient.wallet.getPubkeys linkedBlocks
        (scannedBatches c'.log)) := by
  obtain ⟨c', hcall, hheight, -, hwallet⟩ := @ChainLib.catches_up Unit (readingLib headHash headSip)
    readTree readChain linkedBlocks freshClient.wallet inOrder_linkedBlocks (by decide) rfl
    linkedService freshClient (fun o => by simp [freshClient, firstCall, watching, WatchOnly.new])
    (.start _) ready_freshClient
  exact ⟨c', hcall, hheight, (hwallet (.inr (by decide))).1⟩

end LinkedBlocks

end Bitspend.Chain
