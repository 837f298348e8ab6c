import Bitspend.Chain.P2p
import Bitspend.Wallet.WatchOnly

/-!
# Chain/CompactChain — following the chain by compact filters

`chain.rs`.  A round of `sync_state` asks for the headers after the last known block, splits their
heights into ranges, and for each range fetches the filters and hands the coins of the matching
blocks to the wallet; then the state moves past the headers.  SHA-256 and the filter match
(`BlockFilter::match_any`) are parameters.  Heights are natural numbers; a request carries the start
of its range as a `u32`.
-/

namespace Bitspend.Chain

open Wire Wallet

/-- `MAX_HEADER_LEN`: as many headers as one reply holds. -/
def MAX_HEADER_LEN : ℕ := 2000

/-- `FILTER_SIZE`: as many filters as one request asks for. -/
def FILTER_SIZE : ℕ := 500

/-- `ChainState`. -/
structure ChainState where
  lastBlockHash : Hash256
  lastBlockHeight : ℕ
  deriving Repr, DecidableEq, Inhabited

/-- What a sync has done: a range of blocks fetched, verified and saved, asked for by start height
and stop hash (with the height of the stop block), or the state moved to a height. -/
inductive SyncEvent where
  | scanned (startHeight : UInt32) (hashStop : Hash256) (stopHeight : ℕ)
  | advanced (height : ℕ)
  deriving Repr, DecidableEq

/-- `CompactChain`.  `log` is a record of what was done, which nothing reads. -/
structure CompactChain (Xpub : Type) where
  p2p : Peer
  chainState : ChainState
  wallet : WatchOnly Xpub
  log : List SyncEvent

/-- What the chain takes from elsewhere: SHA-256, and `match_any` of a filter's bytes, its block's
hash and the scripts. -/
structure ChainLib where
  sha256 : List UInt8 → Bytes 32
  matchAny : List UInt8 → Hash256 → List Script → Outcome Error Bool

namespace CompactChain

variable {Xpub α : Type}

/-- A call on the peer. -/
def onPeer (x : Op Error Peer α) : Op Error (CompactChain Xpub) α :=
  Op.zoom CompactChain.p2p (fun p c => { c with p2p := p }) x

/-- A call on the wallet; its errors become `WalletError(1)`. -/
def onWallet (x : Op Wallet.Error (WatchOnly Xpub) α) : Op Error (CompactChain Xpub) α :=
  Op.mapErr (fun _ => .walletError 1)
    (Op.zoom CompactChain.wallet (fun w c => { c with wallet := w }) x)

/-- Add to the record. -/
def note (e : SyncEvent) (c : CompactChain Xpub) : CompactChain Xpub := { c with log := c.log ++ [e] }

/-- The assignments that end a round. -/
def advance (height : ℕ) (hash : Hash256) (c : CompactChain Xpub) : CompactChain Xpub :=
  { c.note (.advanced height) with
    chainState := { lastBlockHash := hash, lastBlockHeight := height } }

end CompactChain

open CompactChain

/-! ## Ranges -/

/-- `(start..stop).step_by(step)`. -/
def stepBy (start stop step : ℕ) : List ℕ :=
  (List.range ((stop - start + (step - 1)) / step)).map fun i => start + step * i

/-- `block_numbers`: where the ranges of a round start. -/
def blockNumbers (startBlock endBlock : ℕ) : List ℕ :=
  if startBlock < endBlock then stepBy startBlock endBlock FILTER_SIZE else [startBlock]

/-- `block_numbers.into_iter().zip(block_headers_counters)`, the counters being
`(FILTER_SIZE..).step_by(FILTER_SIZE)`. -/
def rangeStarts (startBlock endBlock : ℕ) : List (ℕ × ℕ) :=
  (blockNumbers startBlock endBlock).zipIdx.map fun x => (x.1, FILTER_SIZE + FILTER_SIZE * x.2)

/-! ## Coins in blocks -/

/-- The outputs of a transaction that pay to one of the scripts, as new coins. -/
def newUtxosOf (sha256 : List UInt8 → Bytes 32) (pubKeys : List Script) (txn : Tx) :
    List PartialUtxo :=
  txn.outputs.zipIdx.filterMap fun x =>
    if x.1.lockScript ∈ pubKeys then
      some
        { outpoint := { txid := txn.hash sha256, vout := UInt32.ofNat x.2 }
          amount := x.1.satoshis.toUInt64.toNat
          script := x.1.lockScript
          isSpent := false }
    else none

/-- The coins of the wallet that an input of a transaction spends, marked as spent. -/
def spentUtxosOf (utxos : List PartialUtxo) (txn : Tx) : List PartialUtxo :=
  txn.inputs.flatMap fun input =>
    if input.prevOutput.hash = NO_HASH_STOP then []
    else utxos.filterMap fun utxo =>
      if utxo.outpoint.txid = input.prevOutput.hash ∧ utxo.outpoint.vout = input.prevOutput.index
      then some { utxo with isSpent := true } else none

/-- The scan of `fetch_and_save_utxos`: what is reported to the wallet, in the order it is found.
Spends are looked up in `utxos`, the wallet's coins before the scan. -/
def scanBlocks (sha256 : List UInt8 → Bytes 32) (pubKeys : List Script) (utxos : List PartialUtxo)
    (blocks : List Block) : List PartialUtxo :=
  blocks.flatMap fun block => block.txns.flatMap fun txn =>
    newUtxosOf sha256 pubKeys txn ++ spentUtxosOf utxos txn

namespace ChainLib

variable {Xpub : Type} (lib : ChainLib)

/-! ## One range -/

/-- The check of the filters against the filter hashes, pair by pair. -/
def verifyFilters (filterHashes : List Hash256) (filters : List CompactFilter) :
    Outcome Error Unit :=
  (filterHashes.zip filters).forM fun x =>
    if sha256d lib.sha256 x.2.filterBytes ≠ x.1 then Outcome.err .filterMatchEror else pure ()

/-- `CompactChain::get_and_verify_compact_filters`. -/
def getAndVerifyCompactFilters (startHeight : UInt32) (lastBlockHash : Hash256) :
    Op Error (CompactChain Xpub) (List CompactFilter) := do
  let filterHeader ← Op.mapErr (fun e => .fetchCompactFilterHeader e.toErrorCode)
    (onPeer (Peer.fetchCompactFilterHeaders startHeight lastBlockHash))
  let filters ← Op.mapErr (fun e => .fetchCompactFilter e.toErrorCode)
    (onPeer (Peer.fetchCompactFilters startHeight lastBlockHash))
  Op.lift (lib.verifyFilters filterHeader.filterHashes filters)
  pure filters

/-- The blocks whose filters match one of the scripts; a filter that cannot be read is a panic. -/
def blockhashPresent (pubKeys : List Script) (filters : List CompactFilter) :
    Outcome Error (List Hash256) := do
  let matched ← filters.mapM fun filter => do
    let result ← Outcome.expectOk "error matching Filters"
      (lib.matchAny filter.filterBytes filter.blockHash pubKeys)
    pure (if result then some filter.blockHash else none)
  pure matched.reduceOption

/-- `CompactChain::fetch_and_save_utxos`. -/
def fetchAndSaveUtxos (filters : List CompactFilter) : Op Error (CompactChain Xpub) Unit := do
  let pubKeys ← onWallet (Op.ask fun w => pure w.getPubkeys)
  let present ← Op.lift (lib.blockhashPresent pubKeys filters)
  if present.isEmpty then pure ()
  else
    let blockInv : List InvVect := present.map fun hash => { objType := 2, hash }
    let blocks ← Op.mapErr (fun e => .fetchBlock e.toErrorCode)
      (onPeer (Peer.fetchBlocks { objects := blockInv }))
    let utxos ← onWallet (Op.ask fun w => pure w.getUtxos)
    onWallet (WatchOnly.insertUtxos (scanBlocks lib.sha256 pubKeys utxos blocks))

/-! ## Syncing -/

/-- The stop of a range: the header its counter points at, or the last one. -/
def stopHash (fetched : List BlockHeader) (lastBlockHash : Hash256) (counter : ℕ) : Hash256 :=
  (fetched[counter - 1]?.map (BlockHeader.hash lib.sha256)).getD lastBlockHash

/-- The body of the `for` loop of a round: one range. -/
def syncRange (fetched : List BlockHeader) (startBlock : ℕ) (lastBlockHash : Hash256)
    (x : ℕ × ℕ) : Op Error (CompactChain Xpub) Unit := do
  let lastKnownBlockHash := lib.stopHash fetched lastBlockHash x.2
  let blockFilters ← lib.getAndVerifyCompactFilters (UInt32.ofNat x.1) lastKnownBlockHash
  if blockFilters.isEmpty then pure ()
  else
    lib.fetchAndSaveUtxos blockFilters
    Op.update (note (.scanned (UInt32.ofNat x.1) lastKnownBlockHash
      (startBlock + min (x.2 - 1) (fetched.length - 1))))

/-- A round once its headers are there.  `inr` leaves the `while` loop. -/
def syncHeaders (fetched : List BlockHeader) : Op Error (CompactChain Xpub) (Unit ⊕ Unit) := do
  if fetched.length = 0 then pure (.inr ())
  else
    let last ← Op.lift (Outcome.expect "No block headers found" fetched.getLast?)
    let lastBlockHash := last.hash lib.sha256
    let startBlock ← Op.ask fun c => pure (c.chainState.lastBlockHeight + 1)
    let endBlock := startBlock + (fetched.length - 1)
    forM (rangeStarts startBlock endBlock) (lib.syncRange fetched startBlock lastBlockHash)
    Op.update (advance endBlock lastBlockHash)
    pure (if fetched.length < MAX_HEADER_LEN then .inr () else .inl ())

/-- The body of the `while` loop: one reply of headers. -/
def syncRound (_ : Unit) : Op Error (CompactChain Xpub) (Unit ⊕ Unit) := do
  let lastBlockHash ← Op.ask fun c => pure c.chainState.lastBlockHash
  let fetched ← Op.mapErr (fun e => .fetchHeader e.toErrorCode)
    (onPeer (Peer.fetchHeaders lastBlockHash))
  lib.syncHeaders fetched

/-- `CompactChain::sync_state`. -/
def syncState : Op Error (CompactChain Xpub) Unit := do
  Op.mapErr (fun _ => .networkError) (onPeer Peer.keepAlive)
  Op.loopOn (fun c => c.p2p.incoming.length) lib.syncRound ()

/-- `CompactChain::send_transaction`. -/
def sendTransaction (transaction : Tx) : Op Error (CompactChain Xpub) Unit := do
  Op.mapErr (fun _ => .networkError) (onPeer Peer.keepAlive)
  onPeer (Peer.sendTransaction lib.sha256 transaction)

/-! ## What a round does -/

section Rounds

variable {c c' : CompactChain Xpub} {hs : List BlockHeader} {last : BlockHeader}
  {r : Outcome Error (Unit ⊕ Unit)}

/-- Past the two reads of the state, what is left of a round are its ranges and the assignments. -/
theorem syncHeaders_of_getLast? (hlast : hs.getLast? = some last) (c : CompactChain Xpub) :
    lib.syncHeaders hs c
      = (forM (rangeStarts (c.chainState.lastBlockHeight + 1)
          (c.chainState.lastBlockHeight + 1 + (hs.length - 1)))
        (lib.syncRange hs (c.chainState.lastBlockHeight + 1) (last.hash lib.sha256)) >>= fun _ =>
          Op.update (advance (c.chainState.lastBlockHeight + hs.length) (last.hash lib.sha256)) >>= fun _ =>
          pure (if hs.length < MAX_HEADER_LEN then .inr () else .inl ()) :
        Op Error (CompactChain Xpub) (Unit ⊕ Unit)) c := by
  have hne : hs.length ≠ 0 := by
    rintro hzero
    rw [List.length_eq_zero_iff.mp hzero] at hlast
    cases hlast
  have hheight : c.chainState.lastBlockHeight + hs.length
      = c.chainState.lastBlockHeight + 1 + (hs.length - 1) := by omega
  rw [syncHeaders, if_neg hne, hlast, hheight]
  rfl

/-- **How a round ends that has headers**: one of its ranges fails, or all of them return and the state
moves to the last header. -/
theorem syncHeaders_split (hlast : hs.getLast? = some last) (h : lib.syncHeaders hs c = (r, c')) :
    (∃ e, r = .error e
      ∧ (ForM.forM (rangeStarts (c.chainState.lastBlockHeight + 1)
          (c.chainState.lastBlockHeight + 1 + (hs.length - 1)))
        (lib.syncRange hs (c.chainState.lastBlockHeight + 1) (last.hash lib.sha256)) :
        Op Error (CompactChain Xpub) PUnit) c = (.error e, c'))
    ∨ ∃ c₁, (ForM.forM (rangeStarts (c.chainState.lastBlockHeight + 1)
          (c.chainState.lastBlockHeight + 1 + (hs.length - 1)))
        (lib.syncRange hs (c.chainState.lastBlockHeight + 1) (last.hash lib.sha256)) :
        Op Error (CompactChain Xpub) PUnit) c = (.ok PUnit.unit, c₁)
      ∧ r = .ok (if hs.length < MAX_HEADER_LEN then .inr () else .inl ())
      ∧ c' = c₁.advance (c.chainState.lastBlockHeight + hs.length) (last.hash lib.sha256) := by
  rw [lib.syncHeaders_of_getLast? hlast] at h
  rcases r with e | r
  · obtain hfail | ⟨_, c₁, -, hlater⟩ := Op.bind_eq_error.mp h
    · exact .inl ⟨e, rfl, hfail⟩
    · cases hlater
  · obtain ⟨_, c₁, hall, hlater⟩ := Op.bind_eq_ok.mp h
    cases hlater
    exact .inr ⟨c₁, hall, rfl, rfl⟩

/-- A round whose request returns goes on with the headers. -/
theorem syncRound_of_fetchHeaders {p : Peer}
    (hfetch : Peer.fetchHeaders c.chainState.lastBlockHash c.p2p = (.ok hs, p)) :
    lib.syncRound () c = lib.syncHeaders hs { c with p2p := p } := by
  have hget : Op.mapErr (fun e => Error.fetchHeader e.toErrorCode)
      (onPeer (Peer.fetchHeaders c.chainState.lastBlockHash)) c = (.ok hs, { c with p2p := p }) :=
    Op.mapErr_eq_ok.mpr (Op.zoom_eq_ok.mpr ⟨p, hfetch, rfl⟩)
  change (Op.mapErr (fun e => Error.fetchHeader e.toErrorCode)
    (onPeer (Peer.fetchHeaders c.chainState.lastBlockHash)) >>= lib.syncHeaders) c = _
  rw [Op.bind_apply, hget]

/-- **How a round starts**: its request fails, and then the round does; or it returns headers. -/
theorem syncRound_split (h : lib.syncRound () c = (r, c')) :
    (∃ e e' p, Peer.fetchHeaders c.chainState.lastBlockHash c.p2p = (.error e, p)
      ∧ r = .error e' ∧ c' = { c with p2p := p })
    ∨ ∃ hs p, Peer.fetchHeaders c.chainState.lastBlockHash c.p2p = (.ok hs, p)
      ∧ lib.syncHeaders hs { c with p2p := p } = (r, c') := by
  rcases hfetch : Peer.fetchHeaders c.chainState.lastBlockHash c.p2p with ⟨e | hs, p⟩
  · refine .inl ?_
    change (Op.mapErr (fun e => Error.fetchHeader e.toErrorCode)
      (onPeer (Peer.fetchHeaders c.chainState.lastBlockHash)) >>= lib.syncHeaders) c = _ at h
    rw [Op.bind_apply, Op.mapErr, onPeer, Op.zoom, hfetch] at h
    cases e <;> cases h <;> exact ⟨_, _, p, rfl, rfl, rfl⟩
  · rw [lib.syncRound_of_fetchHeaders hfetch] at h
    exact .inr ⟨hs, p, rfl, h⟩

end Rounds

/-! ## What a sync keeps of its peer -/

section Keeps

variable {P : Peer → Prop} (hsend : ∀ m, (∀ t, m ≠ .tx t) → Op.Keeps P (Peer.send m))
  (hreceive : ∀ t, Op.Keeps P (Peer.receive t))

theorem keeps_peer_onPeer {α : Type} {x : Op Error Peer α} (hx : Op.Keeps P x) :
    Op.Keeps (fun c : CompactChain Xpub => P c.p2p) (onPeer x) :=
  hx.zoom (fun _ h => h) fun _ _ _ h => h

theorem keeps_peer_onWallet {α : Type} (x : Op Wallet.Error (WatchOnly Xpub) α) :
    Op.Keeps (fun c : CompactChain Xpub => P c.p2p) (onWallet x) := fun _ h => h

include hsend hreceive

theorem keeps_peer_getAndVerifyCompactFilters (n : UInt32) (h : Hash256) :
    Op.Keeps (fun c : CompactChain Xpub => P c.p2p) (lib.getAndVerifyCompactFilters n h) := by
  refine Op.Keeps.bind (keeps_peer_onPeer
    (Peer.keeps_fetchCompactFilterHeaders hsend hreceive n h)).mapErr fun _ => ?_
  refine Op.Keeps.bind (keeps_peer_onPeer
    (Peer.keeps_fetchCompactFilters hsend hreceive n h)).mapErr fun _ => ?_
  exact (Op.Keeps.lift _).bind fun _ => Op.Keeps.pure _

theorem keeps_peer_fetchAndSaveUtxos (filters : List CompactFilter) :
    Op.Keeps (fun c : CompactChain Xpub => P c.p2p) (lib.fetchAndSaveUtxos filters) := by
  refine (keeps_peer_onWallet _).bind fun pubKeys => (Op.Keeps.lift _).bind fun present => ?_
  split_ifs
  · exact Op.Keeps.pure _
  · refine (keeps_peer_onPeer (Peer.keeps_fetchBlocks hsend hreceive _)).mapErr.bind fun _ => ?_
    exact (keeps_peer_onWallet _).bind fun _ => keeps_peer_onWallet _

theorem keeps_peer_syncRange (fetched : List BlockHeader) (startBlock : ℕ) (lastBlockHash : Hash256)
    (x : ℕ × ℕ) : Op.Keeps (fun c : CompactChain Xpub => P c.p2p)
      (lib.syncRange fetched startBlock lastBlockHash x) := by
  refine Op.Keeps.bind (lib.keeps_peer_getAndVerifyCompactFilters hsend hreceive _ _) fun filters => ?_
  split_ifs
  · exact Op.Keeps.pure _
  · refine Op.Keeps.bind (lib.keeps_peer_fetchAndSaveUtxos hsend hreceive filters) fun _ => ?_
    exact Op.Keeps.update fun _ h => h

/-- **A sync keeps of its peer what sending and receiving keep**: it sends no transaction. -/
theorem keeps_peer_syncState :
    Op.Keeps (fun c : CompactChain Xpub => P c.p2p) lib.syncState := by
  refine Op.Keeps.bind (keeps_peer_onPeer (Peer.keeps_keepAlive hsend hreceive)).mapErr fun _ => ?_
  refine Op.Keeps.loopOn (fun _ => ?_) ()
  refine (Op.Keeps.ask _).bind fun hash => ?_
  refine (keeps_peer_onPeer (Peer.keeps_fetchHeaders hsend hreceive hash)).mapErr.bind fun fetched => ?_
  rw [syncHeaders]
  split
  · exact Op.Keeps.pure _
  · refine (Op.Keeps.lift _).bind fun last => (Op.Keeps.ask _).bind fun startBlock => ?_
    refine Op.Keeps.bind (Op.Keeps.forM fun x _ =>
      lib.keeps_peer_syncRange hsend hreceive fetched startBlock _ x) fun _ => ?_
    exact Op.Keeps.bind (Op.Keeps.update fun _ h => h) fun _ => Op.Keeps.pure _

end Keeps

end ChainLib

end Bitspend.Chain
