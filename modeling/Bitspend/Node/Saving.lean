import Bitspend.Chain.Agreement
import Bitspend.Node.Basic

/-!
# Node/Saving — a save that is cut short

The chain's state is inserted before the wallet's.  A process that stops between the two leaves the
new height beside the old wallet: after a restore the blocks in between are never asked for again,
and what the wallet was paid in them is lost to it.
-/

namespace Bitspend

open Chain Wallet Wire

variable {Xpub Signer : Type}

/-- **The wallet has processed every block up to a height**: it comes from one without coins, through
calls of `fetch_and_save_utxos` on batches that reach that height. -/
def ShownUpTo (lib : ChainLib) (blocks : List Block) (w : WatchOnly Xpub) (height : ℕ) : Prop :=
  ∃ ts c c', (∀ o : Wallet.OutPoint, c.wallet.utxoMap[o]? = none) ∧ Batches.Reaches height 0 ts
    ∧ BatchRun lib (blocks.take height) ts c c' ∧ c'.wallet = w

namespace NodeLib

variable (lib : NodeLib Xpub Signer)

/-- **The node's chain state and wallet are sound together.** -/
def Sound (blocks : List Block) (n : Node Xpub Signer) : Prop :=
  ShownUpTo lib.chain blocks n.chain.wallet n.chain.chainState.lastBlockHeight

/-- The database holds what a save of the node leaves. -/
def Saved (n : Node Xpub Signer) (db : KeyValueDb) : Prop := ∀ x ∈ lib.inserts n, db x.1 = some x.2

/-- `bincode` reads back what it wrote of the node. -/
structure ReadsBack (n : Node Xpub Signer) : Prop where
  chainState : lib.chainState.deserialize (lib.chainState.serialize n.chain.chainState)
    = some n.chain.chainState
  wallet : lib.wallet.deserialize (lib.wallet.serialize n.chain.wallet) = some n.chain.wallet
  signer : lib.signer.deserialize (lib.signer.serialize n.signer) = some n.signer
  nodeState : lib.nodeState.deserialize (lib.nodeState.serialize n.nodeState) = some n.nodeState

/-- The database when the process stops after `k` inserts of a save. -/
def stoppedAfter (k : ℕ) (n : Node Xpub Signer) : KeyValueDb :=
  n.db.insertAll ((lib.inserts n).take k)

/-! ## What is read back -/

theorem load_eq_ok {α : Type} {codec : Bincode α} {db : KeyValueDb} {key missing broken : String}
    {a : α} {bytes : List UInt8} (hkey : db key = some bytes)
    (hcodec : codec.deserialize bytes = some a) : load codec db key missing broken = .ok a := by
  rw [load, hkey, Outcome.expect, Outcome.ok_bind, hcodec]
  rfl

/-- **A restore reads the four pieces from wherever they were written.** -/
theorem restore_eq_ok {a b d e : Node Xpub Signer} {db : KeyValueDb} (p2p : Peer)
    (ha : lib.ReadsBack a) (hb : lib.ReadsBack b) (hd : lib.ReadsBack d) (he : lib.ReadsBack e)
    (hchain : db CHAIN_STATE_KEY = some (lib.chainState.serialize a.chain.chainState))
    (hwallet : db WALLET_STATE_KEY = some (lib.wallet.serialize b.chain.wallet))
    (hsigner : db SIGNER_STATE_KEY = some (lib.signer.serialize d.signer))
    (hnode : db NODE_STATE_KEY = some (lib.nodeState.serialize e.nodeState)) :
    lib.restore p2p db = .ok
      { chain := ⟨p2p, a.chain.chainState, b.chain.wallet, []⟩
        signer := d.signer
        nodeState := e.nodeState
        db } := by
  rw [restore, load_eq_ok hwallet hb.wallet, Outcome.ok_bind, load_eq_ok hsigner hd.signer,
    Outcome.ok_bind, load_eq_ok hnode he.nodeState, Outcome.ok_bind,
    load_eq_ok hchain ha.chainState, Outcome.ok_bind]
  rfl

/-- What a cut-short save leaves under a key: the new piece if its insert was done. -/
theorem stoppedAfter_apply (k : ℕ) (n : Node Xpub Signer) :
    lib.stoppedAfter k n CHAIN_STATE_KEY
        = (if 1 ≤ k then some (lib.chainState.serialize n.chain.chainState)
          else n.db CHAIN_STATE_KEY)
      ∧ lib.stoppedAfter k n WALLET_STATE_KEY
        = (if 2 ≤ k then some (lib.wallet.serialize n.chain.wallet) else n.db WALLET_STATE_KEY)
      ∧ lib.stoppedAfter k n SIGNER_STATE_KEY
        = (if 3 ≤ k then some (lib.signer.serialize n.signer) else n.db SIGNER_STATE_KEY)
      ∧ lib.stoppedAfter k n NODE_STATE_KEY
        = (if 4 ≤ k then some (lib.nodeState.serialize n.nodeState) else n.db NODE_STATE_KEY) := by
  obtain _ | _ | _ | _ | k := k
  all_goals
    simp [stoppedAfter, inserts, KeyValueDb.insertAll, KeyValueDb.insert, CHAIN_STATE_KEY,
      WALLET_STATE_KEY, SIGNER_STATE_KEY, NODE_STATE_KEY]

/-- **After a save that is cut short, a restore reads each piece from the new state if its insert was
done, else from the old one.** -/
theorem restore_stoppedAfter {old n : Node Xpub Signer} (hsaved : lib.Saved old n.db)
    (hold : lib.ReadsBack old) (hnew : lib.ReadsBack n) (k : ℕ) (p2p : Peer) :
    ∃ n', lib.restore p2p (lib.stoppedAfter k n) = .ok n'
      ∧ n'.chain.chainState = (if 1 ≤ k then n else old).chain.chainState
      ∧ n'.chain.wallet = (if 2 ≤ k then n else old).chain.wallet := by
  have hread : ∀ m, lib.ReadsBack (if m ≤ k then n else old) := by
    intro m
    split_ifs
    · exact hnew
    · exact hold
  obtain ⟨hchain, hwallet, hsigner, hnode⟩ := lib.stoppedAfter_apply k n
  simp only [Saved, inserts, List.forall_mem_cons, List.not_mem_nil, false_imp_iff, implies_true,
    and_true] at hsaved
  obtain ⟨ochain, owallet, osigner, onode⟩ := hsaved
  refine ⟨_, lib.restore_eq_ok p2p (hread 1) (hread 2) (hread 3) (hread 4) ?_ ?_ ?_ ?_, rfl, rfl⟩
  · rw [hchain, ochain]
    split_ifs <;> rfl
  · rw [hwallet, owallet]
    split_ifs <;> rfl
  · rw [hsigner, osigner]
    split_ifs <;> rfl
  · rw [hnode, onode]
    split_ifs <;> rfl

/-- **A cut-short save is sound, except between the insert of the chain's state and that of the
wallet's**: there it is sound exactly when the old wallet had already processed every block up to
the new height. -/
theorem sound_restore_iff {blocks : List Block} {old n : Node Xpub Signer}
    (hsaved : lib.Saved old n.db) (hold : lib.ReadsBack old) (hnew : lib.ReadsBack n)
    (hsold : lib.Sound blocks old) (hsnew : lib.Sound blocks n) (k : ℕ) (p2p : Peer) :
    ∃ n', lib.restore p2p (lib.stoppedAfter k n) = .ok n'
      ∧ (lib.Sound blocks n' ↔ k ≠ 1
        ∨ ShownUpTo lib.chain blocks old.chain.wallet n.chain.chainState.lastBlockHeight) := by
  obtain ⟨n', hn', hstate, hwallet⟩ := lib.restore_stoppedAfter hsaved hold hnew k p2p
  refine ⟨n', hn', ?_⟩
  rw [Sound, hstate, hwallet]
  obtain _ | _ | k := k
  · exact iff_of_true hsold (.inl (by decide))
  · rw [if_neg (by decide), if_pos (by decide)]
    simp
  · rw [if_pos (by omega), if_pos (by omega)]
    exact iff_of_true hsnew (.inl (by omega))

end NodeLib

/-! ## A payment lost -/

section LostPayment

/-- The block that pays the wallet. -/
def paying : List Block := twoBlocks.take 1

/-- A peer with one new block, which pays the wallet. -/
def payingPeer : Peer :=
  { incoming :=
      [.message Commands.PONG (.pong default),
        .message Commands.HEADERS (.headers { inner := paying.map Block.header }),
        .message Commands.CFHEADERS (.cfHeaders default)]
        ++ (filtersOf paying).map (fun f => .message Commands.CFILTERS (.cFilters f))
        ++ paying.map (fun b => .message Commands.BLOCK (.block b))
    writes := []
    sent := []
    version := default
    ping := default }

/-- The chain before and after it has synced with that peer. -/
def beforeSync : CompactChain Unit := watching payingPeer
def afterSync : CompactChain Unit := (headLib.syncState beforeSync).2

/-- An encoding that tells two states apart. -/
def pairCodec {α : Type} (isOld : α → Bool) (old new : α) : Bincode α :=
  { serialize := fun a => if isOld a then [0] else [1]
    deserialize := fun bytes => if bytes = [0] then some old else some new }

/-- The library of a node that saves these two states. -/
def payingLib : NodeLib Unit Unit :=
  { chain := headLib
    chainState := pairCodec (fun s => s.lastBlockHeight = 0) beforeSync.chainState
      afterSync.chainState
    wallet := pairCodec (fun w => w.utxoMap.isEmpty) beforeSync.wallet afterSync.wallet
    signer := pairCodec (fun _ => true) () ()
    nodeState := pairCodec (fun _ => true) default default }

/-- The node before the sync, with its state saved… -/
def nodeBefore : Node Unit Unit :=
  payingLib.storeState { chain := beforeSync, signer := (), nodeState := default, db := fun _ => none }

/-- …and after it, with its state not saved yet. -/
def nodeAfter : Node Unit Unit := { nodeBefore with chain := afterSync }

theorem readsBack_nodeBefore : payingLib.ReadsBack nodeBefore := ⟨rfl, rfl, rfl, rfl⟩

theorem readsBack_nodeAfter : payingLib.ReadsBack nodeAfter := ⟨rfl, rfl, rfl, rfl⟩

theorem saved_nodeBefore : payingLib.Saved nodeBefore nodeAfter.db := by
  intro x hx
  simp only [NodeLib.inserts, List.mem_cons, List.not_mem_nil, or_false] at hx
  rcases hx with rfl | rfl | rfl | rfl
  all_goals rfl

theorem sound_nodeBefore : payingLib.Sound paying nodeBefore :=
  ⟨[], beforeSync, beforeSync, fun o => by simp [beforeSync, watching, WatchOnly.new], .done,
    .done _, rfl⟩

/-- The sync has shown the wallet the block. -/
theorem sound_nodeAfter : payingLib.Sound paying nodeAfter := by
  have hhanded : Handed headLib paying (0, 1) (filtersOf paying) (watching (servingPeer paying)) :=
    handed_of_served rfl (by decide +kernel) (by decide +kernel)
  refine ⟨[(0, 1)], watching (servingPeer paying),
    { afterCall paying (watching (servingPeer paying)) with p2p := servingPeer [] },
    fun o => by simp [watching, WatchOnly.new], .next le_rfl .done, ?_, rfl⟩
  exact .batch _ hhanded (Prod.ext (by decide +kernel) rfl) (.done _)

theorem inOrder_paying : InOrder headHash paying where
  stripped := by decide +kernel
  distinct := by decide +kernel
  causal := by decide +kernel
  notSelf := by decide +kernel
  ne_zero := by decide +kernel
  count := by decide +kernel
  value := by decide +kernel
  hashes := by decide +kernel

/-- A wallet that was shown the block holds the coin, so the old one was not. -/
theorem not_shownUpTo_one : ¬ShownUpTo headLib paying beforeSync.wallet 1 := by
  rintro ⟨ts, c, c', hempty, hreach, hrun, hw⟩
  change Batches.Reaches (paying.take 1).length 0 ts at hreach
  have hnone : ∀ o, c.wallet.coin o = none := fun o => by rw [WatchOnly.coin, hempty o]; rfl
  have hstart : OfLedger headHash (paying.take 1) c.wallet := by
    intro o u hu
    rw [hnone o] at hu
    cases hu
  obtain ⟨-, hkeys, hmarks⟩ := hrun.marks inOrder_paying hstart
  have hcoin : coinOf headHash coinbase 0 { satoshis := 50, lockScript := [0x51] } false
      ∈ ledger headHash c.wallet.getPubkeys (paying.take 1) := by
    rw [← hkeys, hw]
    decide +kernel
  have hmark := hmarks _ hcoin
  rw [mark, hnone] at hmark
  obtain ⟨b, hb, -⟩ := mark_of_batchRun inOrder_paying hreach hcoin hmark
  rw [hw] at hb
  exact absurd hb (by simp [mark, WatchOnly.coin, beforeSync, watching, WatchOnly.new])

/-- Stopped after the first insert, the node comes back at height 1 with a wallet that never saw the
block there. -/
theorem not_sound_of_stoppedAfter_one :
    payingLib.Saved nodeBefore nodeAfter.db ∧ payingLib.Sound paying nodeBefore
      ∧ nodeAfter.chain = (headLib.syncState nodeBefore.chain).2
      ∧ payingLib.Sound paying nodeAfter
      ∧ ∃ n', payingLib.restore (servingPeer []) (payingLib.stoppedAfter 1 nodeAfter) = .ok n'
        ∧ ¬payingLib.Sound paying n' := by
  refine ⟨saved_nodeBefore, sound_nodeBefore, rfl, sound_nodeAfter, ?_⟩
  obtain ⟨n', hn', hstate, hwallet⟩ := payingLib.restore_stoppedAfter saved_nodeBefore
    readsBack_nodeBefore readsBack_nodeAfter 1 (servingPeer [])
  refine ⟨n', hn', ?_⟩
  rw [NodeLib.Sound, hstate, hwallet]
  exact not_shownUpTo_one

/-- Stopped after the second insert, it comes back with the wallet that did. -/
theorem sound_restore_stoppedAfter_two :
    ∃ n', payingLib.restore (servingPeer []) (payingLib.stoppedAfter 2 nodeAfter) = .ok n'
      ∧ payingLib.Sound paying n' := by
  obtain ⟨n', hn', hiff⟩ := payingLib.sound_restore_iff saved_nodeBefore readsBack_nodeBefore
    readsBack_nodeAfter sound_nodeBefore sound_nodeAfter 2 (servingPeer [])
  exact ⟨n', hn', hiff.mpr (.inl (by decide))⟩

end LostPayment

end Bitspend
