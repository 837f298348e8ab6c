import Bitspend.Chain.Coverage
import Bitspend.Machinery.HashChain

/-!
# Chain/Reorg — height and hash across reorganizations

The state of a chain is a hash and a height that is counted on from it.  The peer answers from its
best chain *of the moment*: the headers after the hash it is asked for, or, once a reorganization has
taken that block out of its chain, the headers after genesis.  `sync_state` counts the latter on top
of the height it had, so from then on the two halves of its state are about different blocks.  As
long as every request finds its block in the best chain they agree, whatever is replaced above it:
a block that stays has its height in every chain (`HashChain.height_unique`).
-/

namespace Bitspend.Chain

open Wire Wallet

variable {Xpub : Type}

/-! ## The peer's chain -/

/-- **The blocks that exist**: their hashes tell them apart from each other and from genesis. -/
structure BlockTree (lib : ChainLib) where
  genesis : Hash256
  mined : Set BlockHeader
  hash_injOn : ∀ b ∈ mined, ∀ b' ∈ mined, b.hash lib.sha256 = b'.hash lib.sha256 → b = b'
  hash_ne_genesis : ∀ b ∈ mined, b.hash lib.sha256 ≠ genesis

/-- Headers, linked by the hashes they carry. -/
def BlockTree.links {lib : ChainLib} (t : BlockTree lib) : HashTree BlockHeader Hash256 where
  hash := BlockHeader.hash lib.sha256
  prev := BlockHeader.prevHash
  root := t.genesis
  mined := t.mined
  hash_injOn := t.hash_injOn
  hash_ne_root := t.hash_ne_genesis

/-- A best chain: a valid chain of existing blocks from genesis. -/
abbrev BestChain {lib : ChainLib} (t : BlockTree lib) := HashChain t.links

/-- **How a peer answers `getheaders`**: up to 2000 headers of its best chain, after the locator hash
if the chain holds it and after genesis otherwise. -/
def BestChain.Answers {lib : ChainLib} {t : BlockTree lib} (best : BestChain t) (locator : Hash256)
    (hs : List BlockHeader) : Prop := ∃ k ≤ 2000, hs = (best.after locator).take k

namespace ChainLib

variable (lib : ChainLib)

/-! ## The requests of a call -/

/-- The call of `sync_state` on `c` gets to its `n`-th round, in the state `c₁`. -/
def AtRound (c : CompactChain Xpub) (n : ℕ) (c₁ : CompactChain Xpub) : Prop :=
  ∃ c₀, Op.mapErr (fun _ => Error.networkError) (CompactChain.onPeer Peer.keepAlive) c = (.ok (), c₀)
    ∧ Op.Reached lib.syncRound () c₀ n () c₁

/-- In its `n`-th round the call asks for the headers after `locator` and is sent `hs`. -/
def Asked (c : CompactChain Xpub) (n : ℕ) (locator : Hash256) (hs : List BlockHeader) : Prop :=
  ∃ c₁ p, lib.AtRound c n c₁ ∧ c₁.chainState.lastBlockHash = locator
    ∧ Peer.fetchHeaders locator c₁.p2p = (.ok hs, p)

/-- **What a round does to the state**: nothing, unless it goes through with headers, which are
counted and the last of which is hashed. -/
theorem syncHeaders_state {hs : List BlockHeader} {c c' : CompactChain Xpub}
    {r : Outcome Error (Unit ⊕ Unit)} (h : lib.syncHeaders hs c = (r, c')) :
    (c'.chainState = c.chainState ∧ (hs = [] ∨ ∃ e, r = .error e))
    ∨ ∃ last, hs.getLast? = some last
      ∧ c'.chainState = ⟨last.hash lib.sha256, c.chainState.lastBlockHeight + hs.length⟩ := by
  rcases eq_or_ne hs [] with rfl | hne
  · cases h
    exact .inl ⟨rfl, .inl rfl⟩
  obtain ⟨last, hlast⟩ : ∃ last, hs.getLast? = some last :=
    ⟨_, List.getLast?_eq_some_getLast hne⟩
  obtain ⟨e, rfl, hfail⟩ | ⟨c₁, -, -, rfl⟩ := lib.syncHeaders_split hlast h
  · have hkeep := Op.Keeps.forM (P := Scans c) fun x
      (_ : x ∈ rangeStarts (c.chainState.lastBlockHeight + 1)
        (c.chainState.lastBlockHeight + 1 + (hs.length - 1))) =>
      lib.keeps_syncRange hs (c.chainState.lastBlockHeight + 1) (last.hash lib.sha256) x c
    exact .inl ⟨(hkeep.of_eq (Scans.refl c) hfail).chainState, .inr ⟨e, rfl⟩⟩
  · exact .inr ⟨last, hlast, rfl⟩

/-- …so also what a round does once its request is made. -/
theorem syncRound_state {c c' : CompactChain Xpub} {r : Outcome Error (Unit ⊕ Unit)}
    (h : lib.syncRound () c = (r, c')) :
    (c'.chainState = c.chainState ∧ ∃ e, r = .error e)
    ∨ ∃ hs p, Peer.fetchHeaders c.chainState.lastBlockHash c.p2p = (.ok hs, p)
      ∧ ((c'.chainState = c.chainState ∧ (hs = [] ∨ ∃ e, r = .error e))
        ∨ ∃ last, hs.getLast? = some last
          ∧ c'.chainState = ⟨last.hash lib.sha256, c.chainState.lastBlockHeight + hs.length⟩) := by
  obtain ⟨_, e, p, -, rfl, rfl⟩ | ⟨hs, p, hfetch, hround⟩ := lib.syncRound_split h
  · exact .inl ⟨rfl, e, rfl⟩
  · have hstate := lib.syncHeaders_state hround
    exact .inr ⟨hs, p, hfetch, hstate⟩

/-- **How a call ends**: it fails before its first round, on the peer alone, or ends in a round it got
to. -/
theorem syncState_cases {c c' : CompactChain Xpub} {r : Outcome Error Unit}
    (h : lib.syncState c = (r, c')) :
    (∃ e p, r = .error e ∧ c' = { c with p2p := p })
    ∨ ∃ n c₁, lib.AtRound c n c₁
      ∧ ((r = .ok () ∧ lib.syncRound () c₁ = (.ok (.inr ()), c'))
        ∨ ∃ e, r = .error e ∧ lib.syncRound () c₁ = (.error e, c')) := by
  unfold syncState at h
  rw [Op.bind_apply] at h
  rcases halive : Op.mapErr (fun _ => Error.networkError) (CompactChain.onPeer Peer.keepAlive) c
    with ⟨e | u, c₀⟩
  · rw [halive] at h
    cases h
    have hpeer : { c with p2p := (Peer.keepAlive c.p2p).2 } = c' := congrArg Prod.snd halive
    exact .inl ⟨e, _, rfl, hpeer.symm⟩
  · rw [halive] at h
    obtain ⟨n, u', c₁, hreach, hend⟩ :=
      Op.loopOn_cases (fun _ _ _ _ hgo => lib.incoming_lt_of_syncRound hgo) h
    refine .inr ⟨n, c₁, ⟨c₀, halive, hreach⟩, ?_⟩
    obtain ⟨_, hr, hround⟩ | herr := hend
    · exact .inl ⟨hr, hround⟩
    · exact .inr herr

/-- A call whose first round does not go on makes one request. -/
theorem Asked.eq_of_oneRound {lib : ChainLib} {c : CompactChain Xpub} {n : ℕ} {locator : Hash256}
    {hs : List BlockHeader} (h : lib.Asked c n locator hs)
    (hstop : (lib.syncRound () (Op.mapErr (fun _ => Error.networkError)
      (CompactChain.onPeer Peer.keepAlive) c).2).1 = .ok (.inr ())) :
    n = 0 ∧ locator = c.chainState.lastBlockHash
      ∧ (Peer.fetchHeaders c.chainState.lastBlockHash (Peer.keepAlive c.p2p).2).1 = .ok hs := by
  obtain ⟨c₁, p, ⟨c₀, halive, hreach⟩, rfl, hfetch⟩ := h
  obtain rfl : (Op.mapErr (fun _ => Error.networkError)
    (CompactChain.onPeer Peer.keepAlive) c).2 = c₀ := congrArg Prod.snd halive
  obtain ⟨rfl, -, rfl⟩ := hreach.eq_start fun u s hgo => by
    rw [hgo] at hstop
    cases hstop
  exact ⟨rfl, rfl, congrArg Prod.fst hfetch⟩

/-! ## Runs -/

variable {lib} (t : BlockTree lib)

/-- The header requests of the call are answered honestly, the `n`-th from the chain `best n`: the
best chain may be another one at every message. -/
def Honest (best : ℕ → BestChain t) (c : CompactChain Xpub) : Prop :=
  ∀ n locator hs, lib.Asked c n locator hs → (best n).Answers locator hs

/-- The block each of these requests starts from is still in the best chain. -/
def Anchored (best : ℕ → BestChain t) (c : CompactChain Xpub) : Prop :=
  ∀ n locator hs, lib.Asked c n locator hs → locator ∈ (best n).hashes

/-- **The peer's best chain and the client after any number of `sync_state` calls**, each of which may
fail anywhere, from genesis on.  The best chain may be replaced between calls and, by `best`, between
the messages of a call; between calls the wallet and the connection may change too.  `K` is what is
known of every call. -/
inductive ReorgRun (K : (ℕ → BestChain t) → CompactChain Xpub → Prop) :
    BestChain t → CompactChain Xpub → Prop
  | start (b : BestChain t) (p2p : Peer) (wallet : WatchOnly Xpub) (log : List SyncEvent) :
    ReorgRun K b ⟨p2p, ⟨t.genesis, 0⟩, wallet, log⟩
  | reorg {b : BestChain t} {c : CompactChain Xpub} (b' : BestChain t) :
    ReorgRun K b c → ReorgRun K b' c
  | between {b : BestChain t} {c : CompactChain Xpub} (p2p : Peer) (wallet : WatchOnly Xpub) :
    ReorgRun K b c → ReorgRun K b { c with p2p, wallet }
  | sync {b : BestChain t} {c : CompactChain Xpub} (best : ℕ → BestChain t) (b' : BestChain t) :
    ReorgRun K b c → Honest t best c → K best c → ReorgRun K b' (lib.syncState c).2

/-- The height of the state is that of its hash, in the chains that hold it. -/
def Stands (s : ChainState) : Prop :=
  ∃ b : BestChain t, b.hashes[s.lastBlockHeight]? = some s.lastBlockHash

variable {t}

/-- **A round with an honest answer keeps height and hash together**, if its block is in the chain it
is answered from; and then the new block is in that chain too. -/
theorem Stands.advance {s : ChainState} (hs : Stands t s) {best : BestChain t}
    {headers : List BlockHeader} {last : BlockHeader} (hanchor : s.lastBlockHash ∈ best.hashes)
    (hanswer : best.Answers s.lastBlockHash headers) (hlast : headers.getLast? = some last) :
    best.hashes[s.lastBlockHeight + headers.length]? = some (last.hash lib.sha256) := by
  obtain ⟨b, hb⟩ := hs
  obtain ⟨i, hi⟩ := List.mem_iff_getElem?.mp hanchor
  obtain rfl := HashChain.height_unique hb hi
  obtain ⟨k, -, hk⟩ := hanswer
  rw [HashChain.after_of_mem hi] at hk
  exact HashChain.getElem?_hashes_of_getLast? hk hlast

/-- **At every round of a call** the two belong together. -/
theorem Stands.atRound {best : ℕ → BestChain t} {c : CompactChain Xpub}
    (hc : Stands t c.chainState) (hhonest : Honest t best c) (hanchor : Anchored t best c) {n : ℕ}
    {c₁ : CompactChain Xpub} (h : lib.AtRound c n c₁) : Stands t c₁.chainState := by
  obtain ⟨c₀, halive, hreach⟩ := h
  have hstate : c.chainState = c₀.chainState := congrArg (fun x => x.2.chainState) halive
  generalize hu : () = u₁ at hreach
  induction hreach with
  | start =>
    rw [← hstate]
    exact hc
  | @step m u u' c₂ c₃ hreach hgo ih =>
    have hstands := ih rfl
    obtain ⟨-, e, he⟩ | ⟨hs, p, hfetch, hround⟩ := lib.syncRound_state hgo
    · cases he
    have hasked : lib.Asked c m c₂.chainState.lastBlockHash hs :=
      ⟨c₂, p, ⟨c₀, halive, hreach⟩, rfl, hfetch⟩
    obtain ⟨hsame, -⟩ | ⟨last, hlast, hnew⟩ := hround
    · rw [hsame]
      exact hstands
    · rw [hnew]
      exact ⟨best m, hstands.advance (hanchor m _ hs hasked) (hhonest m _ hs hasked) hlast⟩

/-- **…and after the call, however it ends.** -/
theorem Stands.syncState {best : ℕ → BestChain t} {c : CompactChain Xpub}
    (hc : Stands t c.chainState) (hhonest : Honest t best c) (hanchor : Anchored t best c) :
    Stands t (lib.syncState c).2.chainState := by
  rcases hcall : lib.syncState c with ⟨r, c'⟩
  obtain ⟨e, p, -, rfl⟩ | ⟨n, c₁, hround, hend⟩ := lib.syncState_cases hcall
  · exact hc
  have h₁ := hc.atRound hhonest hanchor hround
  have hlast : ∀ r, lib.syncRound () c₁ = (r, c') → Stands t c'.chainState := by
    intro r hr
    obtain ⟨hsame, -⟩ | ⟨hs, p, hfetch, ⟨hsame, -⟩ | ⟨last, hlast, hnew⟩⟩ := lib.syncRound_state hr
    · rwa [hsame]
    · rwa [hsame]
    · have hasked : lib.Asked c n c₁.chainState.lastBlockHash hs := ⟨c₁, p, hround, rfl, hfetch⟩
      rw [hnew]
      exact ⟨best n, h₁.advance (hanchor n _ hs hasked) (hhonest n _ hs hasked) hlast⟩
  obtain ⟨-, hr⟩ | ⟨e, -, hr⟩ := hend
  · exact hlast _ hr
  · exact hlast _ hr

theorem stands_of_reorgRun {b : BestChain t} {c : CompactChain Xpub}
    (h : ReorgRun t (Anchored t) b c) : Stands t c.chainState := by
  induction h with
  | start b p2p wallet log => exact ⟨b, rfl⟩
  | reorg b' _ ih => exact ih
  | between p2p wallet _ ih => exact ih
  | sync best b' _ hhonest hanchor ih => exact ih.syncState hhonest hanchor

/-- **Height and hash stay together while no reorganization takes away the client's block.**  In a run
whose header requests all start from a block of the chain they are answered from, after every call
that returns, during which that chain stays the same, the block of the state has the height of the
state in the peer's best chain. -/
theorem syncState_consistent {b : BestChain t} {c c' : CompactChain Xpub}
    (hrun : ReorgRun t (Anchored t) b c) (hhonest : Honest t (fun _ => b) c)
    (hanchor : Anchored t (fun _ => b) c) (hok : lib.syncState c = (.ok (), c')) :
    b.hashes[c'.chainState.lastBlockHeight]? = some c'.chainState.lastBlockHash := by
  have hc := stands_of_reorgRun hrun
  obtain ⟨e, p, he, -⟩ | ⟨n, c₁, hround, ⟨-, hlast⟩ | ⟨e, he, -⟩⟩ := lib.syncState_cases hok
  · cases he
  · have h₁ := hc.atRound hhonest hanchor hround
    obtain ⟨-, e, he⟩ | ⟨hs, p, hfetch, hend⟩ := lib.syncRound_state hlast
    · cases he
    have hasked : lib.Asked c n c₁.chainState.lastBlockHash hs := ⟨c₁, p, hround, rfl, hfetch⟩
    have hmem := hanchor n _ hs hasked
    obtain ⟨hsame, -⟩ | ⟨last, hheaders, hnew⟩ := hend
    · -- no new headers: the block asked for is the block of the state
      obtain ⟨b₁, hb₁⟩ := h₁
      obtain ⟨i, hi⟩ := List.mem_iff_getElem?.mp hmem
      obtain rfl := HashChain.height_unique hb₁ hi
      rw [hsame]
      exact hi
    · rw [hnew]
      exact h₁.advance hmem (hhonest n _ hs hasked) hheaders
  · cases he

end ChainLib

/-! ## A reorganization of one block -/

namespace Reorg

/-- A hash that keeps the last 32 bytes, and with them a header's nonce. -/
def lib : ChainLib :=
  { sha256 := fun bs => ⟨(List.replicate 32 0 ++ bs).drop bs.length, by
      rw [List.length_drop, List.length_append, List.length_replicate, Nat.add_sub_cancel]⟩
    matchAny := fun _ _ _ => .ok false }

def header (prevHash : Hash256) (nonce : UInt32) : BlockHeader :=
  { version := 1, prevHash, merkleRoot := Bytes.zero 32, timestamp := 0, bits := 0, nonce }

def genesis : Hash256 := Bytes.zero 32
def old : BlockHeader := header genesis 1
def new₁ : BlockHeader := header genesis 2
def new₂ : BlockHeader := header (new₁.hash lib.sha256) 3
def new₃ : BlockHeader := header (new₂.hash lib.sha256) 4
def above : BlockHeader := header (old.hash lib.sha256) 5
def next₁ : BlockHeader := header (old.hash lib.sha256) 6
def next₂ : BlockHeader := header (next₁.hash lib.sha256) 7

def headers : List BlockHeader := [old, new₁, new₂, new₃, above, next₁, next₂]

/-- One block on genesis, with one and two others on it, and three on genesis beside them. -/
def tree : BlockTree lib where
  genesis := genesis
  mined := { b | b ∈ headers }
  hash_injOn := fun b hb b' hb' =>
    (by decide +kernel : ∀ b ∈ headers, ∀ b' ∈ headers,
      b.hash lib.sha256 = b'.hash lib.sha256 → b = b') b hb b' hb'
  hash_ne_genesis := fun b hb =>
    (by decide +kernel : ∀ b ∈ headers, b.hash lib.sha256 ≠ genesis) b hb

def oldChain : BestChain tree where
  blocks := [old]
  mined := fun b hb => (by decide +kernel : ∀ b ∈ [old], b ∈ headers) b hb
  linked := HashChain.linked_of_zip (t := tree.links) (by decide +kernel)

def newChain : BestChain tree where
  blocks := [new₁, new₂, new₃]
  mined := fun b hb => (by decide +kernel : ∀ b ∈ [new₁, new₂, new₃], b ∈ headers) b hb
  linked := HashChain.linked_of_zip (t := tree.links) (by decide +kernel)

/-- A peer that answers a round of `fetched` headers, which has one range: the filters are those of
the blocks `served`, each of them the filter of no script. -/
def peer (fetched served : List BlockHeader) : Peer :=
  { incoming :=
      [.message Commands.PONG (.pong default),
        .message Commands.HEADERS (.headers { inner := fetched }),
        .message Commands.CFHEADERS (.cfHeaders
          { filterType := 0
            stopHash := (served.getLast?.map (BlockHeader.hash lib.sha256)).getD genesis
            previousFilterHeader := Bytes.zero 32
            filterHashes := served.map fun _ => sha256d lib.sha256 [0] })]
      ++ served.map fun b => .message Commands.CFILTERS (.cFilters
          { filterType := 0, blockHash := b.hash lib.sha256, filterBytes := [0] })
    writes := []
    sent := []
    version := default
    ping := default }

/-- A new client, whose peer has the old chain. -/
def client : CompactChain Unit :=
  ⟨peer [old] [old], ⟨genesis, 0⟩, WatchOnly.new () .regtest [] default, []⟩

/-- The client after its first call, when the peer has changed to the new chain: it answers from
genesis, and the filters of heights 2 and 3, as it is asked to. -/
def clientAfter : CompactChain Unit :=
  { (lib.syncState client).2 with p2p := peer [new₁, new₂, new₃] [new₂, new₃] }

theorem honest_client : ChainLib.Honest tree (fun _ => oldChain) client := by
  intro n locator hs h
  obtain ⟨-, rfl, hfetch⟩ := h.eq_of_oneRound (by decide +kernel)
  have heval : (Peer.fetchHeaders client.chainState.lastBlockHash (Peer.keepAlive client.p2p).2).1
      = .ok [old] := by decide +kernel
  obtain rfl := Except.ok.inj (hfetch.symm.trans heval)
  change oldChain.Answers _ _
  exact ⟨1, by decide, by decide +kernel⟩

theorem honest_clientAfter : ChainLib.Honest tree (fun _ => newChain) clientAfter := by
  intro n locator hs h
  obtain ⟨-, rfl, hfetch⟩ := h.eq_of_oneRound (by decide +kernel)
  have heval : (Peer.fetchHeaders clientAfter.chainState.lastBlockHash
      (Peer.keepAlive clientAfter.p2p).2).1 = .ok [new₁, new₂, new₃] := by decide +kernel
  obtain rfl := Except.ok.inj (hfetch.symm.trans heval)
  change newChain.Answers _ _
  exact ⟨3, by decide, by decide +kernel⟩

/-- **The height drifts by the blocks that were taken away**: the client stood at height 1 of the old
chain, is sent the three headers of the new one, and ends at height 4 with the hash of the block at
height 3.  Its filter requests start at height 2, below their stop. -/
theorem not_syncState_consistent :
    ¬ (∀ (b : BestChain tree) (c c' : CompactChain Unit),
        ChainLib.ReorgRun tree (fun _ _ => True) b c → ChainLib.Honest tree (fun _ => b) c →
        lib.syncState c = (.ok (), c') →
        b.hashes[c'.chainState.lastBlockHeight]? = some c'.chainState.lastBlockHash)
    ∧ (lib.syncState clientAfter).2.chainState = ⟨new₃.hash lib.sha256, 4⟩
    ∧ newChain.hashes[3]? = some (new₃.hash lib.sha256)
    ∧ (lib.syncState clientAfter).2.p2p.sent =
      [.ping default,
        .getHeaders ⟨PROTOCOL_VERSION, [old.hash lib.sha256], NO_HASH_STOP⟩,
        .getCFHeaders ⟨0, 2, new₃.hash lib.sha256⟩, .getCFilters ⟨0, 2, new₃.hash lib.sha256⟩] := by
  have hstate : (lib.syncState clientAfter).2.chainState = ⟨new₃.hash lib.sha256, 4⟩ := by
    decide +kernel
  have hok : (lib.syncState clientAfter).1 = .ok () := by decide +kernel
  refine ⟨fun h => ?_, hstate, by decide +kernel, by decide +kernel⟩
  have hrun : ChainLib.ReorgRun tree (fun _ _ => True) newChain clientAfter :=
    .between _ _ (.sync (fun _ => oldChain) newChain (.start oldChain _ _ _) honest_client trivial)
  have hbad := h newChain clientAfter _ hrun honest_clientAfter (Op.eq_of_fst hok)
  rw [hstate] at hbad
  revert hbad
  decide +kernel

/-! ## One that takes away what is above -/

def shortChain : BestChain tree where
  blocks := [old, above]
  mined := fun b hb => (by decide +kernel : ∀ b ∈ [old, above], b ∈ headers) b hb
  linked := HashChain.linked_of_zip (t := tree.links) (by decide +kernel)

def longChain : BestChain tree where
  blocks := [old, next₁, next₂]
  mined := fun b hb => (by decide +kernel : ∀ b ∈ [old, next₁, next₂], b ∈ headers) b hb
  linked := HashChain.linked_of_zip (t := tree.links) (by decide +kernel)

/-- The client after its first call, when the block above its own has been replaced by two. -/
def clientBelow : CompactChain Unit :=
  { (lib.syncState client).2 with p2p := peer [next₁, next₂] [next₁, next₂] }

/-- The short chain was in force when the client was sent its first block. -/
theorem reorgRun_clientBelow : ChainLib.ReorgRun tree (ChainLib.Anchored tree) longChain clientBelow := by
  have hhonest : ChainLib.Honest tree (fun _ => shortChain) client := by
    intro n locator hs h
    obtain ⟨-, rfl, hfetch⟩ := h.eq_of_oneRound (by decide +kernel)
    have heval : (Peer.fetchHeaders client.chainState.lastBlockHash (Peer.keepAlive client.p2p).2).1
        = .ok [old] := by decide +kernel
    obtain rfl := Except.ok.inj (hfetch.symm.trans heval)
    change shortChain.Answers _ _
    exact ⟨1, by decide, by decide +kernel⟩
  have hanchor : ChainLib.Anchored tree (fun _ => shortChain) client := by
    intro n locator hs h
    obtain ⟨-, rfl, -⟩ := h.eq_of_oneRound (by decide +kernel)
    exact List.mem_cons_self
  exact .between _ _ (.sync (fun _ => shortChain) longChain (.start shortChain _ _ _) hhonest hanchor)

/-- Its block has stayed, and the second call leaves it at the end of the new chain. -/
theorem syncState_consistent_clientBelow :
    (lib.syncState clientBelow).2.chainState = ⟨next₂.hash lib.sha256, 3⟩
      ∧ longChain.hashes[(lib.syncState clientBelow).2.chainState.lastBlockHeight]?
        = some (lib.syncState clientBelow).2.chainState.lastBlockHash := by
  refine ⟨by decide +kernel, ?_⟩
  have hok : (lib.syncState clientBelow).1 = .ok () := by decide +kernel
  have hhonest : ChainLib.Honest tree (fun _ => longChain) clientBelow := by
    intro n locator hs h
    obtain ⟨-, rfl, hfetch⟩ := h.eq_of_oneRound (by decide +kernel)
    have heval : (Peer.fetchHeaders clientBelow.chainState.lastBlockHash
        (Peer.keepAlive clientBelow.p2p).2).1 = .ok [next₁, next₂] := by decide +kernel
    obtain rfl := Except.ok.inj (hfetch.symm.trans heval)
    change longChain.Answers _ _
    exact ⟨2, by decide, by decide +kernel⟩
  have hanchor : ChainLib.Anchored tree (fun _ => longChain) clientBelow := by
    intro n locator hs h
    obtain ⟨-, rfl, -⟩ := h.eq_of_oneRound (by decide +kernel)
    change clientBelow.chainState.lastBlockHash ∈ longChain.hashes
    decide +kernel
  exact ChainLib.syncState_consistent reorgRun_clientBelow hhonest hanchor (Op.eq_of_fst hok)

end Reorg

end Bitspend.Chain
