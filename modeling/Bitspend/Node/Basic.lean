import Bitspend.Chain.CompactChain

/-!
# Node/Basic — the node and its saved state

`node.rs` and `db.rs`.  The node saves four pieces of state under four keys, one insert after another,
and restores itself from what it finds there.  The database is a map in which an insert is atomic and
durable; the encoding of the four pieces (`bincode`) is a parameter.
-/

namespace Bitspend

open Chain Wallet Wire

/-! ## The database -/

def CHAIN_STATE_KEY : String := "chain_state"
def WALLET_STATE_KEY : String := "wallet_state"
def NODE_STATE_KEY : String := "node_state"
def SIGNER_STATE_KEY : String := "signer_state"

/-- `KeyValueDb`. -/
abbrev KeyValueDb := String → Option (List UInt8)

namespace KeyValueDb

/-- `KeyValueDb::insert`. -/
def insert (db : KeyValueDb) (key : String) (value : List UInt8) : KeyValueDb := fun k =>
  if k = key then some value else db k

/-- Inserts, one after another. -/
def insertAll (db : KeyValueDb) (xs : List (String × List UInt8)) : KeyValueDb :=
  xs.foldl (fun db x => db.insert x.1 x.2) db

end KeyValueDb

/-! ## The node -/

/-- `NodeState`. -/
structure NodeState where
  ip : UInt8 × UInt8 × UInt8 × UInt8
  port : UInt16
  network : Network
  deriving Repr, DecidableEq, Inhabited

/-- `Node`.  The wallet it shares with its chain is the chain's. -/
structure Node (Xpub Signer : Type) where
  chain : CompactChain Xpub
  signer : Signer
  nodeState : NodeState
  db : KeyValueDb

/-- `bincode` on a type. -/
structure Bincode (α : Type) where
  serialize : α → List UInt8
  deserialize : List UInt8 → Option α

/-- What the node takes from elsewhere: its chain's library and the encodings of the four pieces. -/
structure NodeLib (Xpub Signer : Type) where
  chain : ChainLib
  chainState : Bincode ChainState
  wallet : Bincode (WatchOnly Xpub)
  signer : Bincode Signer
  nodeState : Bincode NodeState

namespace NodeLib

variable {Xpub Signer : Type} (lib : NodeLib Xpub Signer)

/-- The inserts of `store_state`, in order. -/
def inserts (n : Node Xpub Signer) : List (String × List UInt8) :=
  [(CHAIN_STATE_KEY, lib.chainState.serialize n.chain.chainState),
    (WALLET_STATE_KEY, lib.wallet.serialize n.chain.wallet),
    (SIGNER_STATE_KEY, lib.signer.serialize n.signer),
    (NODE_STATE_KEY, lib.nodeState.serialize n.nodeState)]

/-- `Node::store_state`. -/
def storeState (n : Node Xpub Signer) : Node Xpub Signer :=
  { n with db := n.db.insertAll (lib.inserts n) }

/-- A piece of state, found and decoded. -/
def load {α : Type} (codec : Bincode α) (db : KeyValueDb) (key missing broken : String) :
    Outcome Error α := do
  let bytes ← Outcome.expect missing (db key)
  Outcome.expect broken (codec.deserialize bytes)

/-- The message of a failed `unwrap`. -/
def UNWRAP : String := "called `Result::unwrap()` on an `Err` value"

/-- `Node::restore`, from where `connect_peer` has reached the peer: its own panics, that the connection
fails and that the handshake does, are not among the outcomes. -/
def restore (p2p : Peer) (db : KeyValueDb) : Outcome Error (Node Xpub Signer) := do
  let wallet ← load lib.wallet db WALLET_STATE_KEY "cannot retrieve old wallet state" UNWRAP
  let signer ← load lib.signer db SIGNER_STATE_KEY "cannot retrieve old signer state" UNWRAP
  let nodeState ← load lib.nodeState db NODE_STATE_KEY "cannot retrieve node state" UNWRAP
  let chainState ← load lib.chainState db CHAIN_STATE_KEY "cannot retrieve old chain state"
    "Failed to deserialise Chain State"
  pure { chain := ⟨p2p, chainState, wallet, []⟩, signer, nodeState, db }

/-- A call on the chain. -/
def onChain {α : Type} (x : Op Error (CompactChain Xpub) α) : Op Error (Node Xpub Signer) α :=
  Op.zoom Node.chain (fun c n => { n with chain := c }) x

/-- `Node::balance`. -/
def balance : Op Error (Node Xpub Signer) ℕ := do
  onChain lib.chain.syncState
  Op.update lib.storeState
  Op.ask fun n => Outcome.mapErr (fun _ => .walletError 3) n.chain.wallet.balance

end NodeLib

end Bitspend
