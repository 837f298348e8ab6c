import Bitspend.Kv.Crash
import Bitspend.Kv.Unseen
import Bitspend.Node.Saving
import Bitspend.Node.Sending

/-!
# Node/Storage — the node's database, as a key-value store

`kv/src/lib.rs` and `db.rs`: the database of a node is the key-value store over one directory, with a
limit of a mebibyte a segment and a merge of all inactive segments every thousand updates.  An insert is
an update, and an error is unwrapped.

`process_refines`: as long as no merge rewrites, a node over the store does what one over a map does.
`restore_recovers`: whatever happens to the process, a node that has saved itself once can be restored,
if the directory can be opened; but each of the four pieces may be of another save.
-/

namespace Bitspend

open Chain Wallet Wire

/-! ## The component -/

/-- `UUIDWasiKeyFrom`. -/
def uuidWasiKeyFrom (bytes : List UInt8) : Outcome Kv.Error String :=
  Outcome.expect NodeLib.UNWRAP (String.fromUTF8? ⟨bytes.toArray⟩)

/-- `UUIDWasiKey`, with `UUIDWasiKeyFrom` where that does not panic; on a file of the store it never does
(`mapKeys_decodeMulti`). -/
def stringKeys : Kv.KeyLib String where
  serialize key := key.toByteArray.data.toList
  keyMapper bytes := (String.fromUTF8? ⟨bytes.toArray⟩).getD ""
  keyMapper_serialize key := by
    change (String.fromUTF8? key.toByteArray).getD "" = key
    rw [String.fromUTF8?, dif_pos key.isValidUTF8]
    rfl

namespace stringKeys

theorem uuidWasiKeyFrom_serialize (key : String) :
    uuidWasiKeyFrom (stringKeys.serialize key) = .ok key := by
  change Outcome.expect NodeLib.UNWRAP (String.fromUTF8? key.toByteArray) = .ok key
  rw [String.fromUTF8?, dif_pos key.isValidUTF8]
  rfl

/-- The keys of a scan that left them as bytes. -/
def mapKeys (entries : List (Kv.MappedStoredEntry (List UInt8))) :
    Outcome Kv.Error (List (Kv.MappedStoredEntry String)) :=
  entries.mapM fun r => do
    let key ← uuidWasiKeyFrom r.key
    pure ⟨key, r.value, r.deleted, r.timestamp, r.keyOffset, r.entryLength⟩

/-- A record, its key as bytes… -/
def raw (e : Kv.Entry String) : Kv.Entry (List UInt8) :=
  ⟨stringKeys.serialize e.key, e.value, e.tombstone, e.timestamp⟩

/-- …and as the scan reports it. -/
def rawMapped (r : Kv.MappedStoredEntry String) : Kv.MappedStoredEntry (List UInt8) :=
  ⟨stringKeys.serialize r.key, r.value, r.deleted, r.timestamp, r.keyOffset, r.entryLength⟩

theorem mapKeys_map_rawMapped (entries : List (Kv.MappedStoredEntry String)) :
    mapKeys (entries.map rawMapped) = .ok entries := by
  rw [mapKeys, List.mapM_map]
  refine (Outcome.mapM_ok fun r _ => ?_).trans (by rw [List.map_id])
  rw [Function.comp_apply, rawMapped, uuidWasiKeyFrom_serialize]
  rfl

theorem file_map_raw (log : List (Kv.Entry String)) :
    Kv.byteKeys.file (log.map raw) = stringKeys.file log := by
  rw [Kv.KeyLib.file, List.flatMap_map]
  rfl

theorem layout_map_raw (log : List (Kv.Entry String)) (offset : ℕ) :
    Kv.byteKeys.layout offset (log.map raw) = (stringKeys.layout offset log).map rawMapped := by
  induction log generalizing offset with
  | nil => rfl
  | cons e log ih => exact congrArg _ (ih _)

/-- **On a file of the store the mapper does not panic**, and gives what `stringKeys` reads. -/
theorem mapKeys_decodeMulti {log : List (Kv.Entry String)}
    (hlt : (stringKeys.file log).length < 2 ^ 32) :
    Kv.byteKeys.decodeMulti (stringKeys.file log) >>= mapKeys
      = stringKeys.decodeMulti (stringKeys.file log) := by
  rw [stringKeys.decodeMulti_file hlt]
  rw [← file_map_raw] at hlt ⊢
  rw [Kv.byteKeys.decodeMulti_file hlt, Outcome.ok_bind, layout_map_raw, mapKeys_map_rawMapped]

end stringKeys

/-- The iteration orders an insert meets. -/
structure Orders where
  read : Kv.SegmentOrder
  write : Kv.ChangeOrder String

/-- **What is found in a store.** -/
def KeyValueDb.ofStore (store : Kv.KVStore String) : KeyValueDb := fun key => (store.get key).toOption

/-- A node, with the store it saves itself to. -/
structure StoredNode (Xpub Signer : Type) where
  chain : CompactChain Xpub
  signer : Signer
  nodeState : NodeState
  store : Kv.KVStore String

variable {Xpub PublicKey Signer : Type}

namespace StoredNode

/-- **The node over a map** that it stands for. -/
def view (s : StoredNode Xpub Signer) : Node Xpub Signer where
  chain := s.chain
  signer := s.signer
  nodeState := s.nodeState
  db := .ofStore s.store

/-- A call on the chain. -/
def onChain {ε α : Type} (x : Op ε (CompactChain Xpub) α) : Op ε (StoredNode Xpub Signer) α :=
  Op.zoom StoredNode.chain (fun chain s => { s with chain }) x

/-- A call on the wallet. -/
def onWallet {ε α : Type} (x : Op ε (WatchOnly Xpub) α) : Op ε (StoredNode Xpub Signer) α :=
  Op.zoom (fun s => s.chain.wallet) (fun w s => { s with chain := { s.chain with wallet := w } }) x

/-- A call on the store. -/
def onStore {ε α : Type} (x : Op ε (Kv.KVStore String) α) : Op ε (StoredNode Xpub Signer) α :=
  Op.zoom StoredNode.store (fun store s => { s with store }) x

variable (lib : SendLib Xpub PublicKey Signer) (env : Kv.Env)

/-- The inserts of a save, as updates of the store. -/
def saveSteps (orders : ℕ → Orders) (n : Node Xpub Signer) : List (Kv.Step String) :=
  (lib.inserts n).zipIdx.map fun x => .update (orders x.2).read (orders x.2).write x.1.1 x.1.2

/-- `Node::store_state`: each insert is unwrapped. -/
def storeState (orders : ℕ → Orders) : Op Bitspend.Error (StoredNode Xpub Signer) Unit := do
  let steps ← Op.ask fun s => .ok (saveSteps lib orders s.view)
  ForM.forM steps fun x => Op.expectOk NodeLib.UNWRAP (onStore (x.run stringKeys env))

/-- `Node::balance`. -/
def balance (orders : ℕ → Orders) : Op Bitspend.Error (StoredNode Xpub Signer) ℕ := do
  onChain lib.chain.syncState
  storeState lib env orders
  Op.ask fun s => Outcome.mapErr (fun _ => .walletError 3) s.chain.wallet.balance

/-- `Node::get_receive_address`. -/
def getReceiveAddress (orders : ℕ → Orders) : Op Bitspend.Error (StoredNode Xpub Signer) String := do
  let address ← Op.mapErr (fun _ => .walletError 4) (onWallet lib.keys.getReceiveAddress)
  storeState lib env orders
  pure address

/-- `Node::send_to_address`. -/
def sendToAddress (recipient : Script) (amount feeRate : UInt64) (rand : Rng) (orders : ℕ → Orders) :
    Op Bitspend.Error (StoredNode Xpub Signer) Unit := do
  onChain lib.chain.syncState
  let transaction ← Op.expectOk NodeLib.UNWRAP
    (onWallet (lib.createTransaction recipient amount feeRate rand))
  let signed ← Op.ask fun s => Outcome.expect NodeLib.UNWRAP (lib.sign s.signer transaction)
  let finalised ← Op.lift (Outcome.expectOk NodeLib.UNWRAP (lib.finalisePsbtTx transaction signed))
  let deserialised ← Op.lift (Outcome.expectOk (ε := Bitspend.Error) NodeLib.UNWRAP (Tx.read finalised))
  Op.expectOk NodeLib.UNWRAP (onChain (lib.chain.sendTransaction deserialised.1)
    : Op Bitspend.Error (StoredNode Xpub Signer) Unit)
  storeState lib env orders

/-- `Node::restore`, over the store that was opened. -/
def restore (p2p : Peer) (store : Kv.KVStore String) : Outcome Bitspend.Error (Node Xpub Signer) :=
  lib.restore p2p (.ofStore store)

end StoredNode

/-! ## Calm saves -/

/-- **The steps rewrite nothing** where they come, one after another, and every file fits. -/
def Calm (env : Kv.Env) (store : Kv.KVStore String) : List (Kv.Step String) → Prop
  | [] => True
  | x :: xs => x.Plain stringKeys store ∧ store.segments.Fits
    ∧ Calm env (x.run stringKeys env store).2 xs

instance Calm.decidable (env : Kv.Env) (store : Kv.KVStore String) :
    (xs : List (Kv.Step String)) → Decidable (Calm env store xs)
  | [] => .isTrue trivial
  | x :: xs =>
    have := Calm.decidable env (x.run stringKeys env store).2 xs
    inferInstanceAs (Decidable (_ ∧ _ ∧ _))

/-- **A store that was reached**, in any sessions, with whatever merges. -/
def Reached (env : Kv.Env) (store : Kv.KVStore String) : Prop :=
  ∃ m, Kv.Run stringKeys env (fun _ _ => True) m store

section Calm

variable {env : Kv.Env}

/-- What is found after a step, where it is calm. -/
theorem KeyValueDb.ofStore_of_plain (henv : env.Behaves) {store : Kv.KVStore String}
    (hreached : Reached env store) {x : Kv.Step String} (hx : x.Plain stringKeys store)
    (hfit : store.segments.Fits) :
    ∃ store', x.run stringKeys env store = (.ok (), store') ∧ Reached env store'
      ∧ ofStore store' = x.expect (ofStore store) := by
  obtain ⟨m, hrun⟩ := hreached
  obtain ⟨store', hstore, hget⟩ := hrun.get_of_plain henv hx hfit
  exact ⟨store', hstore, ⟨_, hrun.step trivial hstore⟩, funext hget⟩

/-- **Calm steps are done**, and the store is found to be what they are expected to make of it. -/
theorem StoredNode.forM_of_calm (henv : env.Behaves) {steps : List (Kv.Step String)}
    {s : StoredNode Xpub Signer} (hreached : Reached env s.store) (hcalm : Calm env s.store steps) :
    ∃ store, ForM.forM steps (fun x => (Op.expectOk NodeLib.UNWRAP
        (StoredNode.onStore (x.run stringKeys env)) : Op Bitspend.Error (StoredNode Xpub Signer) Unit)) s
        = (.ok PUnit.unit, { s with store })
      ∧ Reached env store
      ∧ KeyValueDb.ofStore store = steps.foldl (fun m x => x.expect m) (KeyValueDb.ofStore s.store) := by
  induction steps generalizing s with
  | nil => exact ⟨s.store, rfl, hreached, rfl⟩
  | cons x steps ih =>
    obtain ⟨hx, hfit, hrest⟩ := hcalm
    obtain ⟨store, hstore, hreached', hdb⟩ := KeyValueDb.ofStore_of_plain henv hreached hx hfit
    rw [hstore] at hrest
    obtain ⟨store', hforM, hreached'', hdb'⟩ := ih (s := { s with store }) hreached' hrest
    have hone : (StoredNode.onStore (x.run stringKeys env) : Op Kv.Error (StoredNode Xpub Signer) Unit) s
        = (.ok (), { s with store }) := Op.zoom_eq_ok.mpr ⟨store, hstore, rfl⟩
    refine ⟨store', Op.forM_cons_eq_ok.mpr ⟨_, _, Op.expectOk_eq_ok.mpr hone, hforM⟩, hreached'', ?_⟩
    rw [List.foldl_cons, ← hdb]
    exact hdb'

end Calm

namespace StoredNode

variable {lib : SendLib Xpub PublicKey Signer} {env : Kv.Env} {orders : ℕ → Orders}

/-- What a save is expected to leave. -/
theorem foldl_saveSteps (n : Node Xpub Signer) :
    (saveSteps lib orders n).foldl (fun m x => x.expect m) n.db = (lib.storeState n).db := by
  have hinsert : ∀ (xs : List (String × List UInt8)) (k : ℕ) (db : KeyValueDb),
      ((xs.zipIdx k).map fun x => (Kv.Step.update (orders x.2).read (orders x.2).write x.1.1 x.1.2
        : Kv.Step String)).foldl (fun m x => x.expect m) db = db.insertAll xs := by
    intro xs
    induction xs with
    | nil => exact fun _ _ => rfl
    | cons x xs ih =>
      intro k db
      have hone : (Kv.Step.update (orders k).read (orders k).write x.1 x.2).expect db
          = db.insert x.1 x.2 := by
        funext key
        exact Function.update_apply db x.1 (some x.2) key
      rw [List.zipIdx_cons, List.map_cons, List.foldl_cons, ih]
      change KeyValueDb.insertAll (Kv.Step.expect _ _) xs = _
      rw [hone]
      rfl
  exact hinsert (lib.inserts n) 0 n.db

/-- **A calm save does to the store what a save does to the map.** -/
theorem storeState_of_calm (henv : env.Behaves) {s : StoredNode Xpub Signer}
    (hreached : Reached env s.store) (hcalm : Calm env s.store (saveSteps lib orders s.view)) :
    ∃ s', storeState lib env orders s = (.ok (), s') ∧ s'.view = lib.storeState s.view
      ∧ Reached env s'.store := by
  obtain ⟨store, hforM, hreached', hdb⟩ := forM_of_calm henv hreached hcalm
  refine ⟨{ s with store }, ?_, ?_, hreached'⟩
  · rw [storeState, Op.ask_ok_bind]
    exact hforM
  · have hsaved := @foldl_saveSteps _ _ _ lib orders s.view
    change List.foldl _ (KeyValueDb.ofStore s.store) _ = _ at hsaved
    rw [← hdb] at hsaved
    change (⟨s.chain, s.signer, s.nodeState, .ofStore store⟩ : Node Xpub Signer) = _
    rw [hsaved]
    rfl

/-! ## The node over the store, and over the map -/

/-- **The same call**, on the two nodes: it leaves the store alone. -/
def Mirrors {ε α : Type} (x : Op ε (StoredNode Xpub Signer) α) (y : Op ε (Node Xpub Signer) α) : Prop :=
  ∀ s, y s.view = ((x s).1, (x s).2.view) ∧ (x s).2.store = s.store

theorem mirrors_onChain {ε α : Type} (x : Op ε (CompactChain Xpub) α) :
    Mirrors (onChain x : Op ε (StoredNode Xpub Signer) α)
      (Op.zoom Node.chain (fun c n => { n with chain := c }) x) :=
  fun _ => ⟨rfl, rfl⟩

theorem mirrors_onWallet {ε α : Type} (x : Op ε (WatchOnly Xpub) α) :
    Mirrors (onWallet x : Op ε (StoredNode Xpub Signer) α) (SendLib.onWallet x) := fun _ => ⟨rfl, rfl⟩

theorem Mirrors.ask {ε α : Type} {f : StoredNode Xpub Signer → Outcome ε α}
    {g : Node Xpub Signer → Outcome ε α} (hf : ∀ s, f s = g s.view) : Mirrors (Op.ask f) (Op.ask g) :=
  fun s => ⟨Prod.ext (hf s).symm rfl, rfl⟩

theorem Mirrors.lift {ε α : Type} (a : Outcome ε α) :
    Mirrors (Op.lift a : Op ε (StoredNode Xpub Signer) α) (Op.lift a) := fun _ => ⟨rfl, rfl⟩

theorem Mirrors.mapErr {ε ε' α : Type} {f : ε → ε'} {x : Op ε (StoredNode Xpub Signer) α}
    {y : Op ε (Node Xpub Signer) α} (hx : Mirrors x y) : Mirrors (Op.mapErr f x) (Op.mapErr f y) := by
  intro s
  obtain ⟨heq, hstore⟩ := hx s
  rw [Op.mapErr, heq]
  exact ⟨rfl, hstore⟩

theorem Mirrors.expectOk {ε ε' α : Type} {msg : String} {x : Op ε (StoredNode Xpub Signer) α}
    {y : Op ε (Node Xpub Signer) α} (hx : Mirrors x y) :
    Mirrors (Op.expectOk msg x : Op ε' (StoredNode Xpub Signer) α) (Op.expectOk msg y) := by
  intro s
  obtain ⟨heq, hstore⟩ := hx s
  rw [Op.expectOk, heq]
  exact ⟨rfl, hstore⟩

/-- **The call ends in a save**: where that is calm, the node over the store does what the one over the
map does. -/
def Tracks (lib : SendLib Xpub PublicKey Signer) (env : Kv.Env) (orders : ℕ → Orders) {ε α : Type}
    (x : Op ε (StoredNode Xpub Signer) α) (y : Op ε (Node Xpub Signer) α) : Prop :=
  ∀ s, Reached env s.store → Calm env s.store (saveSteps lib orders (y s.view).2) →
    y s.view = ((x s).1, (x s).2.view) ∧ Reached env (x s).2.store

namespace Tracks

variable {α β : Type}

/-- What comes before the save. -/
theorem before {x : Op Bitspend.Error (StoredNode Xpub Signer) α}
    {y : Op Bitspend.Error (Node Xpub Signer) α}
    {f : α → Op Bitspend.Error (StoredNode Xpub Signer) β} {g : α → Op Bitspend.Error (Node Xpub Signer) β}
    (hf : ∀ a, Tracks lib env orders (f a) (g a)) (hx : Mirrors x y) :
    Tracks lib env orders (x >>= f) (y >>= g) := by
  intro s hreached hcalm
  obtain ⟨heq, hstore⟩ := hx s
  rw [Op.bind_apply] at hcalm
  rw [Op.bind_apply, Op.bind_apply]
  rcases hxs : x s with ⟨e | a, s₁⟩
  · rw [hxs] at heq hstore
    rw [heq]
    exact ⟨rfl, by rwa [hstore]⟩
  · rw [hxs] at heq hstore
    rw [heq] at hcalm ⊢
    exact hf a s₁ (by rwa [hstore]) (by rwa [hstore])

/-- The save. -/
theorem save (henv : env.Behaves) :
    Tracks lib env orders (storeState lib env orders) (Op.update lib.storeState) := by
  intro s hreached hcalm
  obtain ⟨s', hsave, hview, hreached'⟩ := storeState_of_calm henv hreached
    (show Calm env s.store (saveSteps lib orders s.view) from hcalm)
  rw [hsave]
  exact ⟨Prod.ext rfl hview.symm, hreached'⟩

/-- What is read off the node after it. -/
theorem andThen {x : Op Bitspend.Error (StoredNode Xpub Signer) α}
    {y : Op Bitspend.Error (Node Xpub Signer) α}
    {f : α → StoredNode Xpub Signer → Outcome Bitspend.Error β}
    {g : α → Node Xpub Signer → Outcome Bitspend.Error β} (hx : Tracks lib env orders x y)
    (hf : ∀ a s, f a s = g a s.view) :
    Tracks lib env orders (x >>= fun a => Op.ask (f a)) (y >>= fun a => Op.ask (g a)) := by
  have hlast : ∀ n, ((y >>= fun a => Op.ask (g a)) n).2 = (y n).2 := by
    intro n
    rw [Op.bind_apply]
    rcases y n with ⟨e | a, n'⟩
    · rfl
    · rfl
  intro s hreached hcalm
  rw [hlast] at hcalm
  obtain ⟨heq, hreached'⟩ := hx s hreached hcalm
  rw [Op.bind_apply, Op.bind_apply, heq]
  rcases hxs : x s with ⟨e | a, s'⟩
  · rw [hxs] at hreached'
    exact ⟨rfl, hreached'⟩
  · rw [hxs] at hreached'
    exact ⟨Prod.ext (hf a s').symm rfl, hreached'⟩

/-- What is answered in the end. -/
theorem reply {x : Op Bitspend.Error (StoredNode Xpub Signer) α}
    {y : Op Bitspend.Error (Node Xpub Signer) α} (hx : Tracks lib env orders x y) (f : α → β) :
    Tracks lib env orders (x >>= fun a => pure (f a)) (y >>= fun a => pure (f a)) :=
  hx.andThen (f := fun a _ => .ok (f a)) (g := fun a _ => .ok (f a)) fun _ _ => rfl

end Tracks

/-- **Each operation of the node over the store tracks that of the node over the map.** -/
theorem tracks_balance (henv : env.Behaves) :
    Tracks lib env orders (balance lib env orders) lib.balance :=
  .before (fun _ => (Tracks.save henv).andThen fun _ _ => rfl) (mirrors_onChain _)

theorem tracks_getReceiveAddress (henv : env.Behaves) :
    Tracks lib env orders (getReceiveAddress lib env orders) lib.getReceiveAddress :=
  .before (fun address => (Tracks.save henv).andThen (f := fun _ _ => .ok address)
    (g := fun _ _ => .ok address) fun _ _ => rfl) (mirrors_onWallet _).mapErr

theorem tracks_sendToAddress (henv : env.Behaves) (recipient : Script) (amount feeRate : UInt64)
    (rand : Rng) :
    Tracks lib env orders (sendToAddress lib env recipient amount feeRate rand orders)
      (lib.sendToAddress recipient amount feeRate rand) := by
  refine .before (fun _ => ?_) (mirrors_onChain _)
  refine .before (fun transaction => ?_) (mirrors_onWallet _).expectOk
  refine .before (fun signed => ?_) (.ask fun _ => rfl)
  refine .before (fun finalised => ?_) (.lift _)
  refine .before (fun deserialised => ?_) (.lift _)
  exact .before (fun _ => Tracks.save henv) (mirrors_onChain _).expectOk

end StoredNode

/-! ## Runs -/

/-- What an operation of the node answers. -/
inductive Reply where
  | balance (value : ℕ)
  | address (address : String)
  | sent

/-- An operation of the node over the map. -/
def SendLib.call (lib : SendLib Xpub PublicKey Signer) : NodeOp → Op Bitspend.Error (Node Xpub Signer) Reply
  | .balance => do pure (.balance (← lib.balance))
  | .getReceiveAddress => do pure (.address (← lib.getReceiveAddress))
  | .sendToAddress recipient amount feeRate rand => do
    lib.sendToAddress recipient amount feeRate rand
    pure .sent

namespace StoredNode

variable (lib : SendLib Xpub PublicKey Signer) (env : Kv.Env)

/-- An operation of the node over the store. -/
def call (orders : ℕ → Orders) : NodeOp → Op Bitspend.Error (StoredNode Xpub Signer) Reply
  | .balance => do pure (.balance (← balance lib env orders))
  | .getReceiveAddress => do pure (.address (← getReceiveAddress lib env orders))
  | .sendToAddress recipient amount feeRate rand => do
    sendToAddress lib env recipient amount feeRate rand orders
    pure .sent

/-- **A process**: what the operations answer, one after another, and the node after them. -/
def process : StoredNode Xpub Signer → List (NodeOp × (ℕ → Orders)) →
    List (Outcome Bitspend.Error Reply) × StoredNode Xpub Signer
  | s, [] => ([], s)
  | s, (op, orders) :: ops =>
    let (reply, s') := call lib env orders op s
    let (replies, s'') := process s' ops
    (reply :: replies, s'')

/-- **Every save of the process is calm.** -/
def CalmProcess : StoredNode Xpub Signer → List (NodeOp × (ℕ → Orders)) → Prop
  | _, [] => True
  | s, (op, orders) :: ops => Calm env s.store (saveSteps lib orders (lib.call op s.view).2)
    ∧ CalmProcess (call lib env orders op s).2 ops

instance CalmProcess.decidable : (s : StoredNode Xpub Signer) → (ops : List (NodeOp × (ℕ → Orders))) →
    Decidable (CalmProcess lib env s ops)
  | _, [] => .isTrue trivial
  | s, (op, orders) :: ops =>
    have := CalmProcess.decidable (call lib env orders op s).2 ops
    inferInstanceAs (Decidable (_ ∧ _))

end StoredNode

/-- The same over the map. -/
def SendLib.process (lib : SendLib Xpub PublicKey Signer) : Node Xpub Signer → List NodeOp →
    List (Outcome Bitspend.Error Reply) × Node Xpub Signer
  | n, [] => ([], n)
  | n, op :: ops =>
    let (reply, n') := lib.call op n
    let (replies, n'') := process lib n' ops
    (reply :: replies, n'')

namespace StoredNode

variable {lib : SendLib Xpub PublicKey Signer} {env : Kv.Env}

theorem tracks_call (henv : env.Behaves) (orders : ℕ → Orders) (op : NodeOp) :
    Tracks lib env orders (call lib env orders op) (lib.call op) := by
  cases op with
  | balance => exact (tracks_balance henv).reply Reply.balance
  | getReceiveAddress => exact (tracks_getReceiveAddress henv).reply Reply.address
  | sendToAddress recipient amount feeRate rand =>
    exact (tracks_sendToAddress henv recipient amount feeRate rand).reply fun _ => Reply.sent

/-- **A node over the store is a node over a map**, as long as its saves are calm: in any process over
any store that was reached, it answers the same, is the same, and finds in its store what is in the
map. -/
theorem process_refines (henv : env.Behaves) {s : StoredNode Xpub Signer}
    (hreached : Reached env s.store) {ops : List (NodeOp × (ℕ → Orders))}
    (hcalm : CalmProcess lib env s ops) :
    lib.process s.view (ops.map Prod.fst) = ((process lib env s ops).1, (process lib env s ops).2.view) := by
  induction ops generalizing s with
  | nil => rfl
  | cons op ops ih =>
    obtain ⟨op, orders⟩ := op
    obtain ⟨hfirst, hrest⟩ := hcalm
    obtain ⟨heq, hreached'⟩ := tracks_call henv orders op s hreached hfirst
    rw [List.map_cons, SendLib.process, heq]
    change (_ :: (lib.process _ _).1, (lib.process _ _).2) = _
    rw [ih hreached' hrest]
    rfl

end StoredNode

/-! ## Restoring after whatever happened -/

namespace NodeLib

variable {lib : NodeLib Xpub Signer} {env : Kv.Env} {nodes : List (Node Xpub Signer)}

/-- **What is done to the directory of a node**: it is opened, or a piece of one of the nodes is
inserted. -/
def Saves (lib : NodeLib Xpub Signer) (nodes : List (Node Xpub Signer)) (x : Kv.Step String) : Prop :=
  (∃ config order, x = .reopen config order)
    ∨ ∃ n ∈ nodes, ∃ piece ∈ lib.inserts n, ∃ readOrder writeOrder,
      x = .update readOrder writeOrder piece.1 piece.2

/-- The four keys. -/
def keys : List String := [CHAIN_STATE_KEY, WALLET_STATE_KEY, SIGNER_STATE_KEY, NODE_STATE_KEY]

/-- A key leads to the piece of one of the nodes. -/
theorem exists_of_saves {begun : List (Kv.Step String)} (hsaves : ∀ x ∈ begun, lib.Saves nodes x)
    {key : String} {value : List UInt8}
    (h : ∃ x ∈ begun, ∃ e ∈ x.entry, e.key = key ∧ e.value = value) :
    ∃ n ∈ nodes, (key, value) ∈ lib.inserts n := by
  obtain ⟨x, hx, e, he, rfl, rfl⟩ := h
  obtain ⟨config, order, rfl⟩ | ⟨n, hn, piece, hpiece, readOrder, writeOrder, rfl⟩ := hsaves x hx
  · cases he
  · obtain rfl := Option.some.inj he
    exact ⟨n, hn, hpiece⟩

/-- **A node that has saved itself once can be restored.**  In any life of its directory, with any
number of saves begun, stopped anywhere and begun again: once each of the four pieces has been saved,
whoever opens the directory restores a node, each piece of which is that of a node whose save was
begun, though not of the same one always. -/
theorem restore_recovers (henv : env.Behaves) (hread : ∀ n ∈ nodes, lib.ReadsBack n)
    {begun done : List (Kv.Step String)} {process : Kv.Process} {s s' : Kv.KVStore String}
    (hlife : Kv.Life stringKeys env begun done process s) (hsaves : ∀ x ∈ begun, lib.Saves nodes x)
    (hfirst : ∀ key ∈ keys, ∃ x ∈ done, ∃ e ∈ x.entry, e.key = key) {config : Kv.Config}
    {order : Kv.SegmentOrder} (hnew : Kv.KVStore.new stringKeys env config order s = (.ok (), s'))
    (p2p : Peer) :
    ∃ n, lib.restore p2p (.ofStore s') = .ok n
      ∧ (∃ a ∈ nodes, n.chain.chainState = a.chain.chainState)
      ∧ (∃ b ∈ nodes, n.chain.wallet = b.chain.wallet)
      ∧ (∃ c ∈ nodes, n.signer = c.signer) ∧ ∃ d ∈ nodes, n.nodeState = d.nodeState := by
  obtain ⟨log, hlog⟩ | ⟨-, hdead⟩ := hlife.standing henv
  · have hfound : ∀ key ∈ keys, ∃ value, KeyValueDb.ofStore s' key = some value
        ∧ ∃ n ∈ nodes, (key, value) ∈ lib.inserts n := by
      intro key hkey
      obtain ⟨s₁, hs₁, hget⟩ := Kv.KVStore.new_of_holds henv hlog.world hlog.short config order
      obtain rfl := congrArg Prod.snd (hs₁.symm.trans hnew)
      obtain ⟨x, hx, e, he, rfl⟩ := hfirst key hkey
      have hnone : Kv.Step.delete e.key ∉ begun := by
        intro hin
        obtain ⟨_, _, heq⟩ | ⟨_, _, _, _, _, _, heq⟩ := hsaves _ hin
        · cases heq
        · cases heq
      obtain ⟨value, hvalue⟩ := (hget e.key).2 (hlog.recorded.kept hx he hnone)
      obtain ⟨fileId, e', he', hkey', rfl⟩ := (hget e.key).1 value hvalue
      obtain ⟨y, hy, e₀, he₀, hkey₀, hvalue₀⟩ := hlog.recorded.source he'
      refine ⟨e'.value, by rw [KeyValueDb.ofStore, hvalue]; rfl, exists_of_saves hsaves ?_⟩
      exact ⟨y, hy, e₀, he₀, hkey₀.trans hkey', hvalue₀⟩
    obtain ⟨_, hchain, a, ha, hpiece₁⟩ := hfound CHAIN_STATE_KEY (by decide)
    obtain ⟨_, hwallet, b, hb, hpiece₂⟩ := hfound WALLET_STATE_KEY (by decide)
    obtain ⟨_, hsigner, c, hc, hpiece₃⟩ := hfound SIGNER_STATE_KEY (by decide)
    obtain ⟨_, hnode, d, hd, hpiece₄⟩ := hfound NODE_STATE_KEY (by decide)
    simp only [inserts, List.mem_cons, List.not_mem_nil, or_false, Prod.mk.injEq, CHAIN_STATE_KEY,
      WALLET_STATE_KEY, SIGNER_STATE_KEY, NODE_STATE_KEY, String.reduceEq, false_and, false_or,
      true_and] at hpiece₁ hpiece₂ hpiece₃ hpiece₄
    obtain rfl := hpiece₁
    obtain rfl := hpiece₂
    obtain rfl := hpiece₃
    obtain rfl := hpiece₄
    exact ⟨_, lib.restore_eq_ok p2p (hread a ha) (hread b hb) (hread c hc) (hread d hd) hchain hwallet
      hsigner hnode, ⟨a, ha, rfl⟩, ⟨b, hb, rfl⟩, ⟨c, hc, rfl⟩, d, hd, rfl⟩
  · exact absurd hnew (hdead config order s')

end NodeLib

/-! ## A first save -/

/-- A directory with a record in it, opened for a second session. -/
def secondOpening : Kv.KVStore String :=
  [Kv.Step.reopen Kv.libraryConfig .asKept, .update .asKept .asKept CHAIN_STATE_KEY [0],
    .reopen Kv.libraryConfig .asKept].foldl (fun store x => (x.run stringKeys Kv.steady store).2)
    (.closed .empty)

/-- The new node, over that store. -/
def firstNode : StoredNode (List UInt32) Unit where
  chain := newNode.chain
  signer := newNode.signer
  nodeState := newNode.nodeState
  store := secondOpening

/-- It hands out an address, sends two payments, and then the peer has no more to say. -/
def firstOps : List (NodeOp × (ℕ → Orders)) :=
  (twoSends 100000 50000 ++ [NodeOp.balance]).map fun op => (op, fun _ => ⟨.asKept, .asKept⟩)

theorem reached_firstNode : Reached Kv.steady firstNode.store :=
  ⟨_, .step (x := .reopen Kv.libraryConfig .asKept)
    (.step (x := .update .asKept .asKept CHAIN_STATE_KEY [0])
      (@Kv.Run.start _ _ _ _ _ Kv.libraryConfig .asKept _ (Prod.ext rfl rfl)) trivial (Prod.ext rfl rfl))
    trivial (Prod.ext rfl rfl)⟩

/-- The statement for it. -/
theorem process_refines_firstOps :
    (StoredNode.process signingLib Kv.steady firstNode firstOps).1.map Except.isOk
        = [true, true, true, false]
      ∧ signingLib.process firstNode.view (firstOps.map Prod.fst)
        = ((StoredNode.process signingLib Kv.steady firstNode firstOps).1,
          (StoredNode.process signingLib Kv.steady firstNode firstOps).2.view) :=
  ⟨by decide +kernel, StoredNode.process_refines Kv.behaves_steady reached_firstNode (by decide +kernel)⟩

/-- The inserts of a save. -/
def pieceSteps (n : Node Unit Unit) : List (Kv.Step String) :=
  (payingLib.inserts n).map fun piece => .update .asKept .asKept piece.1 piece.2

/-- A node is saved, and then its chain state again, after a sync… -/
def savedSteps : List (Kv.Step String) :=
  .reopen Kv.libraryConfig .asKept :: (pieceSteps nodeBefore ++ (pieceSteps nodeAfter).take 1)

def storeBetween : Kv.KVStore String := Kv.Step.runAll stringKeys Kv.steady (.closed .empty) savedSteps

/-- …and the process stops in the insert of its wallet. -/
def walletStep : Kv.Step String :=
  .update .asKept .asKept WALLET_STATE_KEY (payingLib.wallet.serialize afterSync.wallet)

def storeStopped : Kv.KVStore String :=
  storeBetween.crashed (walletStep.run stringKeys Kv.steady storeBetween).2 0 0

/-- The directory opened again. -/
def storeReopened : Kv.KVStore String :=
  (Kv.KVStore.new stringKeys Kv.steady Kv.libraryConfig .asKept storeStopped).2

theorem life_storeStopped :
    Kv.Life stringKeys Kv.steady (savedSteps ++ [walletStep]) savedSteps .stopped storeStopped := by
  have hlife : Kv.Life stringKeys Kv.steady savedSteps savedSteps .running storeBetween :=
    Kv.Life.start.session (l := savedSteps.tail) (by decide +kernel)
  exact hlife.crash 0 0 (fun _ => rfl) (Prod.ext (by decide +kernel) rfl) (by decide +kernel)

theorem saves_walletStep : ∀ x ∈ savedSteps ++ [walletStep], payingLib.Saves [nodeBefore, nodeAfter] x := by
  have hpieces : ∀ n ∈ [nodeBefore, nodeAfter], ∀ x ∈ pieceSteps n,
      payingLib.Saves [nodeBefore, nodeAfter] x := by
    intro n hn x hx
    obtain ⟨piece, hpiece, rfl⟩ := List.mem_map.mp hx
    exact .inr ⟨n, hn, piece, hpiece, _, _, rfl⟩
  intro x hx
  rcases List.mem_append.mp hx with hx | hx
  · rcases List.mem_cons.mp hx with rfl | hx
    · exact .inl ⟨_, _, rfl⟩
    rcases List.mem_append.mp hx with hx | hx
    · exact hpieces _ (by simp) x hx
    · exact hpieces _ (by simp) x (List.mem_of_mem_take hx)
  · refine hpieces nodeAfter (by simp) x ?_
    obtain rfl := List.mem_singleton.mp hx
    exact List.mem_cons_of_mem _ List.mem_cons_self

/-- The node is restored: its chain state is the new one, and its wallet the old one. -/
theorem restore_recovers_storeStopped :
    [CHAIN_STATE_KEY, WALLET_STATE_KEY].map (KeyValueDb.ofStore storeReopened) = [some [1], some [0]]
      ∧ ∃ n, payingLib.restore (servingPeer []) (.ofStore storeReopened) = .ok n
        ∧ (∃ a ∈ [nodeBefore, nodeAfter], n.chain.chainState = a.chain.chainState)
        ∧ ∃ b ∈ [nodeBefore, nodeAfter], n.chain.wallet = b.chain.wallet := by
  have hnew : Kv.KVStore.new stringKeys Kv.steady Kv.libraryConfig .asKept storeStopped
      = (.ok (), storeReopened) := Prod.ext (by decide +kernel) (by rw [storeReopened])
  have hfirst : ∀ key ∈ NodeLib.keys, ∃ x ∈ savedSteps, ∃ e ∈ x.entry, e.key = key := by
    intro key hkey
    obtain ⟨piece, hpiece, rfl⟩ : ∃ piece ∈ payingLib.inserts nodeBefore, piece.1 = key := by
      revert key
      simp [NodeLib.keys, NodeLib.inserts]
    exact ⟨_, List.mem_cons_of_mem _ (List.mem_append_left _ (List.mem_map.mpr ⟨piece, hpiece, rfl⟩)), _,
      rfl, rfl⟩
  have hread : ∀ n ∈ [nodeBefore, nodeAfter], payingLib.ReadsBack n := by
    intro n hn
    rcases List.mem_pair.mp hn with rfl | rfl
    · exact readsBack_nodeBefore
    · exact readsBack_nodeAfter
  obtain ⟨n, hn, hchain, hwallet, -⟩ := NodeLib.restore_recovers Kv.behaves_steady hread
    life_storeStopped saves_walletStep hfirst hnew (servingPeer [])
  exact ⟨by decide +kernel, n, hn, hchain, hwallet⟩

end Bitspend
