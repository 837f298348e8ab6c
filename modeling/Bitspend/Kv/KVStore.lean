import Bitspend.Kv.Segments

/-!
# Kv/KVStore — the key-value store

`kvstore.rs`, `key_directory.rs`, `merged_state.rs`, `merge_config.rs`, `config.rs`.  The key directory
says where the current record of a key stands; `get` reads it there.  Every so many updates the store
merges: it reads inactive segments, keeps one record per key, writes these to new segments, points the
directory at them and removes the files it has read.

Iteration orders of hash maps are arguments.  `sync` and the lock change nothing here.
-/

namespace Bitspend.Kv

variable {Key : Type} [DecidableEq Key]

/-! ## Configuration -/

/-- `MergeConfig`; the key mapper is in the `KeyLib`. -/
structure MergeConfig where
  totalSegmentsToRead : ℕ
  shouldReadAllSegments : Bool
  runMergeEvery : UInt64
  deriving Repr, DecidableEq

namespace MergeConfig

/-- `MergeConfig::new_with_duration`. -/
def newWithDuration (totalSegmentsToRead : ℕ) (runMergeEvery : UInt64) : MergeConfig :=
  ⟨totalSegmentsToRead, false, runMergeEvery⟩

/-- `MergeConfig::new`. -/
def new (totalSegmentsToRead : ℕ) : MergeConfig := newWithDuration totalSegmentsToRead 1000

/-- `MergeConfig::new_with_all_segments_to_read_every_fixed_duration`. -/
def newWithAllSegmentsToReadEveryFixedDuration (runMergeEvery : UInt64) : MergeConfig :=
  ⟨0, true, runMergeEvery⟩

/-- `MergeConfig::new_with_all_segments_to_read`. -/
def newWithAllSegmentsToRead : MergeConfig := newWithAllSegmentsToReadEveryFixedDuration 1000

end MergeConfig

/-- `Config`, less the directory's name and the capacity the key directory starts with. -/
structure Config where
  maxSegmentSizeBytes : UInt64
  mergeConfig : MergeConfig
  deriving Repr, DecidableEq

/-! ## The key directory -/

/-- `KeyDirectory`. -/
abbrev KeyDirectory (Key : Type) := HashMap Key AppendEntryResponse

namespace KeyDirectory

/-- `KeyDirectory::reload`. -/
def reload (directory : KeyDirectory Key) (fileId : ℕ) (entries : List (MappedStoredEntry Key)) :
    KeyDirectory Key :=
  HashMap.insertAll MappedStoredEntry.key
    (fun entry => ⟨fileId, entry.keyOffset.toNat, entry.entryLength⟩) directory entries

/-- `KeyDirectory::bulk_update`. -/
def bulkUpdate (directory : KeyDirectory Key) (changes : List (Key × AppendEntryResponse)) :
    KeyDirectory Key :=
  HashMap.insertAll Prod.fst Prod.snd directory changes

end KeyDirectory

/-! ## Merging -/

/-- `MergedState`. -/
structure MergedState (Key : Type) where
  valueByKey : HashMap Key (MappedStoredEntry Key)
  deletedKeys : HashMap Key (MappedStoredEntry Key)

namespace MergedState

/-- `MergedState::new`. -/
def new : MergedState Key := ⟨∅, ∅⟩

/-- One round of `take_all`. -/
def takeOne (state : MergedState Key) (entry : MappedStoredEntry Key) : MergedState Key :=
  if entry.deleted then { state with deletedKeys := state.deletedKeys.insert entry.key entry }
  else { state with valueByKey := state.valueByKey.insert entry.key entry }

/-- `MergedState::take_all`. -/
def takeAll (state : MergedState Key) (entries : List (MappedStoredEntry Key)) : MergedState Key :=
  entries.foldl takeOne state

/-- `MergedState::maybe_update`. -/
def maybeUpdate (state : MergedState Key) (existing new : MappedStoredEntry Key) :
    MergedState Key :=
  if existing.timestamp < new.timestamp then
    if new.deleted then { state with valueByKey := state.valueByKey.erase existing.key }
    else { state with valueByKey := state.valueByKey.insert existing.key new }
  else state

/-- One round of `merge_with`. -/
def mergeOne (state : MergedState Key) (new : MappedStoredEntry Key) : MergedState Key :=
  match state.valueByKey.lookup new.key with
  | some existing => state.maybeUpdate existing new
  | none =>
    match state.deletedKeys.lookup new.key with
    | some deleted =>
      { state with deletedKeys := state.deletedKeys.erase new.key }.maybeUpdate deleted new
    | none => { state with valueByKey := state.valueByKey.insert new.key new }

/-- `MergedState::merge_with`. -/
def mergeWith (state : MergedState Key) (entries : List (MappedStoredEntry Key)) :
    MergedState Key :=
  entries.foldl mergeOne state

/-- The state `begin_merge` builds from the segments it has read. -/
def ofSegments : List (List (MappedStoredEntry Key)) → MergedState Key
  | [] => new
  | first :: others => others.foldl mergeWith (new.takeAll first)

end MergedState

/-! ## The store -/

/-- `KVStore`. -/
structure KVStore (Key : Type) where
  segments : Segments
  keyDirectory : KeyDirectory Key
  mergeConfig : MergeConfig
  counter : ℕ

/-- The order a loop over merged entries takes. -/
abbrev ChangeOrder (Key : Type) := IterOrder (Sigma fun _ : Key => MappedStoredEntry Key)

namespace KVStore

variable (lib : KeyLib Key) (env : Env)

/-- A call on the segments. -/
def onSegments {α : Type} (x : Op Error Segments α) : Op Error (KVStore Key) α :=
  Op.zoom KVStore.segments (fun segments s => { s with segments }) x

/-- `KVStore::get`. -/
def get (s : KVStore Key) (key : Key) : Outcome Error (List UInt8) :=
  match s.keyDirectory.lookup key with
  | some entry => do
    let stored ← s.segments.read entry.fileId entry.offset entry.entryLength
    pure stored.value
  | none => Outcome.err .entryNotFound

/-- `KVStore::write_back`. -/
def writeBack (fileIds : List ℕ) (changes : List (Key × MappedStoredEntry Key)) :
    Op Error (KVStore Key) Unit := do
  let responses ← onSegments (Segments.writeBack lib env changes)
  Op.update fun s =>
    { s with
      keyDirectory := s.keyDirectory.bulkUpdate responses
      segments := s.segments.remove fileIds }

/-- The entries of the merged state, in the order they are iterated in. -/
def changesIn (order : ChangeOrder Key) (state : MergedState Key) :
    List (Key × MappedStoredEntry Key) :=
  (order.iter state.valueByKey.entries).map fun x => (x.1, x.2)

/-- The segments `begin_merge` reads. -/
def segmentsToMerge (order : SegmentOrder) (s : KVStore Key) :
    Outcome Error (List (ℕ × List (MappedStoredEntry Key))) :=
  if s.mergeConfig.shouldReadAllSegments then
    s.segments.readAllInactiveSegments lib order
  else s.segments.readInactiveSegments lib order s.mergeConfig.totalSegmentsToRead

/-- `KVStore::begin_merge`; a failed `write_back` is passed over. -/
def beginMerge (readOrder : SegmentOrder) (writeOrder : ChangeOrder Key) :
    Op Error (KVStore Key) Unit := do
  let read ← Op.ask (segmentsToMerge lib readOrder)
  if 2 ≤ read.length then
    let merged := MergedState.ofSegments (read.map Prod.snd)
    Op.attempt (writeBack lib env (read.map Prod.fst) (changesIn writeOrder merged))

/-- The merge that `put` starts with, when enough updates have been made since the last. -/
def mergeIfDue (readOrder : SegmentOrder) (writeOrder : ChangeOrder Key) :
    Op Error (KVStore Key) Unit := do
  let due ← Op.ask fun s => .ok (decide (s.mergeConfig.runMergeEvery.toNat ≤ s.counter))
  if due then
    beginMerge lib env readOrder writeOrder
    Op.update fun s => { s with counter := 0 }

/-- `KVStore::put`. -/
def put (readOrder : SegmentOrder) (writeOrder : ChangeOrder Key) (key : Key)
    (value : List UInt8) : Op Error (KVStore Key) Unit := do
  mergeIfDue lib env readOrder writeOrder
  let response ← onSegments (Segments.append lib env key value)
  Op.update fun s =>
    { s with
      keyDirectory := s.keyDirectory.insert key response
      counter := s.counter + 1 }

/-- `KVStore::update`. -/
def update (readOrder : SegmentOrder) (writeOrder : ChangeOrder Key) (key : Key)
    (value : List UInt8) : Op Error (KVStore Key) Unit :=
  put lib env readOrder writeOrder key value

/-- `KVStore::delete`. -/
def delete (key : Key) : Op Error (KVStore Key) Unit := do
  let _ ← onSegments (Segments.appendDeleted lib env key)
  Op.update fun s => { s with keyDirectory := s.keyDirectory.erase key }

/-- One round of `KVStore::reload`. -/
def reloadOne (s : KVStore Key) (x : Sigma fun _ : ℕ => Segment) : Outcome Error (KVStore Key) := do
  let entries ← x.2.readFull lib s.segments.world
  pure { s with keyDirectory := s.keyDirectory.reload x.1 entries }

/-- `KVStore::reload`. -/
def reload (order : SegmentOrder) (s : KVStore Key) : Outcome Error (KVStore Key) :=
  (order.iter s.segments.inactiveSegments.entries).foldlM (reloadOne lib) s

/-- `Segments::new`, over the directory of segments that are no longer in use. -/
def newSegments (maxSegmentSizeBytes : UInt64) : Op Error Segments Unit := do
  let active ← Segments.newSegment env
  Op.update fun s =>
    { s with activeSegment := active, inactiveSegments := ∅, maxSegmentSizeBytes }
  Segments.reload env

/-- `KVStore::new`, over the directory of a store that is no longer in use. -/
def new (config : Config) (order : SegmentOrder) : Op Error (KVStore Key) Unit := do
  onSegments (newSegments env config.maxSegmentSizeBytes)
  Op.update fun s =>
    { s with keyDirectory := ∅, mergeConfig := config.mergeConfig, counter := 0 }
  let s ← Op.ask (reload lib order)
  Op.update fun _ => s

/-- No store yet, only a directory. -/
def closed (w : World) : KVStore Key where
  segments := ⟨w, ⟨0, 0, 0, []⟩, ∅, 0⟩
  keyDirectory := ∅
  mergeConfig := .newWithAllSegmentsToRead
  counter := 0

end KVStore

end Bitspend.Kv
