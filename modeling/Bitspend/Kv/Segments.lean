import Bitspend.Kv.Entry
import Bitspend.Machinery.Disk
import Bitspend.Machinery.Op

/-!
# Kv/Segments — segment files and the set of segments

`store.rs`, `segment.rs`, `segments.rs`, `field_generator.rs`.  A segment is an open file with a write
cursor; the segments of a store are one that is written to and the inactive ones, by file id.  File ids
are readings of the monotonic clock, and opening a segment makes its file if there is none and starts
the cursor at zero.

What the outside answers is an `Env`: the clocks and the failures of the file system, one answer per
call, in the order of the calls.  `i64` offsets and `u64` file ids are natural numbers.
-/

namespace Bitspend.Kv

/-! ## The outside -/

/-- What the `i`-th call to the outside gives: the wall clock, the monotonic clock, and whether an
`open` or a `write` fails, a write after so many bytes. -/
structure Env where
  now : ℕ → UInt64
  monotonicNow : ℕ → ℕ
  fault : ℕ → Option ℕ

/-- A file name. -/
abbrev FileName := List Char

/-- What is noted of a run: a file id was taken, with whether a file of it was there already; bytes
were appended at an offset; a file was removed.  No code reads it. -/
inductive StoreEvent where
  | taken (fileName : FileName) (existed : Bool)
  | appended (fileName : FileName) (offset : ℕ) (bytes : List UInt8)
  | removed (fileName : FileName)
  deriving Repr, DecidableEq

/-- The directory of the store, how many calls were made, and what was noted. -/
structure World where
  disk : Disk FileName
  calls : ℕ
  events : List StoreEvent

namespace World

/-- A directory with nothing in it. -/
def empty : World := ⟨Disk.empty, 0, []⟩

/-- One more call, with the directory it left. -/
def after (w : World) (disk : Disk FileName) : World := { w with disk, calls := w.calls + 1 }

/-- One more note. -/
def note (w : World) (event : StoreEvent) : World := { w with events := w.events ++ [event] }

variable (w : World) (disk : Disk FileName) (event : StoreEvent)

@[simp] theorem after_disk : (w.after disk).disk = disk := rfl
@[simp] theorem after_calls : (w.after disk).calls = w.calls + 1 := rfl
@[simp] theorem after_events : (w.after disk).events = w.events := rfl
@[simp] theorem note_disk : (w.note event).disk = w.disk := rfl
@[simp] theorem note_calls : (w.note event).calls = w.calls := rfl
@[simp] theorem note_events : (w.note event).events = w.events ++ [event] := rfl

end World

/-! ## Stores -/

/-- `WasiStore`. -/
structure WasiStore where
  fileDescriptor : ℕ
  currentWriteOffset : ℕ
  fileName : FileName

namespace WasiStore

variable (env : Env)

/-- `Store::open`: the file is created if it is missing, never emptied. -/
def «open» (fileName : FileName) : Op Error World WasiStore := fun w =>
  match env.fault w.calls with
  | some _ => (Outcome.err .openFileError, w.after w.disk)
  | none =>
    let (node, disk) := w.disk.openFile fileName
    (.ok ⟨node, 0, fileName⟩, w.after disk)

/-- `Store::append`: the offset written at, and the store with its cursor behind the bytes. -/
def append (store : WasiStore) (bytes : List UInt8) : Op Error World (ℕ × WasiStore) := fun w =>
  let offset := store.currentWriteOffset
  match env.fault w.calls with
  | some n =>
    (Outcome.err .openFileError,
      w.after (w.disk.writeAt store.fileDescriptor offset (bytes.take n)))
  | none =>
    (.ok (offset, { store with currentWriteOffset := offset + bytes.length }),
      (w.after (w.disk.writeAt store.fileDescriptor offset bytes)).note
        (.appended store.fileName offset bytes))

/-- `Store::read`. -/
def read (store : WasiStore) (w : World) (offset : ℕ) (size : UInt32) : List UInt8 :=
  ((w.disk.content store.fileDescriptor).drop offset).take size.toNat

/-- `Store::read_full`. -/
def readFull (store : WasiStore) (w : World) : List UInt8 := w.disk.content store.fileDescriptor

/-- `Store::get_files`. -/
def getFiles (w : World) : List FileName := w.disk.names.keys

/-- `Store::remove`. -/
def remove (store : WasiStore) (w : World) : World :=
  { w with disk := w.disk.unlink store.fileName }.note (.removed store.fileName)

end WasiStore

/-! ## Segments -/

def SEGMENT_FILE_PREFIX : FileName := ['b', 'i', 't', 'c', 'a', 's', 'k']
def SEGMENT_FILE_SUFFIX : FileName := ['d', 'a', 't', 'a']

/-- `segment_name`. -/
def segmentName (fileId : ℕ) : FileName :=
  Nat.toDigits 10 fileId ++ '_' :: SEGMENT_FILE_PREFIX ++ '.' :: SEGMENT_FILE_SUFFIX

/-- `str::parse::<u64>`, without the bound of a `u64`: the readings of the clock that number the files
are natural numbers here. -/
def parseU64 (s : List Char) : Option ℕ :=
  let digits := match s with
    | '+' :: s => s
    | s => s
  if digits ≠ [] ∧ digits.all Char.isDigit then some (Nat.ofDigitChars 10 digits 0) else none

/-- `AppendEntryResponse`, which is also what the key directory keeps of an entry. -/
structure AppendEntryResponse where
  fileId : ℕ
  offset : ℕ
  entryLength : UInt32
  deriving Repr, DecidableEq

/-- `Segment`. -/
structure Segment where
  fileId : ℕ
  store : WasiStore

/-- The segments of a store and the directory they lie in; the generator of file ids is the monotonic
clock. -/
structure Segments where
  world : World
  activeSegment : Segment
  inactiveSegments : HashMap ℕ Segment
  maxSegmentSizeBytes : UInt64

/-- The order a loop over the inactive segments takes. -/
abbrev SegmentOrder := IterOrder (Sigma fun _ : ℕ => Segment)

namespace Segment

variable {Key : Type} (lib : KeyLib Key) (env : Env)

/-- `Segment::new`. -/
def new (fileId : ℕ) : Op Error World Segment := do
  let store ← WasiStore.open env (segmentName fileId)
  pure ⟨fileId, store⟩

/-- `Segment::append`: the response, and the segment with its cursor moved. -/
def append (segment : Segment) (entry : Entry Key) :
    Op Error World (AppendEntryResponse × Segment) := do
  let encoded ← Op.ask fun w => .ok (lib.encode (env.now w.calls) entry)
  let (offset, store) ← segment.store.append env encoded
  pure (⟨segment.fileId, offset, UInt32.ofNat encoded.length⟩, { segment with store })

/-- `Segment::read`. -/
def read (segment : Segment) (w : World) (offset : ℕ) (size : UInt32) : Outcome Error StoredEntry :=
  decode (segment.store.read w offset size)

/-- `Segment::read_full`. -/
def readFull (segment : Segment) (w : World) : Outcome Error (List (MappedStoredEntry Key)) :=
  lib.decodeMulti (segment.store.readFull w)

end Segment

namespace Segments

variable {Key : Type} (lib : KeyLib Key) (env : Env)

/-- A call on the directory. -/
def onWorld {α : Type} (x : Op Error World α) : Op Error Segments α :=
  Op.zoom Segments.world (fun w s => { s with world := w }) x

/-- `TimestampBasedFileIdGenerator::next`. -/
def nextFileId : Op Error World ℕ := fun w =>
  let fileId := env.monotonicNow w.calls
  (.ok fileId, (w.after w.disk).note
    (.taken (segmentName fileId) (w.disk.names.lookup (segmentName fileId)).isSome))

/-- A segment of its own, under the next file id. -/
def newSegment : Op Error Segments Segment := onWorld do
  let fileId ← nextFileId env
  Segment.new env fileId

/-- `inactive_segments.insert(segment.file_id, segment)`. -/
def addInactive (segment : Segment) : Op Error Segments Unit :=
  Op.update fun s =>
    { s with inactiveSegments := s.inactiveSegments.insert segment.fileId segment }

/-- `maybe_rollover_segment`; the limit is cast to `i64`. -/
def maybeRolloverSegment (segment : Segment) : Op Error Segments (Option Segment) := do
  let full ← Op.ask fun s =>
    .ok (decide (s.maxSegmentSizeBytes.toInt64.toInt ≤ (segment.store.currentWriteOffset : ℤ)))
  if full then
    let newSegment ← newSegment env
    pure (some newSegment)
  else pure none

/-- `maybe_rollover_active_segment`. -/
def maybeRolloverActiveSegment : Op Error Segments Unit := do
  let active ← Op.ask fun s => .ok s.activeSegment
  match ← maybeRolloverSegment env active with
  | some newSegment => do
    addInactive active
    Op.update fun s => { s with activeSegment := newSegment }
  | none => pure ()

/-- An append to the active segment, after a rollover if it is full. -/
def appendEntry (entry : Entry Key) : Op Error Segments AppendEntryResponse := do
  maybeRolloverActiveSegment env
  let active ← Op.ask fun s => .ok s.activeSegment
  let (response, segment) ← onWorld (active.append lib env entry)
  Op.update fun s => { s with activeSegment := segment }
  pure response

/-- `Segments::append`. -/
def append (key : Key) (value : List UInt8) : Op Error Segments AppendEntryResponse :=
  appendEntry lib env (Entry.new key value)

/-- `Segments::append_deleted`. -/
def appendDeleted (key : Key) : Op Error Segments AppendEntryResponse :=
  appendEntry lib env (Entry.newDeletedEntry key)

/-- The segment that holds a file id. -/
def segment? (s : Segments) (fileId : ℕ) : Option Segment :=
  if fileId = s.activeSegment.fileId then some s.activeSegment else s.inactiveSegments.lookup fileId

/-- `Segments::read`. -/
def read (s : Segments) (fileId offset : ℕ) (size : UInt32) : Outcome Error StoredEntry := do
  let segment ← Outcome.okOr (.fileNotFound fileId) (s.segment? fileId)
  segment.read s.world offset size

/-- One round of `read_inactive_segments`. -/
def readSegment (w : World) (x : Sigma fun _ : ℕ => Segment) :
    Outcome Error (ℕ × List (MappedStoredEntry Key)) := do
  let entries ← x.2.readFull lib w
  pure (x.1, entries)

/-- `Segments::read_inactive_segments`: file ids with their entries. -/
def readInactiveSegments (order : SegmentOrder) (totalSegments : ℕ) (s : Segments) :
    Outcome Error (List (ℕ × List (MappedStoredEntry Key))) :=
  ((order.iter s.inactiveSegments.entries).take totalSegments).mapM (readSegment lib s.world)

/-- `Segments::read_all_inactive_segments`. -/
def readAllInactiveSegments (order : SegmentOrder) (s : Segments) :
    Outcome Error (List (ℕ × List (MappedStoredEntry Key))) :=
  readInactiveSegments lib order s.inactiveSegments.entries.length s

/-- The segment the loop of `write_back` goes on in: the same, or a new one if it is full. -/
def rolloverInactive (segment : Segment) : Op Error Segments Segment := do
  match ← maybeRolloverSegment env segment with
  | some newSegment => do
    addInactive newSegment
    pure newSegment
  | none => pure segment

/-- The loop of `write_back`, from the segment written to. -/
def writeBackTo : Segment → List (Key × MappedStoredEntry Key) →
    Op Error Segments (List (Key × AppendEntryResponse))
  | _, [] => pure []
  | segment, (key, value) :: changes => do
    let (response, segment) ← onWorld (segment.append lib env
      (Entry.newPreservingTimestamp key value.value value.timestamp))
    let segment ← rolloverInactive env segment
    let responses ← writeBackTo segment changes
    pure ((key, response) :: responses)

/-- `Segments::write_back`, with the changes in the order they are iterated in. -/
def writeBack (changes : List (Key × MappedStoredEntry Key)) :
    Op Error Segments (List (Key × AppendEntryResponse)) := do
  let segment ← newSegment env
  addInactive segment
  writeBackTo lib env segment changes

/-- One round of `Segments::remove`. -/
def removeOne (s : Segments) (fileId : ℕ) : Segments :=
  match s.inactiveSegments.lookup fileId with
  | some segment =>
    { s with
      inactiveSegments := s.inactiveSegments.erase fileId
      world := segment.store.remove s.world }
  | none => s

/-- `Segments::remove`. -/
def remove (s : Segments) (fileIds : List ℕ) : Segments := fileIds.foldl removeOne s

/-- One round of `Segments::reload`: the names that are not segment names are passed over. -/
def reloadOne (name : FileName) : Op Error Segments Unit := do
  if (SEGMENT_FILE_PREFIX ++ '.' :: SEGMENT_FILE_SUFFIX).isSuffixOf name then
    let fileId ← Op.lift (Outcome.okOr .parseError (parseU64 (name.takeWhile (· ≠ '_'))))
    let active ← Op.ask fun s => .ok s.activeSegment.fileId
    if fileId ≠ active then
      let segment ← onWorld (Segment.new env fileId)
      addInactive segment

/-- `Segments::reload`. -/
def reload : Op Error Segments Unit := do
  let files ← Op.ask fun s => .ok (WasiStore.getFiles s.world)
  ForM.forM files (reloadOne env)

end Segments

end Bitspend.Kv
