import Bitspend.Kv.Rewrite

/-!
# Kv/Runs — sessions over one directory

A run is a first session over an empty directory, and then updates, deletes and further sessions, each
with a configuration of its own, in any order; merges come with the updates.  Beside the store it keeps
the map a reader would expect: the last value written under a key and not deleted since.

`KVStore.Tidy` is what every run keeps: the segment files hold logs, and the key directory names file
ids that were handed out.
-/

namespace Bitspend.Kv

variable {Key : Type} {lib : KeyLib Key} {env : Env} {log : ℕ → List (Entry Key)}

/-! ## Opening a directory again -/

namespace Segments

variable {s : Segments}

/-- The segment a file is reopened as. -/
def reopened (fileId node : ℕ) : Segment := ⟨fileId, node, 0, segmentName fileId⟩

theorem reloadOne_segmentName (env : Env) (s : Segments) (fileId : ℕ) :
    reloadOne env (segmentName fileId) s
      = (if fileId ≠ s.activeSegment.fileId then do
          let segment ← onWorld (Segment.new env fileId)
          addInactive segment
        else pure ()) s := by
  rw [reloadOne, if_pos (isSuffixOf_segmentName fileId), parseU64_segmentName]
  rfl

theorem reloadOne_active (env : Env) (s : Segments) :
    reloadOne env (segmentName s.activeSegment.fileId) s = (.ok (), s) := by
  rw [reloadOne_segmentName, if_neg (not_not.mpr rfl)]
  rfl

/-- Any other file is opened, unless that fails. -/
theorem reloadOne_cases (env : Env) {fileId node : ℕ} (hne : fileId ≠ s.activeSegment.fileId)
    (hnode : s.world.disk.names.lookup (segmentName fileId) = some node) :
    reloadOne env (segmentName fileId) s
        = (.ok (), { s with
          world := s.world.after s.world.disk
          inactiveSegments := s.inactiveSegments.insert fileId (reopened fileId node) })
      ∨ env.fault s.world.calls ≠ none
        ∧ ∃ e, reloadOne env (segmentName fileId) s
          = (.error e, { s with world := s.world.after s.world.disk }) := by
  rw [reloadOne_segmentName, if_pos hne, Op.bind_apply, onWorld, Op.zoom, Segment.new, Op.bind_apply,
    WasiStore.open]
  rcases hfault : env.fault s.world.calls with _ | n
  · left
    simp only [Disk.openFile_of_some hnode]
    rfl
  · exact .inr ⟨Option.some_ne_none n, _, rfl⟩

theorem reloadOne_inactive (henv : env.Behaves) {fileId node : ℕ}
    (hne : fileId ≠ s.activeSegment.fileId)
    (hnode : s.world.disk.names.lookup (segmentName fileId) = some node) :
    reloadOne env (segmentName fileId) s
      = (.ok (), { s with
          world := s.world.after s.world.disk
          inactiveSegments := s.inactiveSegments.insert fileId (reopened fileId node) }) :=
  (reloadOne_cases env hne hnode).resolve_right fun hfails => hfails.1 (henv.complete _)

/-- **The loop of `reload`** makes an inactive segment of every file but the active one, and touches no
file. -/
theorem reload_rounds (henv : env.Behaves) {files : List FileName} {s : Segments}
    (hfiles : ∀ name ∈ files, ∃ fileId node, name = segmentName fileId
      ∧ s.world.disk.names.lookup name = some node) :
    ∃ s', (ForM.forM files (reloadOne env) : Op Error Segments PUnit) s = (.ok (), s')
      ∧ s'.world.disk = s.world.disk ∧ s.world.calls ≤ s'.world.calls
      ∧ s'.activeSegment = s.activeSegment
      ∧ ∀ fileId, s'.inactiveSegments.lookup fileId
        = if segmentName fileId ∈ files ∧ fileId ≠ s.activeSegment.fileId then
            (s.world.disk.names.lookup (segmentName fileId)).map (reopened fileId)
          else s.inactiveSegments.lookup fileId := by
  induction files generalizing s with
  | nil => exact ⟨s, rfl, rfl, le_rfl, rfl, by simp⟩
  | cons name files ih =>
    obtain ⟨fileId, node, rfl, hnode⟩ := hfiles name List.mem_cons_self
    have hrest := fun name hname => hfiles name (List.mem_cons_of_mem _ hname)
    by_cases hact : fileId = s.activeSegment.fileId
    · obtain ⟨s', hrun, hdisk, hcalls, hactive, hlook⟩ := ih hrest
      refine ⟨s', ?_, hdisk, hcalls, hactive, fun id => ?_⟩
      · rw [List.forM_cons, Op.bind_apply, hact, reloadOne_active]
        exact hrun
      · rw [hlook]
        by_cases hid : id = fileId
        · simp [hid, hact]
        · have : segmentName id ≠ segmentName fileId := fun h => hid (segmentName_injective h)
          simp [this]
    · obtain ⟨s', hrun, hdisk, hcalls, hactive, hlook⟩ := @ih
        { s with
          world := s.world.after s.world.disk
          inactiveSegments := s.inactiveSegments.insert fileId (reopened fileId node) } hrest
      refine ⟨s', ?_, hdisk, (Nat.le_succ _).trans hcalls, hactive, fun id => ?_⟩
      · rw [List.forM_cons, Op.bind_apply, reloadOne_inactive henv hact hnode]
        exact hrun
      · rw [hlook]
        by_cases hid : id = fileId
        · subst hid
          simp [hact, hnode]
        · have : segmentName id ≠ segmentName fileId := fun h => hid (segmentName_injective h)
          simp [this, hid]

end Segments

namespace KVStore

open Segments

/-- **`Segments::new` over a directory of logs** returns: the active segment is new, and the others are
the files that were there. -/
theorem exists_newSegments (henv : env.Behaves) {s : Segments} (h : s.world.Holds lib env log)
    (maxSegmentSizeBytes : UInt64) :
    ∃ s', newSegments env maxSegmentSizeBytes s = (.ok (), s')
      ∧ s'.world.disk = (s.world.grown env).disk ∧ (s.world.grown env).calls ≤ s'.world.calls
      ∧ s'.activeSegment = fresh env s.world
      ∧ ∀ fileId, s'.inactiveSegments.lookup fileId
        = if fileId = env.monotonicNow s.world.calls then none
          else ((s.world.grown env).disk.names.lookup (segmentName fileId)).map
            (reopened fileId) := by
  have hfiles : ∀ name ∈ WasiStore.getFiles (s.world.grown env), ∃ fileId node,
      name = segmentName fileId ∧ (s.world.grown env).disk.names.lookup name = some node := by
    intro name hname
    obtain ⟨node, hnode⟩ := Option.isSome_iff_exists.mp
      (AList.lookup_isSome.mpr (AList.mem_keys.mpr hname))
    obtain ⟨i, -, hi⟩ := (h.create henv).named hnode
    exact ⟨_, node, hi, hnode⟩
  obtain ⟨s', hrun, hdisk, hcalls, hactive, hlook⟩ := @reload_rounds env henv _
    { s with
      world := s.world.grown env
      activeSegment := fresh env s.world
      inactiveSegments := ∅
      maxSegmentSizeBytes } hfiles
  refine ⟨s', ?_, hdisk, hcalls, hactive, fun fileId => ?_⟩
  · rw [newSegments, Op.bind_apply, newSegment_eq henv h]
    exact hrun
  · rw [hlook]
    by_cases hid : fileId = env.monotonicNow s.world.calls
    · rw [if_pos hid, if_neg fun hc => hc.2 hid]
      rfl
    · rw [if_neg hid]
      by_cases hmem : segmentName fileId ∈ WasiStore.getFiles (s.world.grown env)
      · rw [if_pos ⟨hmem, hid⟩]
      · rw [if_neg fun hc => hmem hc.1, AList.lookup_eq_none.mpr hmem]
        rfl

/-- …so **the files are the segments again**, the active one is new, and the logs are what they
were. -/
theorem newSegments_ok (henv : env.Behaves) {s : Segments} (h : s.world.Holds lib env log)
    (maxSegmentSizeBytes : UInt64) :
    ∃ s', newSegments env maxSegmentSizeBytes s = (.ok (), s') ∧ s'.Holds lib env log
      ∧ s'.activeSegment.fileId = env.monotonicNow s.world.calls
      ∧ s.world.calls ≤ s'.world.calls
      ∧ s'.world.disk = (s.world.grown env).disk := by
  have hgrown := h.create henv
  obtain ⟨s', hrun, hdisk, hcalls, hactive, hlookup⟩ :=
    exists_newSegments henv h maxSegmentSizeBytes
  have hsegment : ∀ fileId, s'.segment? fileId
      = if fileId = env.monotonicNow s.world.calls then some (fresh env s.world)
        else ((s.world.grown env).disk.names.lookup (segmentName fileId)).map
          (reopened fileId) := by
    intro fileId
    rw [segment?, hactive, hlookup]
    split_ifs with h₁ h₂ h₂
    · rfl
    · exact absurd h₁ h₂
    · exact absurd h₂ h₁
    · rfl
  refine ⟨s', hrun, ⟨⟨?_, ?_⟩, ?_, ?_, ?_, ?_⟩, ?_, ?_, hdisk⟩
  · intro name node hn
    rw [hdisk] at hn
    obtain ⟨i, hi, hname⟩ := hgrown.named hn
    exact ⟨i, hi.trans_le hcalls, hname⟩
  · intro fileId
    rw [hdisk]
    exact hgrown.file fileId
  · intro fileId
    rw [hsegment, hdisk]
    by_cases hid : fileId = env.monotonicNow s.world.calls
    · rw [if_pos hid, hid]
      exact Disk.lookup_create.symm
    · rw [if_neg hid, Option.map_map]
      exact Option.map_id'
  · intro fileId g hg
    rw [hsegment] at hg
    by_cases hid : fileId = env.monotonicNow s.world.calls
    · rw [if_pos hid, Option.some.injEq] at hg
      subst hg hid
      exact ⟨rfl, rfl⟩
    · rw [if_neg hid, Option.map_eq_some_iff] at hg
      obtain ⟨node, -, rfl⟩ := hg
      exact ⟨rfl, rfl⟩
  · rw [hactive, hlookup]
    exact if_pos rfl
  · rw [hactive]
    change 0 = (lib.file (log (env.monotonicNow s.world.calls))).length
    rw [h.log_of_none (h.lookup_of_le henv le_rfl)]
    rfl
  · rw [hactive]
    rfl
  · exact (Nat.le_add_right _ 2).trans hcalls

/-! ## Writing -/

variable {s : KVStore Key}

/-- A file with a record in it was handed out. -/
theorem drawn_of_stands {segments : Segments} (h : segments.Holds lib env log)
    {r : AppendEntryResponse} {e : Entry Key} (hst : Stands lib log r e) :
    ∃ i < segments.world.calls, env.monotonicNow i = r.fileId := by
  rcases hlook : segments.world.disk.names.lookup (segmentName r.fileId) with _ | node
  · obtain ⟨l, l', hl, -⟩ := hst
    rw [h.world.log_of_none hlook] at hl
    simp at hl
  · obtain ⟨i, hi, hname⟩ := h.world.named hlook
    exact ⟨i, hi, (segmentName_injective hname).symm⟩

theorem onSegments_of_ok {α : Type} {x : Op Error Segments α} {a : α} {segments : Segments}
    (h : x s.segments = (.ok a, segments)) : onSegments x s = (.ok a, { s with segments }) :=
  Op.zoom_eq_ok.mpr ⟨segments, h, rfl⟩

/-- **`put`, after its merge**: a record of the key stands where the directory then points, and nothing
is lost. -/
theorem append_ok (henv : env.Behaves) (h : s.segments.Holds lib env log) (key : Key)
    (value : List UInt8) :
    ∃ segments r log' ts, onSegments (Segments.append lib env key value) s
        = (.ok r, { s with segments })
      ∧ Segments.Holds lib env segments log' ∧ (segments.segment? r.fileId).isSome
      ∧ Stands lib log' r ⟨key, value, 0, ts⟩ ∧ Grows s.segments log segments log' := by
  obtain ⟨segments, r, log', ts, hrun, h', hr, hst, hgrow⟩ :=
    appendEntry_ok henv h (Entry.new key value)
  exact ⟨segments, r, log', _, onSegments_of_ok hrun, h', hr, hst, hgrow⟩

theorem appendDeleted_ok (henv : env.Behaves) (h : s.segments.Holds lib env log) (key : Key) :
    ∃ segments r log', onSegments (Segments.appendDeleted lib env key) s = (.ok r, { s with segments })
      ∧ Segments.Holds lib env segments log' ∧ Grows s.segments log segments log' := by
  obtain ⟨segments, r, log', ts, hrun, h', -, -, hgrow⟩ :=
    appendEntry_ok henv h (Entry.newDeletedEntry key)
  exact ⟨segments, r, log', onSegments_of_ok hrun, h', hgrow⟩

variable [DecidableEq Key]

theorem get_of_none {s : KVStore Key} {key : Key} (h : s.keyDirectory.lookup key = none) :
    s.get key = Outcome.err .entryNotFound := by
  rw [get, h]

theorem get_of_some {s : KVStore Key} {key : Key} {r : AppendEntryResponse}
    (h : s.keyDirectory.lookup key = some r) :
    s.get key = s.segments.read r.fileId r.offset r.entryLength >>= fun stored =>
      pure stored.value := by
  rw [get, h]

/-- **`get` gives the value of the record the directory points at.** -/
theorem get_of_stands {s : KVStore Key} (h : s.segments.Holds lib env log) {key : Key}
    {r : AppendEntryResponse} (hr : s.keyDirectory.lookup key = some r)
    (hpresent : (s.segments.segment? r.fileId).isSome) {e : Entry Key} (hst : Stands lib log r e)
    (hlt : (lib.bytes e).length < 2 ^ 32) : s.get key = .ok e.value := by
  rw [get_of_some hr, hst.read h hpresent hlt]
  rfl

/-- **`put` is its merge, and then a record in the log and in the directory.** -/
theorem put_ok (henv : env.Behaves) {readOrder : SegmentOrder} {writeOrder : ChangeOrder Key}
    {s s₁ : KVStore Key} (hmerge : mergeIfDue lib env readOrder writeOrder s = (.ok (), s₁))
    (h : s₁.segments.Holds lib env log) (key : Key) (value : List UInt8) :
    ∃ segments r log' ts, put lib env readOrder writeOrder key value s
        = (.ok (), { s₁ with
            segments
            keyDirectory := s₁.keyDirectory.insert key r
            counter := s₁.counter + 1 })
      ∧ Segments.Holds lib env segments log' ∧ (segments.segment? r.fileId).isSome
      ∧ Stands lib log' r ⟨key, value, 0, ts⟩ ∧ Grows s₁.segments log segments log' := by
  obtain ⟨segments, r, log', ts, hrun, h', hr, hst, hgrow⟩ := append_ok henv h key value
  refine ⟨segments, r, log', ts, ?_, h', hr, hst, hgrow⟩
  rw [put, Op.bind_apply, hmerge]
  exact Op.bind_eq_ok.mpr ⟨r, _, hrun, rfl⟩

/-- **`delete` writes a tombstone and takes the key out of the directory.** -/
theorem delete_ok (henv : env.Behaves) {s : KVStore Key} (h : s.segments.Holds lib env log)
    (key : Key) :
    ∃ segments log', delete lib env key s
        = (.ok (), { s with segments, keyDirectory := s.keyDirectory.erase key })
      ∧ Segments.Holds lib env segments log' ∧ Grows s.segments log segments log' := by
  obtain ⟨segments, r, log', hrun, h', hgrow⟩ := appendDeleted_ok henv h key
  refine ⟨segments, log', ?_, h', hgrow⟩
  rw [delete, Op.bind_apply, hrun]
  rfl

/-! ## What every operation keeps -/

/-- **The files hold logs, and the key directory names file ids that were handed out.** -/
structure Tidy (lib : KeyLib Key) (env : Env) (s : KVStore Key) (log : ℕ → List (Entry Key)) :
    Prop where
  holds : s.segments.Holds lib env log
  drawn : ∀ {key r}, s.keyDirectory.lookup key = some r →
    ∃ i < s.segments.world.calls, env.monotonicNow i = r.fileId

variable {s : KVStore Key}

/-- A file id the directory names is not handed out again. -/
theorem Tidy.ne_fresh (h : s.Tidy lib env log) (henv : env.Behaves) {key : Key}
    {r : AppendEntryResponse} (hr : s.keyDirectory.lookup key = some r) {i : ℕ}
    (hi : s.segments.world.calls ≤ i) : r.fileId ≠ env.monotonicNow i := by
  obtain ⟨j, hj, hid⟩ := h.drawn hr
  intro heq
  have := henv.distinct (hid.trans heq)
  omega

/-! ## Merging -/

section Merging

variable {Key : Type} {lib : KeyLib Key} {env : Env} {log : ℕ → List (Entry Key)}
  {s : KVStore Key} {order : SegmentOrder}

/-- The inactive segments a merge reads, in the order it reads them. -/
def mergeInputs (order : SegmentOrder) (s : KVStore Key) : List (Sigma fun _ : ℕ => Segment) :=
  (order.iter s.segments.inactiveSegments.entries).take
    (if s.mergeConfig.shouldReadAllSegments then s.segments.inactiveSegments.entries.length
      else s.mergeConfig.totalSegmentsToRead)

/-- The file ids it reads. -/
def mergedIds (order : SegmentOrder) (s : KVStore Key) : List ℕ :=
  (mergeInputs order s).map Sigma.fst

theorem segmentsToMerge_eq (order : SegmentOrder) (s : KVStore Key) :
    segmentsToMerge lib order s
      = (mergeInputs order s).mapM (readSegment lib s.segments.world) := by
  rw [segmentsToMerge, mergeInputs]
  split <;> rfl

theorem lookup_of_mem_mergeInputs {x : Sigma fun _ : ℕ => Segment}
    (hx : x ∈ mergeInputs order s) : s.segments.inactiveSegments.lookup x.1 = some x.2 :=
  AList.mem_lookup_iff.mpr (order.mem_iter.mp (List.mem_of_mem_take hx))

/-- The files a merge reads are there, and none is the active one. -/
theorem present_of_mem_mergedIds (h : s.segments.Holds lib env log) {fileId : ℕ}
    (hid : fileId ∈ mergedIds order s) :
    (s.segments.segment? fileId).isSome ∧ fileId ≠ s.segments.activeSegment.fileId := by
  obtain ⟨x, hx, rfl⟩ := List.mem_map.mp hid
  have hg := lookup_of_mem_mergeInputs hx
  exact ⟨Option.isSome_iff_exists.mpr ⟨_, h.segment?_of_inactive hg⟩,
    ne_active_of_inactive h.apart hg⟩

/-- What is read has the ids of the segments it was read from. -/
theorem map_fst_of_segmentsToMerge {read : List (ℕ × List (MappedStoredEntry Key))}
    (h : segmentsToMerge lib order s = .ok read) :
    read.map Prod.fst = mergedIds order s := by
  rw [segmentsToMerge_eq] at h
  have hall : List.Forall₂ Eq (mergedIds order s) (read.map Prod.fst) := by
    refine List.forall₂_map_left_iff.mpr (List.forall₂_map_right_iff.mpr
      ((Outcome.forall₂_of_mapM_eq_ok h).imp fun x y hxy => ?_))
    obtain ⟨entries, -, hy⟩ := Outcome.bind_eq_ok.mp hxy
    cases hy
    rfl
  rw [List.forall₂_eq_eq_eq] at hall
  exact hall.symm

end Merging

/-- **A merge that rewrites** writes what it keeps beside what is there, points the directory at it and
removes what it read. -/
theorem beginMerge_ok (henv : env.Behaves) (h : s.segments.Holds lib env log)
    {readOrder : SegmentOrder} (writeOrder : ChangeOrder Key)
    {read : List (ℕ × List (MappedStoredEntry Key))}
    (hread : segmentsToMerge lib readOrder s = .ok read) (hlen : 2 ≤ read.length) :
    ∃ responses segments log', beginMerge lib env readOrder writeOrder s
        = (.ok (), { s with
            keyDirectory := s.keyDirectory.bulkUpdate responses
            segments := segments.remove (mergedIds readOrder s) })
      ∧ Segments.Holds lib env segments log' ∧ Beside env s.segments log segments log'
      ∧ List.Forall₂ (Answers lib s.segments log')
        (changesIn writeOrder (MergedState.ofSegments (read.map Prod.snd))) responses := by
  obtain ⟨segments, responses, log', hrun, h', hb, hall⟩ := writeBack_ok henv h
    (changesIn writeOrder (MergedState.ofSegments (read.map Prod.snd)))
  refine ⟨responses, segments, log', ?_, h', hb, hall⟩
  rw [beginMerge, Op.ask_bind_of_ok hread, if_pos hlen, ← map_fst_of_segmentsToMerge hread]
  refine Op.attempt_of_ok (a := ()) ?_
  rw [writeBack, Op.bind_apply, onSegments_of_ok hrun]
  rfl

theorem beginMerge_of_lt {readOrder : SegmentOrder} {writeOrder : ChangeOrder Key}
    {read : List (ℕ × List (MappedStoredEntry Key))}
    (hread : segmentsToMerge lib readOrder s = .ok read) (hlen : read.length < 2) :
    beginMerge lib env readOrder writeOrder s = (.ok (), s) := by
  rw [beginMerge, Op.ask_bind_of_ok hread, if_neg (by omega)]
  rfl

/-- A merge that returns has read its segments. -/
theorem exists_read_of_beginMerge {readOrder : SegmentOrder} {writeOrder : ChangeOrder Key}
    {s' : KVStore Key} (h : beginMerge lib env readOrder writeOrder s = (.ok (), s')) :
    ∃ read, segmentsToMerge lib readOrder s = .ok read := by
  obtain ⟨read, s₁, hask, -⟩ := Op.bind_eq_ok.mp h
  exact ⟨read, (Op.ask_eq_ok.mp hask).1⟩

/-- An entry of the directory after a merge is one a response gave, or one that was there. -/
theorem mem_of_lookup_bulkUpdate {directory : KeyDirectory Key}
    {responses : List (Key × AppendEntryResponse)} {key : Key} {r : AppendEntryResponse}
    (h : (directory.bulkUpdate responses).lookup key = some r) :
    (key, r) ∈ responses ∨ directory.lookup key = some r := by
  rw [KeyDirectory.bulkUpdate, HashMap.lookup_insertAll] at h
  rcases hlast : HashMap.last Prod.fst key responses with _ | x
  · rw [hlast] at h
    exact .inr h
  · rw [hlast] at h
    obtain ⟨hmem, rfl⟩ := HashMap.key_of_last hlast
    obtain rfl : x.2 = r := Option.some.inj h
    exact .inl hmem

theorem Tidy.beginMerge (henv : env.Behaves) (h : s.Tidy lib env log) {readOrder : SegmentOrder}
    {writeOrder : ChangeOrder Key} {s' : KVStore Key}
    (hrun : beginMerge lib env readOrder writeOrder s = (.ok (), s')) :
    ∃ log', s'.Tidy lib env log' := by
  obtain ⟨read, hread⟩ := exists_read_of_beginMerge hrun
  by_cases hlen : 2 ≤ read.length
  · obtain ⟨responses, segments, log₁, hrun', h₁, hb, hall⟩ :=
      beginMerge_ok henv h.holds writeOrder hread hlen
    obtain rfl := congrArg Prod.snd (hrun.symm.trans hrun')
    obtain ⟨log', h', -, -, hcalls⟩ := h₁.remove (mergedIds readOrder s)
    refine ⟨log', h', fun {key r} hr => ?_⟩
    change ∃ i < (segments.remove _).world.calls, _
    rw [hcalls]
    rcases mem_of_lookup_bulkUpdate hr with hmem | hold
    · obtain ⟨change, -, -, -, ts, hst⟩ := Outcome.exists_left_of_forall₂ hall hmem
      exact drawn_of_stands h₁ hst
    · obtain ⟨i, hi, hid⟩ := h.drawn hold
      exact ⟨i, hi.trans_le hb.calls, hid⟩
  · rw [beginMerge_of_lt hread (by omega)] at hrun
    obtain rfl := congrArg Prod.snd hrun
    exact ⟨log, h⟩

theorem Tidy.mergeIfDue (henv : env.Behaves) (h : s.Tidy lib env log) {readOrder : SegmentOrder}
    {writeOrder : ChangeOrder Key} {s' : KVStore Key}
    (hrun : mergeIfDue lib env readOrder writeOrder s = (.ok (), s')) :
    ∃ log', s'.Tidy lib env log' := by
  rw [KVStore.mergeIfDue, Op.ask_ok_bind] at hrun
  split at hrun
  · obtain ⟨_, s₁, hmerge, hset⟩ := Op.bind_eq_ok.mp hrun
    obtain rfl := Op.update_eq_ok.mp hset
    obtain ⟨log', h'⟩ := h.beginMerge henv hmerge
    exact ⟨log', h'.holds, h'.drawn⟩
  · obtain ⟨-, rfl⟩ := Op.pure_eq_ok.mp hrun
    exact ⟨log, h⟩

/-- Writing keeps a store tidy, whatever it does to the directory with what it has written. -/
theorem Tidy.insert (h : s.Tidy lib env log) {segments : Segments} {log' : ℕ → List (Entry Key)}
    (h' : Segments.Holds lib env segments log') (hgrow : Grows s.segments log segments log')
    {key : Key} {r : AppendEntryResponse} {e : Entry Key} (hst : Stands lib log' r e) (n : ℕ) :
    Tidy lib env
      { s with segments, keyDirectory := s.keyDirectory.insert key r, counter := n } log' where
  holds := h'
  drawn {key' r'} hr := by
    by_cases hkey : key' = key
    · subst hkey
      obtain rfl := Option.some.inj ((AList.lookup_insert _).symm.trans hr)
      exact drawn_of_stands h' hst
    · obtain ⟨i, hi, hid⟩ := h.drawn ((AList.lookup_insert_ne hkey).symm.trans hr)
      exact ⟨i, hi.trans_le hgrow.calls, hid⟩

theorem Tidy.erase (h : s.Tidy lib env log) {segments : Segments} {log' : ℕ → List (Entry Key)}
    (h' : Segments.Holds lib env segments log') (hgrow : Grows s.segments log segments log')
    (key : Key) :
    Tidy lib env { s with segments, keyDirectory := s.keyDirectory.erase key } log' where
  holds := h'
  drawn {key' r'} hr := by
    have hkey : key' ≠ key := by
      rintro rfl
      have := (AList.lookup_erase _ _).symm.trans hr
      cases this
    obtain ⟨i, hi, hid⟩ := h.drawn ((AList.lookup_erase_ne hkey).symm.trans hr)
    exact ⟨i, hi.trans_le hgrow.calls, hid⟩

/-! ## Reloading the directory -/

/-- The records of the segments that were read, one after another, each with the id of its file. -/
def records (read : List (ℕ × List (MappedStoredEntry Key))) : List (ℕ × MappedStoredEntry Key) :=
  read.flatMap fun y => y.2.map fun entry => (y.1, entry)

/-- Where the directory puts a record. -/
def pointer (x : ℕ × MappedStoredEntry Key) : AppendEntryResponse :=
  ⟨x.1, x.2.keyOffset.toNat, x.2.entryLength⟩

theorem reload_eq_insertAll (directory : KeyDirectory Key) (fileId : ℕ)
    (entries : List (MappedStoredEntry Key)) :
    directory.reload fileId entries
      = HashMap.insertAll (fun x => x.2.key) pointer directory
        (entries.map fun entry => (fileId, entry)) := by
  rw [KeyDirectory.reload, HashMap.insertAll, HashMap.insertAll, List.foldl_map]
  rfl

/-- **Reloading reads every segment, then inserts every record.** -/
theorem foldlM_reloadOne (xs : List (Sigma fun _ : ℕ => Segment)) (s : KVStore Key) :
    xs.foldlM (reloadOne lib) s
      = (xs.mapM (readSegment lib s.segments.world)).map fun read => { s with
          keyDirectory := HashMap.insertAll (fun x => x.2.key) pointer s.keyDirectory
            (records read) } := by
  induction xs generalizing s with
  | nil => rfl
  | cons x xs ih =>
    rw [List.foldlM_cons, List.mapM_cons, reloadOne, readSegment]
    rcases x.2.readFull lib s.segments.world with e | entries
    · rfl
    · rw [Outcome.ok_bind, Outcome.ok_bind]
      change xs.foldlM (reloadOne lib) { s with keyDirectory := _ } = _
      rw [ih, reload_eq_insertAll]
      rcases xs.mapM (readSegment lib s.segments.world) with e | read
      · rfl
      · rw [Except.map, ← HashMap.insertAll_append]
        rfl

theorem reload_eq_ok {order : SegmentOrder} {s s' : KVStore Key}
    (h : reload lib order s = .ok s') :
    ∃ contents, (order.iter s.segments.inactiveSegments.entries).mapM
        (readSegment lib s.segments.world) = .ok contents
      ∧ s' = { s with
          keyDirectory := HashMap.insertAll (fun x => x.2.key) pointer s.keyDirectory
            (records contents) } := by
  rw [reload, foldlM_reloadOne] at h
  rcases hread : (order.iter s.segments.inactiveSegments.entries).mapM
    (readSegment lib s.segments.world) with e | contents
  · rw [hread] at h
    cases h
  · rw [hread] at h
    cases h
    exact ⟨contents, rfl, rfl⟩

/-- The store that is made of segments when a directory is opened. -/
def opened (config : Config) (segments : Segments)
    (read : List (ℕ × List (MappedStoredEntry Key))) : KVStore Key where
  segments := segments
  keyDirectory := HashMap.insertAll (fun x => x.2.key) pointer ∅ (records read)
  mergeConfig := config.mergeConfig
  counter := 0

/-- **`KVStore::new` over a directory of logs**: the segments are the files, and the directory has every
record of the inactive ones, the last one of a key on top. -/
theorem new_eq (henv : env.Behaves) (h : s.segments.world.Holds lib env log) (config : Config) :
    ∃ segments, Segments.Holds lib env segments log
      ∧ segments.activeSegment.fileId = env.monotonicNow s.segments.world.calls
      ∧ segments.world.disk = (s.segments.world.grown env).disk
      ∧ ∀ order, new lib env config order s
        = match (order.iter segments.inactiveSegments.entries).mapM
            (readSegment lib segments.world) with
          | .ok contents => (.ok (), opened config segments contents)
          | .error e => (.error e, opened config segments []) := by
  obtain ⟨segments, hrun, h', hactive, -, hdisk⟩ :=
    newSegments_ok henv h config.maxSegmentSizeBytes
  refine ⟨segments, h', hactive, hdisk, fun order => ?_⟩
  rw [new, Op.bind_apply, onSegments_of_ok hrun]
  change ((Op.ask (reload lib order) >>= _) : Op Error (KVStore Key) Unit)
    (opened config segments []) = _
  have hreload := @foldlM_reloadOne _ lib _ (order.iter segments.inactiveSegments.entries)
    (opened config segments [])
  rcases hread : (order.iter segments.inactiveSegments.entries).mapM
    (readSegment lib segments.world) with e | contents
  · have herr : reload lib order (opened config segments []) = .error e :=
      hreload.trans (congrArg (Except.map _) hread)
    exact Op.ask_bind_of_error herr
  · have hok : reload lib order (opened config segments [])
        = .ok (opened config segments contents) :=
      hreload.trans (congrArg (Except.map _) hread)
    exact Op.ask_bind_of_ok hok

/-- A store that was opened is made of segments that could be read. -/
theorem exists_opened_of_new (henv : env.Behaves) (h : s.segments.world.Holds lib env log)
    {config : Config} {order : SegmentOrder} {s' : KVStore Key}
    (hrun : new lib env config order s = (.ok (), s')) :
    ∃ segments contents, Segments.Holds lib env segments log
      ∧ (order.iter segments.inactiveSegments.entries).mapM (readSegment lib segments.world)
        = .ok contents
      ∧ s' = opened config segments contents := by
  obtain ⟨segments, h', -, -, heq⟩ := new_eq henv h config
  rw [heq order] at hrun
  rcases hread : (order.iter segments.inactiveSegments.entries).mapM
    (readSegment lib segments.world) with e | contents
  · rw [hread] at hrun
    cases congrArg Prod.fst hrun
  · rw [hread] at hrun
    exact ⟨segments, contents, h', hread, (congrArg Prod.snd hrun).symm⟩

omit [DecidableEq Key] in
/-- A record that was read is in the log of an inactive segment. -/
theorem exists_of_mem_records {segments : Segments} {order : SegmentOrder}
    {contents : List (ℕ × List (MappedStoredEntry Key))}
    (hread : (order.iter segments.inactiveSegments.entries).mapM (readSegment lib segments.world)
      = .ok contents) {x : ℕ × MappedStoredEntry Key} (hx : x ∈ records contents) :
    ∃ g entries, segments.inactiveSegments.lookup x.1 = some g
      ∧ g.readFull lib segments.world = .ok entries ∧ x.2 ∈ entries := by
  obtain ⟨y, hy, hxy⟩ := List.mem_flatMap.mp hx
  obtain ⟨entry, hentry, rfl⟩ := List.mem_map.mp hxy
  obtain ⟨z, hz, hzy⟩ := Outcome.exists_left_of_forall₂ (Outcome.forall₂_of_mapM_eq_ok hread) hy
  obtain ⟨entries, hfull, hpair⟩ := Outcome.bind_eq_ok.mp hzy
  cases hpair
  exact ⟨z.2, entries, AList.mem_lookup_iff.mpr (order.mem_iter.mp hz), hfull, hentry⟩

theorem tidy_opened {segments : Segments} (h : Segments.Holds lib env segments log)
    {order : SegmentOrder} {contents : List (ℕ × List (MappedStoredEntry Key))}
    (hread : (order.iter segments.inactiveSegments.entries).mapM (readSegment lib segments.world)
      = .ok contents) (config : Config) : (opened config segments contents).Tidy lib env log where
  holds := h
  drawn {key r} hr := by
    rw [opened, HashMap.lookup_insertAll, AList.lookup_empty, Option.or_none,
      Option.map_eq_some_iff] at hr
    obtain ⟨x, hx, rfl⟩ := hr
    obtain ⟨g, -, hg, -⟩ := exists_of_mem_records hread (HashMap.key_of_last hx).1
    have hnode := h.node x.1
    rw [h.segment?_of_inactive hg] at hnode
    obtain ⟨i, hi, hname⟩ := h.world.named hnode.symm
    exact ⟨i, hi, (segmentName_injective hname).symm⟩

end KVStore

/-! ## Runs -/

/-- One operation on a store, with the iteration orders it meets. -/
inductive Step (Key : Type) where
  | update (readOrder : SegmentOrder) (writeOrder : ChangeOrder Key) (key : Key)
    (value : List UInt8)
  | delete (key : Key)
  | reopen (config : Config) (order : SegmentOrder)

namespace Step

variable [DecidableEq Key] (lib : KeyLib Key) (env : Env)

/-- The call. -/
def run : Step Key → Op Error (KVStore Key) Unit
  | update readOrder writeOrder key value => KVStore.update lib env readOrder writeOrder key value
  | delete key => KVStore.delete lib env key
  | reopen config order => KVStore.new lib env config order

/-- What a reader expects of it. -/
def expect (m : Key → Option (List UInt8)) : Step Key → Key → Option (List UInt8)
  | update _ _ key value => Function.update m key (some value)
  | delete key => Function.update m key none
  | reopen _ _ => m

omit [DecidableEq Key] in
/-- Whether it writes, within the session. -/
def Writes : Step Key → Prop
  | reopen _ _ => False
  | _ => True

end Step

variable [DecidableEq Key]

/-- **A run**: a store over an empty directory, and then allowed steps that return `Ok`, with the map a
reader expects. -/
inductive Run (lib : KeyLib Key) (env : Env) (allowed : KVStore Key → Step Key → Prop) :
    (Key → Option (List UInt8)) → KVStore Key → Prop
  | start {config : Config} {order : SegmentOrder} {s : KVStore Key} :
    KVStore.new lib env config order (.closed .empty) = (.ok (), s) →
      Run lib env allowed (fun _ => none) s
  | step {m : Key → Option (List UInt8)} {s s' : KVStore Key} {x : Step Key} :
    Run lib env allowed m s → allowed s x → x.run lib env s = (.ok (), s') →
      Run lib env allowed (x.expect m) s'

namespace Run

variable {allowed : KVStore Key → Step Key → Prop} {m : Key → Option (List UInt8)}
  {s : KVStore Key}

theorem tidy_of_new (henv : env.Behaves) {s s' : KVStore Key}
    (h : s.segments.world.Holds lib env log) {config : Config} {order : SegmentOrder}
    (hrun : KVStore.new lib env config order s = (.ok (), s')) : s'.Tidy lib env log := by
  obtain ⟨segments, contents, h', hread, rfl⟩ := KVStore.exists_opened_of_new henv h hrun
  exact KVStore.tidy_opened h' hread config

omit [DecidableEq Key] in
theorem holds_empty : World.empty.Holds lib env fun _ => [] where
  named h := by simp [World.empty, Disk.empty] at h
  file fileId := by simp [World.empty, Disk.empty, Disk.file]

/-- **One step keeps a store tidy…** -/
theorem tidy_of_step (henv : env.Behaves) {s s' : KVStore Key} (h : s.Tidy lib env log)
    {x : Step Key} (hrun : x.run lib env s = (.ok (), s')) : ∃ log', s'.Tidy lib env log' := by
  rcases x with ⟨readOrder, writeOrder, key, value⟩ | key | ⟨config, order⟩
  · obtain ⟨_, s₁, hmerge, -⟩ := Op.bind_eq_ok.mp hrun
    obtain ⟨log₁, h₁⟩ := h.mergeIfDue henv hmerge
    obtain ⟨segments, r, log', ts, hput, h', -, hst, hgrow⟩ :=
      KVStore.put_ok henv hmerge h₁.holds key value
    obtain rfl := congrArg Prod.snd (hrun.symm.trans hput)
    exact ⟨log', h₁.insert h' hgrow hst _⟩
  · obtain ⟨segments, log', hdel, h', hgrow⟩ := KVStore.delete_ok henv h.holds key
    obtain rfl := congrArg Prod.snd (hrun.symm.trans hdel)
    exact ⟨log', h.erase h' hgrow key⟩
  · exact ⟨log, tidy_of_new henv h.holds.world hrun⟩

/-- **…so every run does.** -/
theorem tidy (henv : env.Behaves) (h : Run lib env allowed m s) : ∃ log, s.Tidy lib env log := by
  induction h with
  | start hrun => exact ⟨_, tidy_of_new henv holds_empty hrun⟩
  | step _ _ hrun ih =>
    obtain ⟨log, hlog⟩ := ih
    exact tidy_of_step henv hlog hrun

/-- A run is a run under a weaker condition. -/
theorem mono {allowed' : KVStore Key → Step Key → Prop}
    (himp : ∀ {s x}, allowed s x → allowed' s x) (h : Run lib env allowed m s) :
    Run lib env allowed' m s := by
  induction h with
  | start hrun => exact .start hrun
  | step _ hx hrun ih => exact .step ih (himp hx) hrun

end Run

/-! ## A setting to run in -/

/-- Keys that are their own bytes. -/
def byteKeys : KeyLib (List UInt8) := ⟨id, id, fun _ => rfl⟩

/-- A wall clock that stands still, a monotonic clock that counts the calls, and no failure. -/
def steady : Env := ⟨fun _ => 1000, id, fun _ => none⟩

theorem behaves_steady : steady.Behaves := ⟨fun _ => rfl, Function.injective_id⟩

end Bitspend.Kv
