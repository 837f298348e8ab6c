import Bitspend.Kv.KVStore
import Mathlib.Logic.Function.Basic

/-!
# Kv/Log — what the segment files hold

As long as no call fails and no file id comes twice, every segment file is a log: a concatenation of
records, written at its end.  `Segments.Holds s log` ties three things together: the directory on disk,
the segments the store knows, and the log of each file id (empty where there is no file).  Each
operation of `segments.rs` gets one lemma that says how it moves `log`, and reading a file is reading
its log (`Holds.read_eq`).
-/

namespace Bitspend.Kv

/-! ## Segment names -/

theorem takeWhile_segmentName (fileId : ℕ) :
    (segmentName fileId).takeWhile (· ≠ '_') = Nat.toDigits 10 fileId := by
  have hdigits : ∀ c ∈ Nat.toDigits 10 fileId, decide (c ≠ '_') = true := by
    intro c hc
    simp only [decide_eq_true_eq]
    rintro rfl
    exact Nat.underscore_not_in_toDigits hc
  rw [segmentName, List.append_assoc, List.takeWhile_append_of_pos hdigits]
  simp

/-- **A segment name carries its file id.** -/
theorem parseU64_segmentName (fileId : ℕ) :
    parseU64 ((segmentName fileId).takeWhile (· ≠ '_')) = some fileId := by
  have hdigit : ∀ c ∈ Nat.toDigits 10 fileId, c.isDigit = true := fun c hc =>
    Nat.isDigit_of_mem_toDigits (by decide) (by decide) hc
  have hplus : ∀ s, Nat.toDigits 10 fileId ≠ '+' :: s := by
    intro s hs
    have := hdigit '+' (hs ▸ List.mem_cons_self)
    revert this
    decide
  rw [takeWhile_segmentName, parseU64, if_pos ⟨Nat.toDigits_ne_nil, List.all_eq_true.mpr hdigit⟩,
    Nat.ofDigitChars_ten_toDigits]
  exact hplus

theorem segmentName_injective : Function.Injective segmentName := by
  intro a b h
  have ha := parseU64_segmentName a
  rw [h, parseU64_segmentName, Option.some.injEq] at ha
  exact ha.symm

theorem isSuffixOf_segmentName (fileId : ℕ) :
    (SEGMENT_FILE_PREFIX ++ '.' :: SEGMENT_FILE_SUFFIX).isSuffixOf (segmentName fileId) = true := by
  rw [List.isSuffixOf_iff_suffix, segmentName, List.append_assoc]
  exact ⟨Nat.toDigits 10 fileId ++ ['_'], by simp⟩

/-! ## The outside, behaving -/

/-- **No call fails, and no reading of the monotonic clock comes twice.** -/
structure Env.Behaves (env : Env) : Prop where
  complete : ∀ i, env.fault i = none
  distinct : Function.Injective env.monotonicNow

/-! ## Logs on disk -/

section Holds

variable {Key : Type} (lib : KeyLib Key) (env : Env)

/-- The directory with a file for the next reading of the clock, empty and new. -/
def World.grown (w : World) : World :=
  { disk := w.disk.create (segmentName (env.monotonicNow w.calls))
    calls := w.calls + 2
    events := w.events ++ [.taken (segmentName (env.monotonicNow w.calls)) false] }

/-- **The directory holds the logs**: every name is the segment name of a reading that was taken, and
the file of a segment name is its log, empty where there is no file. -/
structure World.Holds (w : World) (log : ℕ → List (Entry Key)) : Prop where
  named : ∀ {name node}, w.disk.names.lookup name = some node →
    ∃ i < w.calls, name = segmentName (env.monotonicNow i)
  file : ∀ fileId, (w.disk.file (segmentName fileId)).getD [] = lib.file (log fileId)

variable {lib env} {w : World} {log : ℕ → List (Entry Key)}

namespace World.Holds

/-- A reading that is new names no file… -/
theorem lookup_of_le (h : w.Holds lib env log) (henv : env.Behaves) {i : ℕ} (hi : w.calls ≤ i) :
    w.disk.names.lookup (segmentName (env.monotonicNow i)) = none := by
  rcases hlook : w.disk.names.lookup (segmentName (env.monotonicNow i)) with _ | node
  · rfl
  · obtain ⟨j, hj, hname⟩ := h.named hlook
    have := henv.distinct (segmentName_injective hname)
    omega

theorem file_of_lookup (h : w.Holds lib env log) {fileId node : ℕ}
    (hn : w.disk.names.lookup (segmentName fileId) = some node) :
    w.disk.content node = lib.file (log fileId) := by
  have := h.file fileId
  rwa [Disk.file_of_lookup hn] at this

/-- …and its log is empty. -/
theorem log_of_none (h : w.Holds lib env log) {fileId : ℕ}
    (hn : w.disk.names.lookup (segmentName fileId) = none) : log fileId = [] := by
  have hfile := h.file fileId
  rw [Disk.file_eq_none.mpr hn] at hfile
  have hlen := lib.length_le_length_file (log fileId)
  rw [← hfile] at hlen
  exact List.length_eq_zero_iff.mp (Nat.le_zero.mp hlen)

/-- **A new file has an empty log.** -/
theorem create (h : w.Holds lib env log) (henv : env.Behaves) :
    (w.grown env).Holds lib env log where
  named {name node} hn := by
    by_cases hname : name = segmentName (env.monotonicNow w.calls)
    · exact ⟨w.calls, Nat.lt_add_of_pos_right (by decide), hname⟩
    · rw [World.grown, Disk.lookup_create_of_ne hname] at hn
      obtain ⟨i, hi, hname⟩ := h.named hn
      exact ⟨i, Nat.lt_add_right 2 hi, hname⟩
  file fileId := by
    by_cases hid : fileId = env.monotonicNow w.calls
    · rw [World.grown, hid, Disk.file_create, h.log_of_none (h.lookup_of_le henv le_rfl)]
      rfl
    · rw [World.grown, Disk.file_create_of_ne fun hname => hid (segmentName_injective hname)]
      exact h.file fileId

/-- **A record written at the end of a file is the last of its log.** -/
theorem write (h : w.Holds lib env log) {fileId node : ℕ}
    (hn : w.disk.names.lookup (segmentName fileId) = some node) (e : Entry Key)
    (event : StoreEvent) :
    World.Holds lib env
      ((w.after (w.disk.writeAt node (lib.file (log fileId)).length (lib.bytes e))).note event)
      (Function.update log fileId (log fileId ++ [e])) where
  named {name node'} hn' := by
    obtain ⟨i, hi, hname⟩ := h.named hn'
    exact ⟨i, Nat.lt_succ_of_lt hi, hname⟩
  file fileId' := by
    rw [World.note_disk, World.after_disk]
    by_cases hid : fileId' = fileId
    · rw [hid, Disk.file_writeAt hn, h.file_of_lookup hn, overwrite_length, Function.update_self,
        KeyLib.file_append, KeyLib.file_cons, KeyLib.file_nil, List.append_nil]
      rfl
    · rw [Disk.file_writeAt_of_ne hn fun hname => hid (segmentName_injective hname),
        Function.update_of_ne hid]
      exact h.file fileId'

/-- **A file that is removed takes its log with it.** -/
theorem unlink (h : w.Holds lib env log) (fileId : ℕ) :
    World.Holds lib env
      ({ w with disk := w.disk.unlink (segmentName fileId) }.note (.removed (segmentName fileId)))
      (Function.update log fileId []) where
  named {name node} hn := by
    by_cases hname : name = segmentName fileId
    · rw [World.note_disk, hname, Disk.lookup_unlink] at hn
      cases hn
    · rw [World.note_disk, Disk.lookup_unlink_of_ne hname] at hn
      exact h.named hn
  file fileId' := by
    by_cases hid : fileId' = fileId
    · rw [World.note_disk, hid, Disk.file_unlink, Function.update_self]
      rfl
    · rw [World.note_disk, Disk.file_unlink_of_ne fun hname => hid (segmentName_injective hname),
        Function.update_of_ne hid]
      exact h.file fileId'

end World.Holds

/-! ## Segments and files -/

namespace Segments

/-- **The segments are the files**, one for one, the files hold the logs, and the cursor of the active
segment is at the end of its file. -/
structure Holds (lib : KeyLib Key) (env : Env) (s : Segments) (log : ℕ → List (Entry Key)) :
    Prop where
  world : s.world.Holds lib env log
  node : ∀ fileId, (s.segment? fileId).map (fun g => g.store.fileDescriptor)
    = s.world.disk.names.lookup (segmentName fileId)
  own : ∀ {fileId g}, s.segment? fileId = some g →
    g.fileId = fileId ∧ g.store.fileName = segmentName fileId
  apart : s.inactiveSegments.lookup s.activeSegment.fileId = none
  cursor : s.activeSegment.store.currentWriteOffset
    = (lib.file (log s.activeSegment.fileId)).length

/-- **A segment can be written to**: its file is there, and its cursor is at the end. -/
structure Writable (lib : KeyLib Key) (s : Segments) (log : ℕ → List (Entry Key)) (g : Segment) :
    Prop where
  lookup : s.world.disk.names.lookup (segmentName g.fileId) = some g.store.fileDescriptor
  cursor : g.store.currentWriteOffset = (lib.file (log g.fileId)).length

/-- The segment `newSegment` makes. -/
def fresh (env : Env) (w : World) : Segment :=
  ⟨env.monotonicNow w.calls, w.disk.nodes.length, 0, segmentName (env.monotonicNow w.calls)⟩

variable {s : Segments} {r : AppendEntryResponse} {e : Entry Key}

theorem newSegment_eq (henv : env.Behaves) (h : s.world.Holds lib env log) :
    newSegment env s = (.ok (fresh env s.world), { s with world := s.world.grown env }) := by
  have hname := h.lookup_of_le henv le_rfl
  simp only [newSegment, onWorld, Op.zoom, Op.bind_apply, nextFileId, Segment.new, WasiStore.open,
    World.note_calls, World.note_disk, World.after_calls, World.after_disk, henv.complete, hname,
    Disk.openFile_of_none hname]
  rfl

theorem segment?_active (s : Segments) :
    s.segment? s.activeSegment.fileId = some s.activeSegment := if_pos rfl

theorem segment?_of_ne {fileId : ℕ} (h : fileId ≠ s.activeSegment.fileId) :
    s.segment? fileId = s.inactiveSegments.lookup fileId := if_neg h

/-- Where the active segment is not among the inactive ones, these have other ids. -/
theorem ne_active_of_inactive
    (hapart : s.inactiveSegments.lookup s.activeSegment.fileId = none) {fileId : ℕ} {g : Segment}
    (hg : s.inactiveSegments.lookup fileId = some g) : fileId ≠ s.activeSegment.fileId := by
  rintro rfl
  rw [hapart] at hg
  cases hg

namespace Holds

theorem segment?_of_inactive (h : s.Holds lib env log) {fileId : ℕ} {g : Segment}
    (hg : s.inactiveSegments.lookup fileId = some g) : s.segment? fileId = some g := by
  rw [segment?_of_ne (ne_active_of_inactive h.apart hg), hg]

/-- A file id is in use exactly when its name is. -/
theorem segment?_eq_none (h : s.Holds lib env log) {fileId : ℕ} :
    s.segment? fileId = none ↔ s.world.disk.names.lookup (segmentName fileId) = none := by
  rw [← h.node fileId, Option.map_eq_none_iff]

theorem isSome_segment? (h : s.Holds lib env log) (fileId : ℕ) :
    (s.segment? fileId).isSome = (s.world.disk.names.lookup (segmentName fileId)).isSome := by
  rw [← h.node fileId, Option.isSome_map]

theorem segment?_fresh (h : s.Holds lib env log) (henv : env.Behaves) :
    s.segment? (env.monotonicNow s.world.calls) = none :=
  h.segment?_eq_none.mpr (h.world.lookup_of_le henv le_rfl)

theorem log_fresh (h : s.Holds lib env log) (henv : env.Behaves) :
    log (env.monotonicNow s.world.calls) = [] :=
  h.world.log_of_none (h.world.lookup_of_le henv le_rfl)

theorem writable_active (h : s.Holds lib env log) : s.Writable lib log s.activeSegment where
  lookup := by
    rw [← h.node, segment?_active]
    rfl
  cursor := h.cursor

/-- **A new segment joins the others**, wherever it is put. -/
theorem grow (h : s.Holds lib env log) (henv : env.Behaves) {s' : Segments}
    (hworld : s'.world = s.world.grown env)
    (hseg : ∀ fileId, s'.segment? fileId
      = if fileId = env.monotonicNow s.world.calls then some (fresh env s.world)
        else s.segment? fileId)
    (hapart : s'.inactiveSegments.lookup s'.activeSegment.fileId = none)
    (hcursor : s'.activeSegment.store.currentWriteOffset
      = (lib.file (log s'.activeSegment.fileId)).length) :
    s'.Holds lib env log where
  world := hworld ▸ h.world.create henv
  node fileId := by
    rw [hseg, hworld, World.grown]
    by_cases hid : fileId = env.monotonicNow s.world.calls
    · rw [if_pos hid, hid, Disk.lookup_create]
      rfl
    · rw [if_neg hid, Disk.lookup_create_of_ne fun hname => hid (segmentName_injective hname)]
      exact h.node fileId
  own {fileId g} hg := by
    rw [hseg] at hg
    by_cases hid : fileId = env.monotonicNow s.world.calls
    · rw [if_pos hid, Option.some.injEq] at hg
      subst hg hid
      exact ⟨rfl, rfl⟩
    · rw [if_neg hid] at hg
      exact h.own hg
  apart := hapart
  cursor := hcursor

theorem active_ne_fresh (h : s.Holds lib env log) (henv : env.Behaves) :
    s.activeSegment.fileId ≠ env.monotonicNow s.world.calls := by
  intro heq
  have := h.segment?_fresh henv
  rw [← heq, segment?_active] at this
  cases this

end Holds

/-- The segments with a new inactive one… -/
def withInactive (env : Env) (s : Segments) : Segments :=
  { s with
    world := s.world.grown env
    inactiveSegments := s.inactiveSegments.insert (env.monotonicNow s.world.calls)
      (fresh env s.world) }

/-- …and with a new active one, the old one inactive. -/
def rolledOver (env : Env) (s : Segments) : Segments :=
  { s with
    world := s.world.grown env
    activeSegment := fresh env s.world
    inactiveSegments := s.inactiveSegments.insert s.activeSegment.fileId s.activeSegment }

theorem segment?_rolledOver (env : Env) (s : Segments) (fileId : ℕ) :
    (s.rolledOver env).segment? fileId
      = if fileId = env.monotonicNow s.world.calls then some (fresh env s.world)
        else s.segment? fileId := by
  by_cases hid : fileId = env.monotonicNow s.world.calls
  · rw [if_pos hid, hid]
    exact segment?_active (s.rolledOver env)
  · rw [if_neg hid, segment?_of_ne hid]
    change (s.inactiveSegments.insert _ _).lookup fileId = _
    by_cases hact : fileId = s.activeSegment.fileId
    · rw [hact, AList.lookup_insert, segment?_active]
    · rw [AList.lookup_insert_ne hact, segment?_of_ne hact]

theorem segment?_withInactive (hne : s.activeSegment.fileId ≠ env.monotonicNow s.world.calls)
    (fileId : ℕ) :
    (s.withInactive env).segment? fileId
      = if fileId = env.monotonicNow s.world.calls then some (fresh env s.world)
        else s.segment? fileId := by
  by_cases hid : fileId = env.monotonicNow s.world.calls
  · subst hid
    rw [if_pos rfl]
    exact (segment?_of_ne (s := s.withInactive env) hne.symm).trans (AList.lookup_insert _)
  · rw [if_neg hid, segment?, segment?]
    change (if fileId = s.activeSegment.fileId then some s.activeSegment
      else (s.inactiveSegments.insert _ _).lookup fileId) = _
    rw [AList.lookup_insert_ne hid]

namespace Holds

variable (h : s.Holds lib env log) (henv : env.Behaves)

include h henv

theorem withInactive : (s.withInactive env).Holds lib env log := by
  refine h.grow henv rfl (segment?_withInactive (h.active_ne_fresh henv)) ?_ h.cursor
  change (s.inactiveSegments.insert _ _).lookup s.activeSegment.fileId = none
  rw [AList.lookup_insert_ne (h.active_ne_fresh henv)]
  exact h.apart

theorem rolledOver : (s.rolledOver env).Holds lib env log := by
  refine h.grow henv rfl (segment?_rolledOver env s) ?_ ?_
  · change (s.inactiveSegments.insert _ _).lookup (env.monotonicNow s.world.calls) = none
    have hne := (h.active_ne_fresh henv).symm
    rw [AList.lookup_insert_ne hne, ← segment?_of_ne hne]
    exact h.segment?_fresh henv
  · change 0 = (lib.file (log (env.monotonicNow s.world.calls))).length
    rw [h.log_fresh henv]
    rfl

theorem writable_fresh : (s.withInactive env).Writable lib log (fresh env s.world) where
  lookup := Disk.lookup_create
  cursor := by
    change 0 = (lib.file (log (env.monotonicNow s.world.calls))).length
    rw [h.log_fresh henv]
    rfl

end Holds

/-! ## Appending -/

/-- The directory after a record was written to the end of a segment. -/
def written (lib : KeyLib Key) (log : ℕ → List (Entry Key)) (w : World) (g : Segment)
    (e : Entry Key) : World :=
  (w.after (w.disk.writeAt g.store.fileDescriptor (lib.file (log g.fileId)).length
    (lib.bytes e))).note (.appended g.store.fileName (lib.file (log g.fileId)).length (lib.bytes e))

/-- The segment with its cursor behind the record. -/
def advanced (lib : KeyLib Key) (log : ℕ → List (Entry Key)) (g : Segment) (e : Entry Key) :
    Segment :=
  { g with store :=
    { g.store with
      currentWriteOffset := (lib.file (log g.fileId)).length + (lib.bytes e).length } }

/-- The segments after an append to the active one. -/
def appended (lib : KeyLib Key) (log : ℕ → List (Entry Key)) (s : Segments) (e : Entry Key) :
    Segments :=
  { s with
    world := written lib log s.world s.activeSegment e
    activeSegment := advanced lib log s.activeSegment e }

/-- Where the record stands. -/
def response (lib : KeyLib Key) (log : ℕ → List (Entry Key)) (fileId : ℕ) (e : Entry Key) :
    AppendEntryResponse :=
  ⟨fileId, (lib.file (log fileId)).length, UInt32.ofNat (lib.bytes e).length⟩

/-- **An append writes the stamped record at the end of the file.** -/
theorem append_eq (henv : env.Behaves) {g : Segment} (hg : s.Writable lib log g) (e : Entry Key) :
    onWorld (g.append lib env e) s
      = (.ok (response lib log g.fileId (e.stamped (env.now s.world.calls)),
            advanced lib log g (e.stamped (env.now s.world.calls))),
          { s with world := written lib log s.world g (e.stamped (env.now s.world.calls)) }) := by
  simp only [onWorld, Op.zoom, Segment.append, Op.bind_apply, Op.ask, WasiStore.append,
    henv.complete, hg.cursor, KeyLib.encode]
  rfl

namespace Holds

/-- **A record in an inactive segment**… -/
theorem write_inactive (h : s.Holds lib env log) {g : Segment} (hg : s.Writable lib log g)
    (hne : g.fileId ≠ s.activeSegment.fileId) (e : Entry Key) :
    Segments.Holds lib env { s with world := written lib log s.world g e }
      (Function.update log g.fileId (log g.fileId ++ [e])) where
  world := h.world.write hg.lookup e _
  node := h.node
  own := h.own
  apart := h.apart
  cursor := by
    rw [Function.update_of_ne hne.symm]
    exact h.cursor

/-- …and in the active one. -/
theorem write_active (h : s.Holds lib env log) (e : Entry Key) :
    (s.appended lib log e).Holds lib env
      (Function.update log s.activeSegment.fileId (log s.activeSegment.fileId ++ [e])) where
  world := h.world.write h.writable_active.lookup e _
  node fileId := by
    change _ = s.world.disk.names.lookup (segmentName fileId)
    by_cases hid : fileId = s.activeSegment.fileId
    · rw [hid, h.writable_active.lookup]
      exact congrArg _ (segment?_active (s.appended lib log e))
    · rw [← h.node fileId, segment?_of_ne hid]
      exact congrArg _ (segment?_of_ne (s := s.appended lib log e) hid)
  own {fileId g} hg := by
    by_cases hid : fileId = s.activeSegment.fileId
    · subst hid
      obtain rfl := Option.some.inj ((segment?_active (s.appended lib log e)).symm.trans hg)
      have hown := h.own (segment?_active s)
      exact ⟨hown.1, hown.2⟩
    · rw [segment?_of_ne (s := s.appended lib log e) hid] at hg
      exact h.own ((segment?_of_ne hid).trans hg)
  apart := h.apart
  cursor := by
    change _ = (lib.file (Function.update log s.activeSegment.fileId _
      s.activeSegment.fileId)).length
    rw [Function.update_self, KeyLib.file_append, List.length_append, KeyLib.file_cons,
      KeyLib.file_nil, List.append_nil]
    rfl

end Holds

theorem maybeRolloverSegment_eq (henv : env.Behaves) (h : s.world.Holds lib env log) (g : Segment) :
    maybeRolloverSegment env g s = (.ok none, s)
      ∨ maybeRolloverSegment env g s
        = (.ok (some (fresh env s.world)), { s with world := s.world.grown env }) := by
  rw [maybeRolloverSegment, Op.ask_ok_bind]
  split
  · right
    rw [Op.bind_apply, newSegment_eq henv h]
    rfl
  · exact .inl rfl

theorem maybeRolloverActiveSegment_eq (henv : env.Behaves) (h : s.world.Holds lib env log) :
    maybeRolloverActiveSegment env s = (.ok (), s)
      ∨ maybeRolloverActiveSegment env s = (.ok (), s.rolledOver env) := by
  rw [maybeRolloverActiveSegment, Op.ask_ok_bind, Op.bind_apply]
  rcases maybeRolloverSegment_eq henv h s.activeSegment with heq | heq
  · rw [heq]
    exact .inl rfl
  · rw [heq]
    exact .inr rfl

/-- **A record stands where a response points.** -/
def Stands (lib : KeyLib Key) (log : ℕ → List (Entry Key)) (r : AppendEntryResponse)
    (e : Entry Key) : Prop :=
  ∃ l l', log r.fileId = l ++ e :: l' ∧ r.offset = (lib.file l).length
    ∧ r.entryLength = UInt32.ofNat (lib.bytes e).length

theorem Stands.mono {log' : ℕ → List (Entry Key)} (hlog : ∀ fileId, log fileId <+: log' fileId)
    {r : AppendEntryResponse} {e : Entry Key} (h : Stands lib log r e) : Stands lib log' r e := by
  obtain ⟨l, l', hl, hoff, hlen⟩ := h
  obtain ⟨l'', hl''⟩ := hlog r.fileId
  exact ⟨l, l' ++ l'', by rw [← hl'', hl]; simp, hoff, hlen⟩

theorem Stands.congr {log' : ℕ → List (Entry Key)} (h : Stands lib log r e)
    (hlog : log' r.fileId = log r.fileId) : Stands lib log' r e := by
  rw [Stands, hlog]
  exact h

/-- A file with a record in it is there. -/
theorem Stands.isSome (hst : Stands lib log r e) (h : s.Holds lib env log) :
    (s.segment? r.fileId).isSome := by
  rcases hg : s.segment? r.fileId with _ | g
  · obtain ⟨l, l', hl, -⟩ := hst
    rw [h.world.log_of_none (h.segment?_eq_none.mp hg)] at hl
    simp at hl
  · rfl

theorem stands_response (fileId : ℕ) (e : Entry Key) :
    Stands lib (Function.update log fileId (log fileId ++ [e])) (response lib log fileId e) e :=
  ⟨log fileId, [], Function.update_self _ _ _, rfl, rfl⟩

theorem prefix_update (fileId : ℕ) (e : Entry Key) (id : ℕ) :
    log id <+: Function.update log fileId (log fileId ++ [e]) id := by
  by_cases hid : id = fileId
  · subst hid
    rw [Function.update_self]
    exact List.prefix_append _ _
  · rw [Function.update_of_ne hid]

/-- **Nothing is lost**: every file stays, and every log grows at its end. -/
structure Grows (s : Segments) (log : ℕ → List (Entry Key)) (s' : Segments)
    (log' : ℕ → List (Entry Key)) : Prop where
  calls : s.world.calls ≤ s'.world.calls
  kept : ∀ {fileId}, (s.segment? fileId).isSome → (s'.segment? fileId).isSome
  log : ∀ fileId, log fileId <+: log' fileId

/-- **Appending to the store's log**: the stamped record stands where the response points, and nothing
is lost. -/
theorem appendEntry_ok (henv : env.Behaves) (h : s.Holds lib env log) (e : Entry Key) :
    ∃ s' r log' ts, appendEntry lib env e s = (.ok r, s') ∧ s'.Holds lib env log'
      ∧ (s'.segment? r.fileId).isSome ∧ Stands lib log' r (e.stamped ts) ∧ Grows s log s' log' := by
  obtain ⟨s₁, hroll, h₁, hkeep, hcalls⟩ : ∃ s₁, maybeRolloverActiveSegment env s = (.ok (), s₁)
      ∧ s₁.Holds lib env log ∧ (∀ id, (s.segment? id).isSome → (s₁.segment? id).isSome)
      ∧ s.world.calls ≤ s₁.world.calls := by
    rcases maybeRolloverActiveSegment_eq henv h.world with heq | heq
    · exact ⟨s, heq, h, fun _ hid => hid, le_rfl⟩
    · refine ⟨_, heq, h.rolledOver henv, ?_, Nat.le_add_right _ 2⟩
      intro id hid
      rw [segment?_rolledOver]
      split_ifs
      · rfl
      · exact hid
  have h' := h₁.write_active (e.stamped (env.now s₁.world.calls))
  refine ⟨_, _, _, env.now s₁.world.calls, ?_, h', ?_, stands_response _ _,
    ⟨hcalls.trans (Nat.le_succ _), ?_, prefix_update _ _⟩⟩
  · rw [appendEntry, Op.bind_apply, hroll]
    change ((Op.ask fun s => .ok s.activeSegment) >>= _) s₁ = _
    rw [Op.ask_ok_bind, Op.bind_apply, append_eq henv h₁.writable_active]
    rfl
  · exact Option.isSome_iff_exists.mpr ⟨_, segment?_active (s₁.appended lib log _)⟩
  · intro id hid
    rw [h'.isSome_segment?]
    have := hkeep id hid
    rwa [h₁.isSome_segment?] at this

/-! ## Reading -/

/-- **Reading a file is reading its log.** -/
theorem Holds.read_eq (h : s.Holds lib env log) (fileId offset : ℕ) (size : UInt32) :
    s.read fileId offset size
      = if (s.segment? fileId).isSome then
          decode (((lib.file (log fileId)).drop offset).take size.toNat)
        else Outcome.err (.fileNotFound fileId) := by
  have hnode := h.node fileId
  rw [read]
  rcases hg : s.segment? fileId with _ | g
  · rfl
  · rw [hg, Option.map_some] at hnode
    rw [← h.world.file_of_lookup hnode.symm]
    rfl

theorem Holds.readFull_eq (h : s.Holds lib env log) {fileId : ℕ} {g : Segment}
    (hg : s.segment? fileId = some g) : g.readFull lib s.world = lib.decodeMulti (lib.file (log fileId)) := by
  have hnode := h.node fileId
  rw [hg, Option.map_some] at hnode
  rw [← h.world.file_of_lookup hnode.symm]
  rfl

/-- **A record is read where it stands.** -/
theorem Stands.read (hst : Stands lib log r e) (h : s.Holds lib env log)
    (hr : (s.segment? r.fileId).isSome) (hlt : (lib.bytes e).length < 2 ^ 32) :
    s.read r.fileId r.offset r.entryLength = .ok (lib.stored e) := by
  obtain ⟨l, l', hlog, hoff, hlen⟩ := hst
  rw [h.read_eq, if_pos hr, hlog, hoff, hlen, toNat_ofNat_of_lt hlt, KeyLib.file_append,
    KeyLib.file_cons, List.drop_left, List.take_left, lib.decode_bytes hlt]

end Segments

end Holds

end Bitspend.Kv
