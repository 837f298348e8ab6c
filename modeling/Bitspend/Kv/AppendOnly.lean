import Bitspend.Kv.Reload

/-!
# Kv/AppendOnly — what was appended stays

File ids are readings of the monotonic clock, and a segment is opened with its cursor at zero whether or
not its file was there.  If an id that is taken names a file of the directory, the next append goes over
what is in it.  As long as none does, what an append has written stays where it is until its file is
removed — through rollovers, merges, further sessions and failing calls alike (`appendOnly_of_fresh`).

Nothing is assumed of the file system here: an `open` or a `write` may fail at any call, a write after any
number of bytes.
-/

namespace Bitspend.Kv

/-! ## Appends that stand -/

namespace World

variable {w : World}

/-- **An append that stands**: no removal of its file came after it. -/
def Stored (w : World) (name : FileName) (offset : ℕ) (bytes : List UInt8) : Prop :=
  ∃ pre post, w.events = pre ++ .appended name offset bytes :: post ∧ .removed name ∉ post

/-- **What was appended is where it was written.** -/
def AppendOnly (w : World) : Prop :=
  ∀ name offset bytes, w.Stored name offset bytes →
    ∃ file, w.disk.file name = some file ∧ (file.drop offset).take bytes.length = bytes

/-- The last note, or one before it. -/
theorem stored_note {event : StoreEvent} {name : FileName} {offset : ℕ} {bytes : List UInt8} :
    (w.note event).Stored name offset bytes ↔ event = .appended name offset bytes
      ∨ w.Stored name offset bytes ∧ event ≠ .removed name := by
  constructor
  · rintro ⟨pre, post, heq, hpost⟩
    rcases List.eq_nil_or_concat post with rfl | ⟨post, last, rfl⟩
    · obtain ⟨-, hlast⟩ := List.append_inj' heq rfl
      exact .inl (List.singleton_inj.mp hlast)
    · rw [List.concat_eq_append, ← List.cons_append, ← List.append_assoc] at heq
      obtain ⟨hinit, hlast⟩ := List.append_inj' heq rfl
      obtain rfl := List.singleton_inj.mp hlast
      rw [List.concat_eq_append, List.mem_append, List.mem_singleton, not_or] at hpost
      exact .inr ⟨⟨pre, post, hinit, hpost.1⟩, fun h => hpost.2 h.symm⟩
  · rintro (rfl | ⟨⟨pre, post, heq, hpost⟩, hne⟩)
    · exact ⟨w.events, [], rfl, List.not_mem_nil⟩
    · refine ⟨pre, post ++ [event], by rw [note_events, heq]; simp, ?_⟩
      rw [List.mem_append, List.mem_singleton, not_or]
      exact ⟨hpost, fun h => hne h.symm⟩

end World

/-! ## The ids a call takes -/

/-- The names of the ids that were taken, as noted. -/
def takenNames (events : List StoreEvent) : List FileName :=
  events.filterMap fun
    | .taken name _ => some name
    | _ => none

/-- The names of the ids taken after a world, up to some later notes. -/
def takenSince (w : World) (events : List StoreEvent) : List FileName :=
  takenNames (events.drop w.events.length)

/-- **The ids taken since a world are fresh**: none names a file that was there, and no two are the
same. -/
structure FreshIds (w : World) (events : List StoreEvent) : Prop where
  unused : ∀ name ∈ takenSince w events, w.disk.names.lookup name = none
  nodup : (takenSince w events).Nodup

instance (w : World) (events : List StoreEvent) : Decidable (FreshIds w events) :=
  decidable_of_iff ((∀ name ∈ takenSince w events, w.disk.names.lookup name = none)
    ∧ (takenSince w events).Nodup) ⟨fun h => ⟨h.1, h.2⟩, fun h => ⟨h.unused, h.nodup⟩⟩

/-- One more note is one more name, if it is of an id. -/
theorem takenSince_append {w : World} {events : List StoreEvent} (h : w.events <+: events)
    (more : List StoreEvent) : takenSince w (events ++ more) = takenSince w events ++ takenNames more := by
  rw [takenSince, List.drop_append_of_le_length h.length_le, takenNames, List.filterMap_append]
  rfl

/-- **What a call leaves of a world**, from where it started: the names are those of before and those of
ids taken since, what was appended stands, and no segment took the id of another's file. -/
structure Kept (w₀ w : World) : Prop where
  since : w₀.events <+: w.events
  named : ∀ {name}, (w.disk.names.lookup name).isSome → ∃ fileId, name = segmentName fileId
  drawn : ∀ {name}, (w.disk.names.lookup name).isSome → (w₀.disk.names.lookup name).isSome
    ∨ name ∈ takenSince w₀ w.events
  appendOnly : w.AppendOnly
  unshared : ∀ name, .taken name true ∉ w.events

namespace Kept

variable {w₀ w : World} {events : List StoreEvent}

/-- **An id that is taken names no file**, where those of the call are fresh. -/
theorem fresh (h : Kept w₀ w) (hfresh : FreshIds w₀ events) {name : FileName} {existed : Bool}
    (hnote : w.events ++ [.taken name existed] <+: events) : w.disk.names.lookup name = none := by
  obtain ⟨more, rfl⟩ := hnote
  have hsince : takenSince w₀ (w.events ++ [.taken name existed] ++ more)
      = takenSince w₀ w.events ++ name :: takenNames more := by
    rw [List.append_assoc, takenSince_append h.since]
    rfl
  rcases hlook : w.disk.names.lookup name with _ | node
  · rfl
  · rcases h.drawn (Option.isSome_iff_exists.mpr ⟨node, hlook⟩) with hold | htaken
    · rw [hfresh.unused name (by rw [hsince]; simp)] at hold
      cases hold
    · have hnodup := hfresh.nodup
      rw [hsince] at hnodup
      exact absurd rfl (List.nodup_append.mp hnodup |>.2.2 _ htaken _ List.mem_cons_self)

/-- A note that is no id's leaves the names as they were. -/
theorem drawn_note (h : Kept w₀ w) (event : StoreEvent) {name : FileName}
    (hname : (w.disk.names.lookup name).isSome) : (w₀.disk.names.lookup name).isSome
      ∨ name ∈ takenSince w₀ (w.note event).events := by
  rw [World.note_events, takenSince_append h.since, List.mem_append]
  rcases h.drawn hname with hold | htaken
  · exact .inl hold
  · exact .inr (.inl htaken)

/-- A call that leaves the directory as it is. -/
theorem after (h : Kept w₀ w) : Kept w₀ (w.after w.disk) where
  since := h.since
  named := h.named
  drawn := h.drawn
  appendOnly := h.appendOnly
  unshared := h.unshared

/-- An id is taken. -/
theorem taken (h : Kept w₀ w) (name : FileName) : Kept w₀ (w.note (.taken name false)) where
  since := h.since.trans (List.prefix_append _ _)
  named := h.named
  drawn := h.drawn_note _
  appendOnly _ _ _ hst := by
    rcases World.stored_note.mp hst with heq | ⟨hst, -⟩
    · cases heq
    · exact h.appendOnly _ _ _ hst
  unshared name' hmem := by
    rw [World.note_events, List.mem_append, List.mem_singleton] at hmem
    rcases hmem with hmem | heq
    · exact h.unshared name' hmem
    · cases heq

/-- A file is made for an id taken since. -/
theorem create (h : Kept w₀ w) {fileId : ℕ} (htaken : segmentName fileId ∈ takenSince w₀ w.events)
    (hnone : w.disk.names.lookup (segmentName fileId) = none) :
    Kept w₀ (w.after (w.disk.create (segmentName fileId))) where
  since := h.since
  named {name} hname := by
    by_cases heq : name = segmentName fileId
    · exact ⟨_, heq⟩
    · rw [World.after_disk, Disk.lookup_create_of_ne heq] at hname
      exact h.named hname
  drawn {name} hname := by
    by_cases heq : name = segmentName fileId
    · rw [heq]
      exact .inr htaken
    · rw [World.after_disk, Disk.lookup_create_of_ne heq] at hname
      exact h.drawn hname
  appendOnly name offset bytes hst := by
    obtain ⟨file, hfile, hbytes⟩ := h.appendOnly name offset bytes hst
    refine ⟨file, ?_, hbytes⟩
    rw [World.after_disk, Disk.file_create_of_ne, hfile]
    rintro rfl
    rw [Disk.file_eq_none.mpr hnone] at hfile
    cases hfile
  unshared := h.unshared

/-- A file is removed. -/
theorem remove (h : Kept w₀ w) (store : WasiStore) : Kept w₀ (store.remove w) where
  since := h.since.trans (List.prefix_append _ _)
  named {name} hname := by
    by_cases heq : name = store.fileName
    · rw [heq, WasiStore.remove, World.note_disk, Disk.lookup_unlink] at hname
      cases hname
    · rw [WasiStore.remove, World.note_disk, Disk.lookup_unlink_of_ne heq] at hname
      exact h.named hname
  drawn {name} hname := by
    by_cases heq : name = store.fileName
    · rw [heq, WasiStore.remove, World.note_disk, Disk.lookup_unlink] at hname
      cases hname
    · rw [WasiStore.remove, World.note_disk, Disk.lookup_unlink_of_ne heq] at hname
      exact h.drawn_note _ hname
  appendOnly name offset bytes hst := by
    rcases World.stored_note.mp hst with heq | ⟨hst, hne⟩
    · cases heq
    · obtain ⟨file, hfile, hbytes⟩ := h.appendOnly name offset bytes hst
      refine ⟨file, ?_, hbytes⟩
      rw [WasiStore.remove, World.note_disk, Disk.file_unlink_of_ne, hfile]
      rintro rfl
      exact hne rfl
  unshared name hmem := by
    rw [WasiStore.remove, World.note_events, List.mem_append, List.mem_singleton] at hmem
    rcases hmem with hmem | heq
    · exact h.unshared name hmem
    · cases heq

end Kept

/-! ## Cursors -/

/-- **The segment's cursor is behind everything that stands in its file.** -/
structure Tail (w : World) (g : Segment) : Prop where
  name : g.store.fileName = segmentName g.fileId
  lookup : w.disk.names.lookup (segmentName g.fileId) = some g.store.fileDescriptor
  behind : ∀ {offset bytes}, w.Stored (segmentName g.fileId) offset bytes →
    offset + bytes.length ≤ g.store.currentWriteOffset

/-- The world after a write at the segment's cursor that was not completed… -/
def World.scribbled (w : World) (g : Segment) (bytes : List UInt8) : World :=
  w.after (w.disk.writeAt g.store.fileDescriptor g.store.currentWriteOffset bytes)

/-- …and after one that was. -/
def World.committed (w : World) (g : Segment) (bytes : List UInt8) : World :=
  (w.scribbled g bytes).note (.appended g.store.fileName g.store.currentWriteOffset bytes)

/-- The segment with its cursor moved on. -/
def Segment.movedOn (g : Segment) (bytes : List UInt8) : Segment :=
  { g with store :=
    { g.store with currentWriteOffset := g.store.currentWriteOffset + bytes.length } }

section Write

variable {w₀ w : World} {g : Segment}

/-- A write behind the cursor leaves standing what stands… -/
theorem Kept.write (h : Kept w₀ w) (hg : Tail w g) (bytes : List UInt8) :
    Kept w₀ (w.scribbled g bytes) where
  since := h.since
  named := h.named
  drawn := h.drawn
  appendOnly name offset bytes' hst := by
    obtain ⟨file, hfile, hbytes⟩ := h.appendOnly name offset bytes' hst
    by_cases hname : name = segmentName g.fileId
    · subst hname
      have hle := hg.behind hst
      rw [Disk.file_of_lookup hg.lookup, Option.some.injEq] at hfile
      subst hfile
      refine ⟨_, Disk.file_writeAt hg.lookup, ?_⟩
      rcases bytes' with _ | ⟨b, bytes'⟩
      · rfl
      · rw [take_drop_overwrite_of_le bytes hle, hbytes]
        have hlen := congrArg List.length hbytes
        rw [List.length_take, List.length_drop, List.length_cons] at hlen
        rw [List.length_cons]
        omega
    · exact ⟨file, (Disk.file_writeAt_of_ne hg.lookup hname).trans hfile, hbytes⟩
  unshared := h.unshared

/-- …and what was written whole stands too. -/
theorem Kept.append (h : Kept w₀ w) (hg : Tail w g) (bytes : List UInt8) :
    Kept w₀ (w.committed g bytes) where
  since := (h.write hg bytes).since.trans (List.prefix_append _ _)
  named := (h.write hg bytes).named
  drawn := (h.write hg bytes).drawn_note _
  appendOnly name offset bytes' hst := by
    rcases World.stored_note.mp hst with heq | ⟨hst, -⟩
    · cases heq
      rw [hg.name]
      exact ⟨_, Disk.file_writeAt hg.lookup, take_drop_overwrite _ _ _⟩
    · exact (h.write hg bytes).appendOnly name offset bytes' hst
  unshared name hmem := by
    rw [World.committed, World.note_events, List.mem_append, List.mem_singleton] at hmem
    rcases hmem with hmem | heq
    · exact h.unshared name hmem
    · cases heq

/-- The cursor of the segment that was written to is behind that as well… -/
theorem Tail.advance (hg : Tail w g) (bytes : List UInt8) :
    Tail (w.committed g bytes) (g.movedOn bytes) where
  name := hg.name
  lookup := hg.lookup
  behind hst := by
    rcases World.stored_note.mp hst with heq | ⟨hst, -⟩
    · obtain ⟨-, rfl, rfl⟩ := StoreEvent.appended.inj heq
      exact le_rfl
    · exact (hg.behind hst).trans (Nat.le_add_right _ _)

/-- …and other cursors are where they were. -/
theorem Tail.of_append (hg : Tail w g) {other : Segment} (hother : Tail w other)
    (hne : g.fileId ≠ other.fileId) (bytes : List UInt8) :
    Tail (w.committed other bytes) g where
  name := hg.name
  lookup := hg.lookup
  behind hst := by
    rcases World.stored_note.mp hst with heq | ⟨hst, -⟩
    · obtain ⟨hname, -, -⟩ := StoreEvent.appended.inj heq
      rw [hother.name] at hname
      exact absurd (segmentName_injective hname).symm hne
    · exact hg.behind hst

theorem Tail.of_write (hg : Tail w g) (other : Segment) (bytes : List UInt8) :
    Tail (w.scribbled other bytes) g := ⟨hg.name, hg.lookup, hg.behind⟩

theorem Tail.of_create (hg : Tail w g) {name : FileName} (hnone : w.disk.names.lookup name = none) :
    Tail (w.after (w.disk.create name)) g where
  name := hg.name
  lookup := by
    rw [World.after_disk, Disk.lookup_create_of_ne, hg.lookup]
    rintro rfl
    rw [hg.lookup] at hnone
    cases hnone
  behind := hg.behind

/-- Nothing stands in a file that is new. -/
theorem Tail.created (h : Kept w₀ w) {fileId : ℕ}
    (hnone : w.disk.names.lookup (segmentName fileId) = none) :
    Tail (w.after (w.disk.create (segmentName fileId)))
      ⟨fileId, w.disk.nodes.length, 0, segmentName fileId⟩ where
  name := rfl
  lookup := Disk.lookup_create
  behind hst := by
    obtain ⟨file, hfile, -⟩ := h.appendOnly _ _ _ hst
    rw [Disk.file_eq_none.mpr hnone] at hfile
    cases hfile

theorem Tail.after (hg : Tail w g) : Tail (w.after w.disk) g := ⟨hg.name, hg.lookup, hg.behind⟩

/-- A note of a reading moves no cursor. -/
theorem Tail.of_taken (hg : Tail w g) (name : FileName) (existed : Bool) :
    Tail (w.note (.taken name existed)) g where
  name := hg.name
  lookup := hg.lookup
  behind hst := by
    rcases World.stored_note.mp hst with heq | ⟨hst, -⟩
    · cases heq
    · exact hg.behind hst

theorem Tail.of_remove (hg : Tail w g) {store : WasiStore}
    (hne : store.fileName ≠ segmentName g.fileId) : Tail (store.remove w) g where
  name := hg.name
  lookup := by
    rw [WasiStore.remove, World.note_disk, Disk.lookup_unlink_of_ne hne.symm, hg.lookup]
  behind hst := by
    rcases World.stored_note.mp hst with heq | ⟨hst, -⟩
    · cases heq
    · exact hg.behind hst

end Write

/-! ## The segments of a session -/

/-- **What holds between the calls of a session**: the cursor of the active segment is behind what stands
in its file, and the inactive segments have files of their own. -/
structure InSession (w₀ : World) (s : Segments) : Prop where
  world : Kept w₀ s.world
  active : Tail s.world s.activeSegment
  inactive : ∀ {fileId g}, s.inactiveSegments.lookup fileId = some g →
    g.store.fileName = segmentName fileId ∧ (s.world.disk.names.lookup (segmentName fileId)).isSome
  apart : s.inactiveSegments.lookup s.activeSegment.fileId = none

/-- As long as no more than this has been noted. -/
def Upto (events : List StoreEvent) (P : Segments → Prop) (s : Segments) : Prop :=
  s.world.events <+: events → P s

namespace Segments

variable {Key : Type} {lib : KeyLib Key} {env : Env} {w₀ : World} {events : List StoreEvent}

/-- **A new segment under an id that no file has**: its file is made, or nothing is. -/
theorem newSegment_of_none {s : Segments}
    (hnone : s.world.disk.names.lookup (segmentName (env.monotonicNow s.world.calls)) = none) :
    newSegment env s = (.ok (fresh env s.world), { s with world := s.world.grown env })
      ∨ newSegment env s = (Outcome.err .openFileError,
        { s with world := (nextFileId env s.world).2.after s.world.disk }) := by
  rcases hfault : env.fault (s.world.calls + 1) with _ | n
  · left
    simp only [newSegment, onWorld, Op.zoom, Op.bind_apply, nextFileId, Segment.new,
      WasiStore.open, World.note_calls, World.note_disk, World.after_calls, World.after_disk,
      hfault, hnone, Disk.openFile_of_none hnone]
    rfl
  · right
    simp only [newSegment, onWorld, Op.zoom, Op.bind_apply, nextFileId, Segment.new,
      WasiStore.open, World.note_calls, World.note_disk, World.after_calls, World.after_disk,
      hfault]
    rfl

/-- The id that `newSegment` takes, as it is noted. -/
def nextTaken (env : Env) (w : World) : StoreEvent :=
  .taken (segmentName (env.monotonicNow w.calls))
    (w.disk.names.lookup (segmentName (env.monotonicNow w.calls))).isSome

/-- …and under any id that is all that is noted. -/
theorem events_newSegment (env : Env) (s : Segments) :
    ∃ r w, newSegment env s = (r, { s with world := w })
      ∧ w.events = s.world.events ++ [nextTaken env s.world] := by
  refine ⟨_, _, Prod.ext rfl rfl, ?_⟩
  simp only [Op.bind_apply, nextFileId, Segment.new, WasiStore.open, World.note_calls,
    World.after_calls]
  rcases env.fault (s.world.calls + 1) with _ | n <;> rfl

/-! What `next` leaves of a world, where the id is one that no file has. -/

section Next

variable {w : World} (h : Kept w₀ w)
  (hnone : w.disk.names.lookup (segmentName (env.monotonicNow w.calls)) = none)

include hnone in
theorem nextFileId_eq : (nextFileId env w).2
    = (w.after w.disk).note (.taken (segmentName (env.monotonicNow w.calls)) false) := by
  rw [nextFileId, hnone]
  rfl

include h hnone in
theorem kept_nextFileId : Kept w₀ (nextFileId env w).2 := by
  rw [nextFileId_eq hnone]
  exact h.after.taken _

include hnone in
theorem tail_nextFileId {g : Segment} (hg : Tail w g) : Tail (nextFileId env w).2 g := by
  rw [nextFileId_eq hnone]
  exact hg.after.of_taken _ _

include h in
theorem mem_takenSince_nextFileId : segmentName (env.monotonicNow w.calls)
    ∈ takenSince w₀ (nextFileId env w).2.events := by
  change _ ∈ takenSince w₀ (w.events ++ [nextTaken env w])
  rw [takenSince_append h.since]
  exact List.mem_append_right _ List.mem_cons_self

include hnone in
/-- A world grows by the id and its file. -/
theorem grown_eq : w.grown env = (nextFileId env w).2.after
    (w.disk.create (segmentName (env.monotonicNow w.calls))) := by
  rw [nextFileId_eq hnone]
  rfl

end Next

/-- **What `newSegment` leaves of a world** under an id that no file has: nothing that was there has
changed, and a segment it returns has a file of its own. -/
structure Makes (w₀ w w' : World) (fileId : ℕ) (r : Outcome Error Segment) : Prop where
  unnamed : w.disk.names.lookup (segmentName fileId) = none
  kept : Kept w₀ w'
  tail : ∀ {g}, Tail w g → Tail w' g
  names : ∀ {name}, (w.disk.names.lookup name).isSome → (w'.disk.names.lookup name).isSome
  made : ∀ g, r = .ok g → Tail w' g ∧ g.fileId = fileId

/-- The file is made, or nothing is. -/
theorem makes_of_none {s : Segments} (h : Kept w₀ s.world)
    (hnone : s.world.disk.names.lookup (segmentName (env.monotonicNow s.world.calls)) = none) :
    Makes w₀ s.world (newSegment env s).2.world (env.monotonicNow s.world.calls)
      (newSegment env s).1 := by
  have hnext := kept_nextFileId h hnone
  rcases newSegment_of_none hnone with hnew | hnew
  · rw [hnew, grown_eq hnone]
    refine ⟨hnone, hnext.create (mem_takenSince_nextFileId h) hnone,
      fun hg => (tail_nextFileId hnone hg).of_create hnone, fun {name} hname => ?_, fun g hg => ?_⟩
    · by_cases heq : name = segmentName (env.monotonicNow s.world.calls)
      · rw [heq, hnone] at hname
        cases hname
      · rwa [World.after_disk, Disk.lookup_create_of_ne heq]
    · cases hg
      exact ⟨Tail.created hnext hnone, rfl⟩
  · rw [hnew]
    refine ⟨hnone, hnext.after, fun hg => (tail_nextFileId hnone hg).after, fun hname => hname,
      fun g hg => ?_⟩
    cases hg

/-- **What `newSegment` does** where the ids taken are fresh: it may fail to make the file, and touches no
other. -/
theorem newSegment_cases (hfresh : FreshIds w₀ events) (env : Env) (s : Segments) :
    ∃ r w, newSegment env s = (r, { s with world := w }) ∧ s.world.events <+: w.events
      ∧ (w.events <+: events → Kept w₀ s.world →
        Makes w₀ s.world w (env.monotonicNow s.world.calls) r) := by
  obtain ⟨r, w, hnew, hevents⟩ := events_newSegment env s
  refine ⟨r, w, hnew, ?_, fun hle h => ?_⟩
  · rw [hevents]
    exact List.prefix_append _ _
  · rw [hevents] at hle
    have hmakes := makes_of_none h (h.fresh hfresh hle)
    rwa [hnew] at hmakes

/-- **An append to a segment**: the bytes are written and the cursor moves on, or some of them are and it
does not. -/
theorem append_eq_or (lib : KeyLib Key) (env : Env) (s : Segments) (g : Segment) (e : Entry Key) :
    onWorld (g.append lib env e) s
        = (.ok (⟨g.fileId, g.store.currentWriteOffset,
              UInt32.ofNat (lib.encode (env.now s.world.calls) e).length⟩,
            g.movedOn (lib.encode (env.now s.world.calls) e)),
          { s with world := s.world.committed g (lib.encode (env.now s.world.calls) e) })
      ∨ ∃ n, onWorld (g.append lib env e) s
        = (Outcome.err .openFileError, { s with
            world := s.world.scribbled g ((lib.encode (env.now s.world.calls) e).take n) }) := by
  rw [onWorld, Op.zoom, Segment.append, Op.ask_ok_bind, Op.bind_apply, WasiStore.append]
  rcases env.fault s.world.calls with _ | n
  · exact .inl rfl
  · exact .inr ⟨n, rfl⟩

/-- **What an append does** to a segment whose cursor is behind what stands: it fails and leaves bytes
behind the cursor, or the bytes stand and the cursor is behind them. -/
theorem append_cases (lib : KeyLib Key) (env : Env) (s : Segments) (g : Segment) (e : Entry Key) :
    ∃ r w, onWorld (g.append lib env e) s = (r, { s with world := w })
      ∧ s.world.events <+: w.events ∧ w.disk.names = s.world.disk.names
      ∧ ∀ {w₀}, Kept w₀ s.world → Tail s.world g →
        Kept w₀ w ∧ (∀ {other}, other.fileId ≠ g.fileId → Tail s.world other → Tail w other)
        ∧ match r with
          | .ok (_, g') => Tail w g' ∧ g'.fileId = g.fileId
          | .error _ => Tail w g := by
  rcases append_eq_or lib env s g e with happend | ⟨n, happend⟩
  · exact ⟨_, _, happend, List.prefix_append _ _, rfl, fun h hg => ⟨h.append hg _,
      fun hne hother => hother.of_append hg hne _, hg.advance _, rfl⟩⟩
  · exact ⟨_, _, happend, List.prefix_rfl, rfl, fun h hg => ⟨h.write hg _,
      fun _ hother => hother.of_write g _, hg.of_write g _⟩⟩

/-- The inactive segments have files wherever the world has those it had. -/
theorem inactive_of_names {s : Segments} (h : InSession w₀ s) {w : World}
    (hnames : ∀ {name}, (s.world.disk.names.lookup name).isSome → (w.disk.names.lookup name).isSome)
    {fileId : ℕ} {g : Segment} (hg : s.inactiveSegments.lookup fileId = some g) :
    g.store.fileName = segmentName fileId ∧ (w.disk.names.lookup (segmentName fileId)).isSome :=
  ⟨(h.inactive hg).1, hnames (h.inactive hg).2⟩

/-- A fresh id is nobody's. -/
theorem fresh_ne {s : Segments} (h : InSession w₀ s) {fileId : ℕ}
    (hnone : s.world.disk.names.lookup (segmentName fileId) = none) :
    fileId ≠ s.activeSegment.fileId ∧ s.inactiveSegments.lookup fileId = none := by
  constructor
  · rintro rfl
    rw [h.active.lookup] at hnone
    cases hnone
  · rcases hlook : s.inactiveSegments.lookup fileId with _ | g
    · rfl
    · have := (h.inactive hlook).2
      rw [hnone] at this
      cases this

theorem keeps_rollover (hfresh : FreshIds w₀ events) :
    Op.Keeps (Upto events (InSession w₀)) (maybeRolloverActiveSegment env) := by
  intro s hs
  rw [maybeRolloverActiveSegment, Op.ask_ok_bind, Op.bind_apply, maybeRolloverSegment,
    Op.ask_ok_bind]
  split_ifs
  · obtain ⟨r, w, hnew, hevents, hmakes⟩ := newSegment_cases hfresh env s
    rw [Op.bind_apply, hnew]
    rcases r with e | g
    · intro hle
      have h := hs (hevents.trans hle)
      have hm := hmakes hle h.world
      exact ⟨hm.kept, hm.tail h.active, inactive_of_names h hm.names, h.apart⟩
    · intro hle
      have h := hs (hevents.trans hle)
      have hm := hmakes hle h.world
      obtain ⟨htail, hid⟩ := hm.made g rfl
      obtain ⟨hne, hinactive⟩ := fresh_ne h hm.unnamed
      rw [← hid] at hne hinactive
      refine ⟨hm.kept, htail, fun {fileId g'} hg' => ?_, ?_⟩
      · change (s.inactiveSegments.insert _ _).lookup fileId = some g' at hg'
        by_cases heq : fileId = s.activeSegment.fileId
        · subst heq
          obtain rfl := Option.some.inj ((AList.lookup_insert _).symm.trans hg')
          have hact := (hm.tail h.active).lookup
          exact ⟨h.active.name, Option.isSome_iff_exists.mpr ⟨_, hact⟩⟩
        · rw [AList.lookup_insert_ne heq] at hg'
          exact inactive_of_names h hm.names hg'
      · change (s.inactiveSegments.insert _ _).lookup g.fileId = none
        rw [AList.lookup_insert_ne hne, hinactive]
  · exact hs

/-- **An append to the store keeps the session.** -/
theorem keeps_appendEntry (hfresh : FreshIds w₀ events) (e : Entry Key) :
    Op.Keeps (Upto events (InSession w₀)) (appendEntry lib env e) := by
  refine (keeps_rollover hfresh).bind fun _ s hs => ?_
  rw [Op.ask_ok_bind, Op.bind_apply]
  obtain ⟨r, w, happend, hevents, hnames, hdoes⟩ := append_cases lib env s s.activeSegment e
  have hstill : ∀ {name}, (s.world.disk.names.lookup name).isSome →
      (w.disk.names.lookup name).isSome := fun hname => by rwa [hnames]
  rw [happend]
  rcases r with e | ⟨response, g⟩
  · intro hle
    have h := hs (hevents.trans hle)
    obtain ⟨hkept, -, htail⟩ := hdoes h.world h.active
    exact ⟨hkept, htail, inactive_of_names h hstill, h.apart⟩
  · intro hle
    have h := hs (hevents.trans hle)
    obtain ⟨hkept, -, htail, hid⟩ := hdoes h.world h.active
    refine ⟨hkept, htail, inactive_of_names h hstill, ?_⟩
    change s.inactiveSegments.lookup g.fileId = none
    rw [hid]
    exact h.apart

/-! ## Writing back -/

/-- A session, with a segment beside the active one that is being written to. -/
def WritingBack (w₀ : World) (g : Segment) (s : Segments) : Prop :=
  InSession w₀ s ∧ Tail s.world g ∧ g.fileId ≠ s.activeSegment.fileId

theorem meets_append (e : Entry Key) (g : Segment) :
    Op.Meets (Upto events (WritingBack w₀ g)) (onWorld (g.append lib env e))
      (fun x => Upto events (WritingBack w₀ x.2)) (Upto events (InSession w₀)) := by
  intro s hs
  obtain ⟨r, w, happend, hevents, hnames, hdoes⟩ := append_cases lib env s g e
  have hstill : ∀ {name}, (s.world.disk.names.lookup name).isSome →
      (w.disk.names.lookup name).isSome := fun hname => by rwa [hnames]
  rw [happend]
  rcases r with e | ⟨response, g'⟩
  · intro hle
    obtain ⟨h, hg, hne⟩ := hs (hevents.trans hle)
    obtain ⟨hkept, hother, -⟩ := hdoes h.world hg
    exact ⟨hkept, hother hne.symm h.active, inactive_of_names h hstill, h.apart⟩
  · intro hle
    obtain ⟨h, hg, hne⟩ := hs (hevents.trans hle)
    obtain ⟨hkept, hother, htail, hid⟩ := hdoes h.world hg
    exact ⟨⟨hkept, hother hne.symm h.active, inactive_of_names h hstill, h.apart⟩, htail,
      by rw [hid]; exact hne⟩

/-- A new segment joins the inactive ones. -/
theorem meets_newInactive (hfresh : FreshIds w₀ events) :
    Op.Meets (Upto events (InSession w₀))
      (do
        let segment ← newSegment env
        addInactive segment
        pure segment)
      (fun g => Upto events (WritingBack w₀ g)) (Upto events (InSession w₀)) := by
  intro s hs
  obtain ⟨r, w, hnew, hevents, hmakes⟩ := newSegment_cases hfresh env s
  rw [Op.bind_apply, hnew]
  rcases r with e | g
  · intro hle
    have h := hs (hevents.trans hle)
    have hm := hmakes hle h.world
    exact ⟨hm.kept, hm.tail h.active, inactive_of_names h hm.names, h.apart⟩
  · intro hle
    have h := hs (hevents.trans hle)
    have hm := hmakes hle h.world
    obtain ⟨htail, hid⟩ := hm.made g rfl
    obtain ⟨hne, hinactive⟩ := fresh_ne h hm.unnamed
    rw [← hid] at hne hinactive
    refine ⟨⟨hm.kept, hm.tail h.active, fun {fileId g'} hg' => ?_, ?_⟩, htail, hne⟩
    · change (s.inactiveSegments.insert _ _).lookup fileId = some g' at hg'
      by_cases heq : fileId = g.fileId
      · subst heq
        obtain rfl := Option.some.inj ((AList.lookup_insert _).symm.trans hg')
        exact ⟨htail.name, Option.isSome_iff_exists.mpr ⟨_, htail.lookup⟩⟩
      · rw [AList.lookup_insert_ne heq] at hg'
        exact inactive_of_names h hm.names hg'
    · change (s.inactiveSegments.insert _ _).lookup s.activeSegment.fileId = none
      rw [AList.lookup_insert_ne hne.symm]
      exact h.apart

theorem meets_rolloverInactive (hfresh : FreshIds w₀ events) (g : Segment) :
    Op.Meets (Upto events (WritingBack w₀ g)) (rolloverInactive env g)
      (fun g' => Upto events (WritingBack w₀ g')) (Upto events (InSession w₀)) := by
  intro s hs
  have hnew := @meets_newInactive env w₀ events hfresh s fun hle => (hs hle).1
  rw [rolloverInactive, Op.bind_apply, maybeRolloverSegment, Op.ask_ok_bind]
  split_ifs
  · rw [Op.bind_apply] at hnew ⊢
    rcases hx : newSegment env s with ⟨_ | _, _⟩
    · rw [hx] at hnew
      exact hnew
    · rw [hx] at hnew
      exact hnew
  · exact hs

/-- **The loop of `write_back` keeps the session.** -/
theorem meets_writeBackTo (hfresh : FreshIds w₀ events)
    (changes : List (Key × MappedStoredEntry Key)) (g : Segment) :
    Op.Meets (Upto events (WritingBack w₀ g)) (writeBackTo lib env g changes)
      (fun _ => Upto events (InSession w₀)) (Upto events (InSession w₀)) := by
  induction changes generalizing g with
  | nil => exact Op.Meets.pure fun s hs hle => (hs hle).1
  | cons change changes ih =>
    refine (meets_append _ g).bind ?_
    rintro ⟨response, g₁⟩
    refine (meets_rolloverInactive hfresh g₁).bind fun g₂ => ?_
    exact (ih g₂).bind fun _ => Op.Meets.pure fun _ hs => hs

theorem keeps_writeBack (hfresh : FreshIds w₀ events)
    (changes : List (Key × MappedStoredEntry Key)) :
    Op.Keeps (Upto events (InSession w₀)) (writeBack lib env changes) := by
  intro s hs
  have hrun : writeBack lib env changes s
      = ((do
            let segment ← newSegment env
            addInactive segment
            pure segment) >>= fun segment => writeBackTo lib env segment changes) s := by
    rw [writeBack, Op.bind_apply, Op.bind_apply, Op.bind_apply]
    rcases newSegment env s with ⟨_ | _, _⟩ <;> rfl
  rw [hrun]
  exact ((meets_newInactive hfresh).bind fun g => meets_writeBackTo hfresh changes g).snd hs

theorem events_remove (s : Segments) (fileIds : List ℕ) :
    s.world.events <+: (s.remove fileIds).world.events := by
  induction fileIds generalizing s with
  | nil => exact List.prefix_rfl
  | cons fileId fileIds ih =>
    refine List.IsPrefix.trans ?_ (ih (s.removeOne fileId))
    rw [removeOne]
    split
    · exact List.prefix_append _ _
    · exact List.prefix_rfl

/-- **Removing files keeps the session.** -/
theorem inSession_remove {s : Segments} (h : InSession w₀ s) (fileIds : List ℕ) :
    InSession w₀ (s.remove fileIds) := by
  induction fileIds generalizing s with
  | nil => exact h
  | cons fileId fileIds ih =>
    refine ih ?_
    rw [removeOne]
    rcases hlook : s.inactiveSegments.lookup fileId with _ | g
    · exact h
    · obtain ⟨hname, -⟩ := h.inactive hlook
      have hne := ne_active_of_inactive h.apart hlook
      refine ⟨h.world.remove g.store, h.active.of_remove ?_, fun {fileId' g'} hg' => ?_, ?_⟩
      · rw [hname]
        exact fun heq => hne (segmentName_injective heq)
      · change (s.inactiveSegments.erase fileId).lookup fileId' = some g' at hg'
        have hne' : fileId' ≠ fileId := by
          rintro rfl
          rw [AList.lookup_erase] at hg'
          cases hg'
        rw [AList.lookup_erase_ne hne'] at hg'
        obtain ⟨hname', hsome⟩ := h.inactive hg'
        refine ⟨hname', ?_⟩
        change ((s.world.disk.unlink g.store.fileName).names.lookup (segmentName fileId')).isSome
        rw [hname, Disk.lookup_unlink_of_ne fun heq => hne' (segmentName_injective heq)]
        exact hsome
      · change (s.inactiveSegments.erase fileId).lookup s.activeSegment.fileId = none
        rw [AList.lookup_erase_ne hne.symm]
        exact h.apart

/-! ## Opening a directory -/

/-- A session whose inactive segments are being found, with the names still to look at. -/
def Finding (w₀ : World) (files : List FileName) (s : Segments) : Prop :=
  InSession w₀ s ∧ ∀ name ∈ files, (s.world.disk.names.lookup name).isSome

/-- Opening what is there takes no id. -/
theorem keeps_events_reloadOne (P : List StoreEvent → Prop) (env : Env) (name : FileName) :
    Op.Keeps (fun s => P s.world.events) (reloadOne env name) := by
  have hopen : ∀ fileId, Op.Keeps (fun s : Segments => P s.world.events)
      (onWorld (Segment.new env fileId)) := by
    intro fileId
    refine Op.Keeps.zoom (Q := fun w => P w.events) (Op.Keeps.bind (fun w hw => ?_)
      fun _ => Op.Keeps.pure _) (fun _ hs => hs) fun _ _ _ hw => hw
    rw [WasiStore.open]
    split
    · exact hw
    · exact hw
  rw [reloadOne]
  split_ifs
  · refine (Op.Keeps.lift _).bind fun fileId => (Op.Keeps.ask _).bind fun active => ?_
    split_ifs
    · exact (hopen fileId).bind fun _ => Op.Keeps.update fun _ hs => hs
    · exact Op.Keeps.pure _
  · exact Op.Keeps.pure _

/-- A file that is there is opened as an inactive segment. -/
theorem inSession_reopen {s : Segments} (h : InSession w₀ s) {fileId node : ℕ}
    (hne : fileId ≠ s.activeSegment.fileId)
    (hthere : (s.world.disk.names.lookup (segmentName fileId)).isSome) :
    InSession w₀ { s with
      world := s.world.after s.world.disk
      inactiveSegments := s.inactiveSegments.insert fileId (reopened fileId node) } := by
  refine ⟨h.world.after, h.active.after, fun {fileId' g} hg => ?_, ?_⟩
  · change (s.inactiveSegments.insert fileId _).lookup fileId' = some g at hg
    by_cases heq : fileId' = fileId
    · subst heq
      obtain rfl := Option.some.inj ((AList.lookup_insert _).symm.trans hg)
      exact ⟨rfl, hthere⟩
    · rw [AList.lookup_insert_ne heq] at hg
      exact h.inactive hg
  · change (s.inactiveSegments.insert fileId _).lookup s.activeSegment.fileId = none
    rw [AList.lookup_insert_ne (Ne.symm hne)]
    exact h.apart

/-- **One round of `reload`** opens a file that is there. -/
theorem meets_reloadOne {files : List FileName} {name : FileName} (hname : name ∈ files) :
    Op.Meets (Upto events (Finding w₀ files)) (reloadOne env name)
      (fun _ => Upto events (Finding w₀ files))
      (Upto events fun s => Kept w₀ s.world) := by
  intro s hs
  by_cases hle : s.world.events <+: events
  · obtain ⟨h, hfiles⟩ := hs hle
    obtain ⟨fileId, rfl⟩ := h.world.named (hfiles name hname)
    obtain ⟨node, hnode⟩ := Option.isSome_iff_exists.mp (hfiles _ hname)
    by_cases hact : fileId = s.activeSegment.fileId
    · rw [hact, reloadOne_active]
      exact hs
    · rcases reloadOne_cases env hact hnode with hok | ⟨-, e, herr⟩
      · rw [hok]
        exact fun _ => ⟨inSession_reopen h hact (hfiles _ hname), hfiles⟩
      · rw [herr]
        exact fun _ => h.world.after
  · have hmore := keeps_events_reloadOne (fun l => ¬l <+: events) env name s hle
    rcases hrun : reloadOne env name s with ⟨_ | _, s'⟩
    · rw [hrun] at hmore
      exact fun hle' => absurd hle' hmore
    · rw [hrun] at hmore
      exact fun hle' => absurd hle' hmore

/-- **A directory is opened into a session.** -/
theorem meets_newSegments (hfresh : FreshIds w₀ events) (maxSegmentSizeBytes : UInt64) :
    Op.Meets (Upto events fun s => Kept w₀ s.world) (KVStore.newSegments env maxSegmentSizeBytes)
      (fun _ => Upto events (InSession w₀)) (Upto events fun s => Kept w₀ s.world) := by
  have hopen : Op.Meets (Upto events fun s => Kept w₀ s.world) (newSegment env)
      (fun g => Upto events fun s => Kept w₀ s.world ∧ Tail s.world g)
      (Upto events fun s => Kept w₀ s.world) := by
    intro s hs
    obtain ⟨r, w, hnew, hevents, hmakes⟩ := newSegment_cases hfresh env s
    rw [hnew]
    rcases r with e | g
    · intro hle
      have h := hs (hevents.trans hle)
      exact (hmakes hle h).kept
    · intro hle
      have hm := hmakes hle (hs (hevents.trans hle))
      exact ⟨hm.kept, (hm.made g rfl).1⟩
  refine hopen.bind fun g => Op.Meets.bind
    (Q := fun _ => Upto events (InSession w₀)) (Op.Meets.update fun s hs hle => ?_) fun _ => ?_
  · obtain ⟨hkept, hg⟩ := hs hle
    exact ⟨hkept, hg, fun hlook => by simp at hlook, AList.lookup_empty _⟩
  · intro s hs
    have hfiles : ∀ name ∈ WasiStore.getFiles s.world,
        (s.world.disk.names.lookup name).isSome := fun name hmem =>
      AList.lookup_isSome.mpr (AList.mem_keys.mpr hmem)
    have hloop : Op.Meets _ (ForM.forM (WasiStore.getFiles s.world) (reloadOne env)) _ _ :=
      Op.Meets.forM fun name hmem => @meets_reloadOne env w₀ events _ name hmem
    rw [reload, Op.ask_ok_bind]
    exact (hloop.post (fun _ _ h hle => (h hle).1) fun _ h => h) s fun hle => ⟨hs hle, hfiles⟩

end Segments

/-! ## The store -/

namespace KVStore

open Segments

variable {Key : Type} [DecidableEq Key] {lib : KeyLib Key} {env : Env} {w₀ : World} {events : List StoreEvent}

omit [DecidableEq Key] in
theorem keeps_onSegments {α : Type} {P : Segments → Prop} {x : Op Error Segments α}
    (h : Op.Keeps P x) : Op.Keeps (fun s : KVStore Key => P s.segments) (onSegments x) :=
  h.zoom (fun _ hs => hs) fun _ _ _ ht => ht

theorem keeps_beginMerge (hfresh : FreshIds w₀ events) (readOrder : SegmentOrder)
    (writeOrder : ChangeOrder Key) :
    Op.Keeps (fun s : KVStore Key => Upto events (InSession w₀) s.segments)
      (beginMerge lib env readOrder writeOrder) := by
  refine (Op.Keeps.ask _).bind fun contents => ?_
  split_ifs
  · refine Op.Keeps.attempt (Op.Keeps.bind (keeps_onSegments (keeps_writeBack hfresh _)) fun _ =>
      Op.Keeps.update fun s hs hle => ?_)
    exact inSession_remove (hs ((events_remove _ _).trans hle)) _
  · exact Op.Keeps.pure _

/-- **What a session calls keeps the session**, however the call ends. -/
theorem keeps_writes (hfresh : FreshIds w₀ events) {x : Step Key} (hx : x.Writes) :
    Op.Keeps (fun s : KVStore Key => Upto events (InSession w₀) s.segments) (x.run lib env) := by
  rcases x with ⟨readOrder, writeOrder, key, value⟩ | key | ⟨config, order⟩
  · have hmerge : Op.Keeps (fun s : KVStore Key => Upto events (InSession w₀) s.segments)
        (mergeIfDue lib env readOrder writeOrder) := by
      refine (Op.Keeps.ask _).bind fun due => ?_
      split_ifs
      · exact (keeps_beginMerge hfresh _ _).bind fun _ => Op.Keeps.update fun _ hs => hs
      · exact Op.Keeps.pure _
    exact hmerge.bind fun _ => (keeps_onSegments (keeps_appendEntry hfresh _)).bind fun _ =>
      Op.Keeps.update fun _ hs => hs
  · exact (keeps_onSegments (keeps_appendEntry hfresh _)).bind fun _ =>
      Op.Keeps.update fun _ hs => hs
  · exact hx.elim

/-- **Opening makes a session**, or fails and keeps the directory. -/
theorem meets_new (hfresh : FreshIds w₀ events) (config : Config) (order : SegmentOrder) :
    Op.Meets (fun s : KVStore Key => Upto events (fun s => Kept w₀ s.world) s.segments)
      (new lib env config order) (fun _ s => Upto events (InSession w₀) s.segments)
      (fun s => Upto events (fun s => Kept w₀ s.world) s.segments) := by
  have hopen : Op.Meets (fun s : KVStore Key => Upto events (fun s => Kept w₀ s.world) s.segments)
      (onSegments (newSegments env config.maxSegmentSizeBytes))
      (fun _ s => Upto events (InSession w₀) s.segments)
      (fun s => Upto events (fun s => Kept w₀ s.world) s.segments) := by
    intro s hs
    have h := @meets_newSegments env w₀ events hfresh config.maxSegmentSizeBytes s.segments hs
    rw [onSegments, Op.zoom]
    rcases hrun : newSegments env config.maxSegmentSizeBytes s.segments with ⟨_ | _, _⟩
    · rw [hrun] at h
      exact h
    · rw [hrun] at h
      exact h
  refine hopen.bind fun _ => Op.Meets.bind (Q := fun _ s => Upto events (InSession w₀) s.segments)
    (Op.Meets.update fun _ hs => hs) fun _ => ?_
  refine Op.Meets.bind (Q := fun s' _ => Upto events (InSession w₀) s'.segments)
    (Op.Meets.ask (fun s' s hs hreload => ?_) fun s hs hle => (hs hle).world) fun s' =>
    Op.Meets.update fun _ hs => hs
  obtain ⟨contents, -, rfl⟩ := reload_eq_ok hreload
  exact hs

end KVStore

/-! ## Histories -/

variable {Key : Type} [DecidableEq Key]

/-- **A history of one directory**: sessions that are opened, or fail to be, and the calls of the sessions,
however they end.  `since` is the number of calls when the last session was opened, the flag says whether
it is open, and `allowed` is what is asked of a call, by what the world was before it and after. -/
inductive History (lib : KeyLib Key) (env : Env) (allowed : ℕ → World → World → Prop) :
    ℕ → Bool → KVStore Key → Prop
  | start : History lib env allowed 0 false (.closed .empty)
  | reopen {since : ℕ} {isOpen : Bool} {s : KVStore Key} (config : Config) (order : SegmentOrder) :
    History lib env allowed since isOpen s →
      allowed s.segments.world.calls s.segments.world
        (KVStore.new lib env config order s).2.segments.world →
      History lib env allowed s.segments.world.calls
        (KVStore.new lib env config order s).1.isOk (KVStore.new lib env config order s).2
  | call {since : ℕ} {s : KVStore Key} {x : Step Key} :
    History lib env allowed since true s → x.Writes →
      allowed since s.segments.world (x.run lib env s).2.segments.world →
      History lib env allowed since true (x.run lib env s).2

variable {lib : KeyLib Key} {env : Env}

/-- A world as a call finds it. -/
theorem Kept.rebase {w₀ w : World} (h : Kept w₀ w) : Kept w w where
  since := List.prefix_rfl
  named := h.named
  drawn := .inl
  appendOnly := h.appendOnly
  unshared := h.unshared

theorem kept_empty : Kept .empty .empty where
  since := List.prefix_rfl
  named h := by simp [World.empty, Disk.empty] at h
  drawn := .inl
  appendOnly _ _ _ hst := by
    obtain ⟨pre, post, heq, -⟩ := hst
    simp [World.empty] at heq
  unshared _ h := by simp [World.empty] at h

theorem InSession.rebase {w₀ : World} {s : Segments} (h : InSession w₀ s) :
    InSession s.world s := ⟨h.world.rebase, h.active, h.inactive, h.apart⟩

/-- **In a history whose calls take fresh ids**, what was appended stands, and an open session has its
cursor behind it. -/
theorem History.kept {since : ℕ} {isOpen : Bool} {s : KVStore Key}
    (h : History lib env (fun _ w w' => FreshIds w w'.events) since isOpen s) :
    Kept s.segments.world s.segments.world
      ∧ (isOpen = true → InSession s.segments.world s.segments) := by
  induction h with
  | start => exact ⟨kept_empty, fun h => by cases h⟩
  | @reopen since isOpen s config order _ hfresh ih =>
    have h := @KVStore.meets_new _ _ lib env _ _ hfresh config order s fun _ => ih.1
    rcases hrun : KVStore.new lib env config order s with ⟨e | _, s'⟩
    · rw [hrun] at h
      exact ⟨(h List.prefix_rfl).rebase, fun hopen => by cases hopen⟩
    · rw [hrun] at h
      exact ⟨(h List.prefix_rfl).world.rebase, fun _ => (h List.prefix_rfl).rebase⟩
  | call _ hx hfresh ih =>
    have hs' := KVStore.keeps_writes hfresh hx _ (fun _ => ih.2 rfl) List.prefix_rfl
    exact ⟨hs'.world.rebase, fun _ => hs'.rebase⟩

/-- **The log is append-only as long as the ids a call takes are fresh**: what an append has written is
where it was written until the file is removed, and no segment takes the id of another's file. -/
theorem appendOnly_of_fresh {since : ℕ} {isOpen : Bool} {s : KVStore Key}
    (h : History lib env (fun _ w w' => FreshIds w w'.events) since isOpen s) :
    s.segments.world.AppendOnly ∧ ∀ name, .taken name true ∉ s.segments.world.events :=
  ⟨h.kept.1.appendOnly, h.kept.1.unshared⟩

/-- A session that was opened. -/
theorem History.opened (config : Config) (order : SegmentOrder)
    {allowed : ℕ → World → World → Prop} {since : ℕ} {isOpen : Bool} {s s' : KVStore Key}
    (h : History lib env allowed since isOpen s) (hrun : KVStore.new lib env config order s = (.ok (), s'))
    (hok : allowed s.segments.world.calls s.segments.world s'.segments.world) :
    History lib env allowed s.segments.world.calls true s' := by
  have := h.reopen config order (by rw [hrun]; exact hok)
  rwa [hrun] at this

/-- A session whose third record rolls over… -/
def writtenInPairs : KVStore (List UInt8) :=
  (KVStore.update byteKeys steady .asKept .asKept [9] [3]
    (KVStore.update byteKeys steady .asKept .asKept [8] [2]
      (KVStore.update byteKeys steady .asKept .asKept [7] [1]
        (KVStore.new byteKeys steady pairSegments .asKept (.closed .empty)).2).2).2).2

/-- …and one after it that writes a key again. -/
def writtenInTwo : KVStore (List UInt8) :=
  (KVStore.update byteKeys steady .asKept .asKept [7] [4]
    (KVStore.new byteKeys steady pairSegments .asKept writtenInPairs).2).2

/-- The statement after the two sessions, where three ids were taken and the first record still stands
before the second in its file. -/
theorem appendOnly_writtenInTwo :
    takenNames writtenInTwo.segments.world.events = [0, 4, 7].map segmentName
      ∧ writtenInTwo.segments.world.Stored (segmentName 0) 0 (byteKeys.bytes ⟨[7], [1], 0, 1000⟩)
      ∧ writtenInTwo.segments.world.AppendOnly
      ∧ ∀ name, .taken name true ∉ writtenInTwo.segments.world.events := by
  have hfirst : History byteKeys steady (fun _ w w' => FreshIds w w'.events) 0 true writtenInPairs :=
    .call (x := .update .asKept .asKept [9] [3])
      (.call (x := .update .asKept .asKept [8] [2])
        (.call (x := .update .asKept .asKept [7] [1])
          (History.opened pairSegments .asKept .start (Prod.ext rfl rfl) (by decide +kernel))
          trivial (by decide +kernel))
        trivial (by decide +kernel))
      trivial (by decide +kernel)
  refine ⟨by decide +kernel, ⟨[.taken (segmentName 0) false], _, rfl, by decide +kernel⟩, ?_⟩
  exact @appendOnly_of_fresh _ _ byteKeys steady _ true _
    (.call (x := .update .asKept .asKept [7] [4])
      (History.opened pairSegments .asKept hfirst (Prod.ext rfl rfl) (by decide +kernel))
      trivial (by decide +kernel))

/-! ## A clock that starts over -/

/-- A monotonic clock that starts over when the second session is opened. -/
def restarting : Env := ⟨fun _ => 1000, fun i => if i < 3 then i else i - 3, fun _ => none⟩

/-- A session that writes a record… -/
def firstSession : KVStore (List UInt8) :=
  (KVStore.update byteKeys restarting .asKept .asKept [7] [1]
    (KVStore.new byteKeys restarting libraryConfig .asKept (.closed .empty)).2).2

/-- …and one after it that writes another. -/
def secondSession : KVStore (List UInt8) :=
  (KVStore.update byteKeys restarting .asKept .asKept [8] [2]
    (KVStore.new byteKeys restarting libraryConfig .asKept firstSession).2).2

/-- The clock does not go back within a session. -/
def MonotoneSince (env : Env) (since : ℕ) (_ w : World) : Prop :=
  ∀ i j, since ≤ i → i ≤ j → j < w.calls → env.monotonicNow i ≤ env.monotonicNow j

theorem history_secondSession :
    History byteKeys restarting (MonotoneSince restarting) 3 true secondSession := by
  have hfirst : History byteKeys restarting (MonotoneSince restarting) 0 true firstSession := by
    refine .call (x := .update .asKept .asKept [7] [1])
      (History.opened libraryConfig .asKept .start (Prod.ext rfl rfl) ?_) trivial ?_
    · intro i j _ hij hj
      have hj : j < 2 := hj
      simp only [restarting]
      split_ifs <;> omega
    · intro i j _ hij hj
      have hj : j < 3 := hj
      simp only [restarting]
      split_ifs <;> omega
  refine .call (x := .update .asKept .asKept [8] [2])
    (History.opened libraryConfig .asKept hfirst (Prod.ext rfl rfl) ?_) trivial ?_
  · intro i j hi hij _
    have hi : 3 ≤ i := hi
    simp only [restarting]
    split_ifs <;> omega
  · intro i j hi hij _
    have hi : 3 ≤ i := hi
    simp only [restarting]
    split_ifs <;> omega

/-- **The log is not append-only under every clock**: the second session takes the first one's file and
writes over its record. -/
theorem not_appendOnly_restarting :
    ¬∀ (env : Env) (since : ℕ) (isOpen : Bool) (s : KVStore (List UInt8)),
      History byteKeys env (MonotoneSince env) since isOpen s → s.segments.world.AppendOnly := by
  intro hall
  have hstored : secondSession.segments.world.Stored (segmentName 0) 0
      (byteKeys.bytes ⟨[7], [1], 0, 1000⟩) :=
    ⟨[.taken (segmentName 0) false], [.taken (segmentName 0) true,
      .appended (segmentName 0) 0 (byteKeys.bytes ⟨[8], [2], 0, 1000⟩)], by decide +kernel,
      by decide +kernel⟩
  obtain ⟨file, hfile, hbytes⟩ := hall restarting 3 true secondSession history_secondSession _ _ _ hstored
  have hover : secondSession.segments.world.disk.file (segmentName 0)
      = some (byteKeys.bytes ⟨[8], [2], 0, 1000⟩) := by decide +kernel
  obtain rfl := Option.some.inj (hover.symm.trans hfile)
  revert hbytes
  decide +kernel

end Bitspend.Kv
