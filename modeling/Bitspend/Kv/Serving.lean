import Bitspend.Kv.AppendOnly

/-!
# Kv/Serving — segments behind a key directory

What a reader sees of the segments is the windows that the key directory opens on their files.  `Serves`
keeps these apart from where writes go: an entry of the directory lies before the cursor of the active
segment, or in a file that is not written to.  A call on the segments keeps `Serves` and shows the same
in every window (`Serving`), however it ends: after a rollover, after a write that stopped half way, after
a part of a merge.

File ids are taken to be distinct, and nothing else is asked of the outside.
-/

namespace Bitspend.Kv

/-! ## Reading through the directory -/

namespace Segments

variable {s : Segments}

/-- The bytes an entry of the key directory stands for, where its segment is open. -/
def window (s : Segments) (r : AppendEntryResponse) : Option (List UInt8) :=
  (s.segment? r.fileId).map fun g => g.store.read s.world r.offset r.entryLength

theorem read_eq_window (s : Segments) (r : AppendEntryResponse) :
    s.read r.fileId r.offset r.entryLength
      = Outcome.okOr (.fileNotFound r.fileId) (s.window r) >>= decode := by
  rw [read, window]
  rcases s.segment? r.fileId with _ | g <;> rfl

end Segments

variable {Key : Type} [DecidableEq Key]

/-- **`get` sees the directory and its windows**, and nothing else. -/
theorem KVStore.get_eq_of_window {s s' : KVStore Key} {key : Key}
    (hdir : s'.keyDirectory.lookup key = s.keyDirectory.lookup key)
    (hwin : ∀ {r}, s.keyDirectory.lookup key = some r →
      s'.segments.window r = s.segments.window r) : s'.get key = s.get key := by
  rcases hr : s.keyDirectory.lookup key with _ | r
  · rw [get_of_none hr, get_of_none (hdir.trans hr)]
  · rw [get_of_some hr, get_of_some (hdir.trans hr), Segments.read_eq_window,
      Segments.read_eq_window, hwin hr]

/-! ## What a session keeps -/

namespace Segments

/-- **The id was handed out.** -/
def Drawn (env : Env) (w : World) (fileId : ℕ) : Prop := ∃ i < w.calls, fileId = env.monotonicNow i

/-- **Files have ids that were handed out.** -/
def Named (env : Env) (w : World) : Prop := ∀ name, (w.disk.names.lookup name).isSome →
  ∃ fileId, name = segmentName fileId ∧ Drawn env w fileId

/-- **A place for an entry of the directory**: a file whose id was handed out, and before the cursor if
it is the active one. -/
structure Placed (env : Env) (s : Segments) (r : AppendEntryResponse) : Prop where
  drawn : Drawn env s.world r.fileId
  before : r.fileId = s.activeSegment.fileId →
    r.offset + r.entryLength.toNat ≤ s.activeSegment.store.currentWriteOffset

/-- **The segments serve the directory**: they are the files of their ids, and the entries of the
directory have their places. -/
structure Serves (env : Env) (d : KeyDirectory Key) (s : Segments) : Prop where
  named : Named env s.world
  node : ∀ {fileId g}, s.segment? fileId = some g →
    s.world.disk.names.lookup (segmentName fileId) = some g.store.fileDescriptor
  own : ∀ {fileId g}, s.segment? fileId = some g → g.store.fileName = segmentName fileId
  apart : s.inactiveSegments.lookup s.activeSegment.fileId = none
  cursor : s.activeSegment.store.currentWriteOffset
    ≤ (s.world.disk.content s.activeSegment.store.fileDescriptor).length
  placed : ∀ {key r}, d.lookup key = some r → Placed env s r

/-- **…and its windows show what they showed.** -/
structure Serving (env : Env) (d : KeyDirectory Key) (s₀ s : Segments) : Prop where
  serves : Serves env d s
  same : ∀ {key r}, d.lookup key = some r → s.window r = s₀.window r

section

variable {env : Env} {d : KeyDirectory Key} {s₀ s s' : Segments}

omit [DecidableEq Key] in
theorem Drawn.mono {w w' : World} {fileId : ℕ} (h : Drawn env w fileId) (hle : w.calls ≤ w'.calls) :
    Drawn env w' fileId := by
  obtain ⟨i, hi, heq⟩ := h
  exact ⟨i, hi.trans_le hle, heq⟩

omit [DecidableEq Key] in
/-- A reading that is to come was not handed out. -/
theorem Drawn.ne (hids : Function.Injective env.monotonicNow) {w : World} {fileId : ℕ}
    (h : Drawn env w fileId) : fileId ≠ env.monotonicNow w.calls := by
  rintro rfl
  obtain ⟨i, hi, heq⟩ := h
  exact hi.ne (hids heq).symm

omit [DecidableEq Key] in
theorem Named.wait {w w' : World} (h : Named env w) (hdisk : w'.disk = w.disk)
    (hcalls : w.calls ≤ w'.calls) : Named env w' := by
  intro name hname
  rw [hdisk] at hname
  obtain ⟨fileId, rfl, hdrawn⟩ := h name hname
  exact ⟨fileId, rfl, hdrawn.mono hcalls⟩

omit [DecidableEq Key] in
theorem Named.grow {w : World} (h : Named env w) : Named env (w.grown env) := by
  intro name hname
  by_cases heq : name = segmentName (env.monotonicNow w.calls)
  · exact ⟨_, heq, w.calls, Nat.lt_add_of_pos_right Nat.two_pos, rfl⟩
  · rw [World.grown, Disk.lookup_create_of_ne heq] at hname
    obtain ⟨fileId, rfl, hdrawn⟩ := h name hname
    exact ⟨fileId, rfl, hdrawn.mono (Nat.le_add_right _ 2)⟩

omit [DecidableEq Key] in
/-- **The next id is nobody's**: no file has it… -/
theorem Named.lookup_next {w : World} (h : Named env w) (hids : Function.Injective env.monotonicNow) :
    w.disk.names.lookup (segmentName (env.monotonicNow w.calls)) = none := by
  rcases hlook : w.disk.names.lookup (segmentName (env.monotonicNow w.calls)) with _ | node
  · rfl
  · obtain ⟨fileId, hname, hdrawn⟩ := h _ (Option.isSome_iff_exists.mpr ⟨node, hlook⟩)
    exact absurd (segmentName_injective hname).symm (hdrawn.ne hids)

namespace Serves

theorem serving (h : Serves env d s) : Serving env d s s := ⟨h, fun _ => rfl⟩

theorem active (h : Serves env d s) :
    s.world.disk.names.lookup (segmentName s.activeSegment.fileId)
      = some s.activeSegment.store.fileDescriptor := h.node (segment?_active s)

/-- …and no segment. -/
theorem ne_next (h : Serves env d s) (hids : Function.Injective env.monotonicNow) {fileId : ℕ}
    {g : Segment} (hg : s.segment? fileId = some g) : fileId ≠ env.monotonicNow s.world.calls := by
  rintro rfl
  cases (h.node hg).symm.trans (h.named.lookup_next hids)

end Serves

/-! ## What a call does -/

omit [DecidableEq Key] in
/-- The segments after bytes were written whole to the active one. -/
def extended (s : Segments) (bytes : List UInt8) : Segments :=
  { s with
    world := s.world.committed s.activeSegment bytes
    activeSegment := s.activeSegment.movedOn bytes }

omit [DecidableEq Key] in
/-- All but the cursors of the segments is as it was. -/
theorem map_segment?_extended {α : Type} (s : Segments) (bytes : List UInt8) (f : Segment → α)
    (hf : ∀ g, f (Segment.movedOn g bytes) = f g) (fileId : ℕ) :
    ((s.extended bytes).segment? fileId).map f = (s.segment? fileId).map f := by
  by_cases hid : fileId = s.activeSegment.fileId
  · subst hid
    rw [segment?_active]
    exact (congrArg (Option.map f) (segment?_active (s.extended bytes))).trans
      (congrArg some (hf s.activeSegment))
  · rw [segment?_of_ne hid]
    exact congrArg (Option.map f) (segment?_of_ne (s := s.extended bytes) hid)

namespace Serving

/-- A call that leaves the directory of files alone. -/
theorem wait (h : Serving env d s₀ s) {w : World} (hdisk : w.disk = s.world.disk)
    (hcalls : s.world.calls ≤ w.calls) : Serving env d s₀ { s with world := w } where
  serves :=
    { named := h.serves.named.wait hdisk hcalls
      node := fun {fileId g} hg => by
        rw [hdisk]
        exact h.serves.node hg
      own := h.serves.own
      apart := h.serves.apart
      cursor := by
        rw [hdisk]
        exact h.serves.cursor
      placed := fun hr => ⟨(h.serves.placed hr).drawn.mono hcalls, (h.serves.placed hr).before⟩ }
  same {key r} hr := by
    rw [← h.same hr, window, window]
    simp only [WasiStore.read, hdisk]
    rfl

/-- **A new segment joins the others**, wherever it is put. -/
theorem grow (h : Serving env d s₀ s) (hids : Function.Injective env.monotonicNow)
    (hworld : s'.world = s.world.grown env)
    (hseg : ∀ fileId, s'.segment? fileId
      = if fileId = env.monotonicNow s.world.calls then some (fresh env s.world)
        else s.segment? fileId)
    (hapart : s'.inactiveSegments.lookup s'.activeSegment.fileId = none)
    (hactive : s'.activeSegment = s.activeSegment ∨ s'.activeSegment = fresh env s.world) :
    Serving env d s₀ s' := by
  have hcalls : s.world.calls ≤ s'.world.calls := by
    rw [hworld]
    exact Nat.le_add_right _ 2
  have hold : ∀ {fileId g}, s.segment? fileId = some g →
      s'.world.disk.names.lookup (segmentName fileId) = some g.store.fileDescriptor
        ∧ s'.world.disk.content g.store.fileDescriptor
          = s.world.disk.content g.store.fileDescriptor := by
    intro fileId g hg
    have hne : segmentName fileId ≠ segmentName (env.monotonicNow s.world.calls) :=
      fun heq => h.serves.ne_next hids hg (segmentName_injective heq)
    rw [hworld, World.grown, Disk.lookup_create_of_ne hne]
    exact ⟨h.serves.node hg, Disk.content_create_of_lt (s.world.disk.linked (h.serves.node hg))⟩
  refine ⟨⟨hworld ▸ h.serves.named.grow, fun {fileId g} hg => ?_, fun {fileId g} hg => ?_, hapart,
    ?_, fun {key r} hr => ?_⟩, fun {key r} hr => ?_⟩
  · rw [hseg] at hg
    split_ifs at hg with hid
    · cases hg
      rw [hid, hworld, World.grown, Disk.lookup_create]
      rfl
    · exact (hold hg).1
  · rw [hseg] at hg
    split_ifs at hg with hid
    · cases hg
      rw [hid]
      rfl
    · exact h.serves.own hg
  · rcases hactive with hactive | hactive
    · rw [hactive, (hold (segment?_active s)).2]
      exact h.serves.cursor
    · rw [hactive]
      exact Nat.zero_le _
  · refine ⟨(h.serves.placed hr).drawn.mono hcalls, fun heq => ?_⟩
    rcases hactive with hactive | hactive
    · rw [hactive] at heq ⊢
      exact (h.serves.placed hr).before heq
    · rw [hactive] at heq
      exact absurd heq ((h.serves.placed hr).drawn.ne hids)
  · rw [← h.same hr, window, window, hseg, if_neg ((h.serves.placed hr).drawn.ne hids)]
    rcases hg : s.segment? r.fileId with _ | g
    · rfl
    · rw [Option.map_some, Option.map_some, WasiStore.read, WasiStore.read, (hold hg).2]

/-- …beside the active one… -/
theorem withInactive (h : Serving env d s₀ s) (hids : Function.Injective env.monotonicNow) :
    Serving env d s₀ (s.withInactive env) := by
  have hne := h.serves.ne_next hids (segment?_active s)
  refine h.grow hids rfl (segment?_withInactive hne) ?_ (.inl rfl)
  change (s.inactiveSegments.insert _ _).lookup s.activeSegment.fileId = none
  rw [AList.lookup_insert_ne hne]
  exact h.serves.apart

/-- …or in its place. -/
theorem rolledOver (h : Serving env d s₀ s) (hids : Function.Injective env.monotonicNow) :
    Serving env d s₀ (s.rolledOver env) := by
  have hne := h.serves.ne_next hids (segment?_active s)
  refine h.grow hids rfl (segment?_rolledOver env s) ?_ (.inr rfl)
  change (s.inactiveSegments.insert _ _).lookup (env.monotonicNow s.world.calls) = none
  rw [AList.lookup_insert_ne hne.symm, ← segment?_of_ne hne.symm]
  rcases hg : s.segment? (env.monotonicNow s.world.calls) with _ | g
  · rfl
  · exact absurd rfl (h.serves.ne_next hids hg)

/-- **A write behind every entry of its file** changes nothing that is read. -/
theorem write (h : Serving env d s₀ s) {g : Segment} {w : World} {bytes : List UInt8}
    (hlink : s.world.disk.names.lookup (segmentName g.fileId) = some g.store.fileDescriptor)
    (hpast : ∀ {key r}, d.lookup key = some r → r.fileId = g.fileId →
      r.offset + r.entryLength.toNat ≤ g.store.currentWriteOffset
        ∧ g.store.currentWriteOffset ≤ (s.world.disk.content g.store.fileDescriptor).length)
    (hdisk : w.disk = s.world.disk.writeAt g.store.fileDescriptor g.store.currentWriteOffset bytes)
    (hcalls : s.world.calls ≤ w.calls) : Serving env d s₀ { s with world := w } := by
  have hnode := s.world.disk.linked hlink
  refine ⟨⟨fun name hname => ?_, fun {fileId g'} hg' => ?_, h.serves.own, h.serves.apart, ?_,
    fun hr => ⟨(h.serves.placed hr).drawn.mono hcalls, (h.serves.placed hr).before⟩⟩,
    fun {key r} hr => ?_⟩
  · rw [hdisk] at hname
    obtain ⟨fileId, rfl, hdrawn⟩ := h.serves.named name hname
    exact ⟨fileId, rfl, hdrawn.mono hcalls⟩
  · rw [hdisk]
    exact h.serves.node hg'
  · refine h.serves.cursor.trans ?_
    rw [hdisk]
    by_cases heq : g.store.fileDescriptor = s.activeSegment.store.fileDescriptor
    · rw [← heq, Disk.content_writeAt hnode]
      exact (le_length_overwrite _ _ _).1
    · rw [Disk.content_writeAt_of_ne heq]
  · rw [← h.same hr, window, window]
    change (s.segment? r.fileId).map _ = _
    rcases hg' : s.segment? r.fileId with _ | g'
    · rfl
    · refine congrArg some ?_
      change ((w.disk.content _).drop _).take _ = ((s.world.disk.content _).drop _).take _
      rw [hdisk]
      by_cases heq : r.fileId = g.fileId
      · have hsame : g'.store.fileDescriptor = g.store.fileDescriptor := by
          have := h.serves.node hg'
          rw [heq, hlink, Option.some.injEq] at this
          exact this.symm
        obtain ⟨hle, hin⟩ := hpast hr heq
        rw [hsame, Disk.content_writeAt hnode]
        exact take_drop_overwrite_of_le bytes hle (hle.trans hin)
      · rw [Disk.content_writeAt_of_ne]
        intro hsame
        have hnode' := h.serves.node hg'
        rw [← hsame] at hnode'
        exact heq (segmentName_injective (s.world.disk.apart hnode' hlink))

/-- A write to the active segment is behind every entry of its file. -/
theorem write_active (h : Serving env d s₀ s) {w : World} {bytes : List UInt8}
    (hdisk : w.disk = s.world.disk.writeAt s.activeSegment.store.fileDescriptor
      s.activeSegment.store.currentWriteOffset bytes)
    (hcalls : s.world.calls ≤ w.calls) : Serving env d s₀ { s with world := w } :=
  h.write h.serves.active (fun hr heq => ⟨(h.serves.placed hr).before heq, h.serves.cursor⟩) hdisk
    hcalls

/-- …and when it was whole, the cursor moves on behind it. -/
theorem append (h : Serving env d s₀ s) (bytes : List UInt8) :
    Serving env d s₀ (s.extended bytes) := by
  have hw : Serving env d s₀ { s with world := s.world.committed s.activeSegment bytes } :=
    h.write_active rfl (Nat.le_succ _)
  refine ⟨⟨hw.serves.named, fun {fileId g} hg => ?_, fun {fileId g} hg => ?_, h.serves.apart, ?_,
    fun hr => ⟨(hw.serves.placed hr).drawn, fun heq => ?_⟩⟩, fun {key r} hr => ?_⟩
  · have hsame := map_segment?_extended s bytes (fun g => g.store.fileDescriptor) (fun _ => rfl) fileId
    rw [hg] at hsame
    obtain ⟨g', hg', hnode⟩ := Option.map_eq_some_iff.mp hsame.symm
    exact (hw.serves.node hg').trans (congrArg some hnode)
  · have hsame := map_segment?_extended s bytes (fun g => g.store.fileName) (fun _ => rfl) fileId
    rw [hg] at hsame
    obtain ⟨g', hg', hname⟩ := Option.map_eq_some_iff.mp hsame.symm
    exact hname.symm.trans (h.serves.own hg')
  · change s.activeSegment.store.currentWriteOffset + bytes.length
      ≤ ((s.world.disk.writeAt s.activeSegment.store.fileDescriptor
        s.activeSegment.store.currentWriteOffset bytes).content
          s.activeSegment.store.fileDescriptor).length
    rw [Disk.content_writeAt (s.world.disk.linked h.serves.active)]
    exact (le_length_overwrite _ _ _).2
  · exact ((h.serves.placed hr).before heq).trans (Nat.le_add_right _ _)
  · rw [← hw.same hr]
    exact map_segment?_extended s bytes (fun g => g.store.read _ _ _) (fun _ => rfl) r.fileId

/-- The bytes are then read where they were written. -/
theorem window_extended (h : Serving env d s₀ s) {bytes : List UInt8} {r : AppendEntryResponse}
    (hid : r.fileId = s.activeSegment.fileId)
    (hoffset : r.offset = s.activeSegment.store.currentWriteOffset)
    (hlen : r.entryLength.toNat ≤ bytes.length) :
    (s.extended bytes).window r = some (bytes.take r.entryLength.toNat) := by
  rw [window, hid]
  refine (congrArg (Option.map _) (segment?_active (s.extended bytes))).trans (congrArg some ?_)
  change (((s.world.disk.writeAt s.activeSegment.store.fileDescriptor
    s.activeSegment.store.currentWriteOffset bytes).content
      s.activeSegment.store.fileDescriptor).drop r.offset).take r.entryLength.toNat = _
  rw [Disk.content_writeAt (s.world.disk.linked h.serves.active), hoffset,
    ← Nat.min_eq_left hlen, ← List.take_take, take_drop_overwrite, Nat.min_eq_left hlen]

end Serving

/-- **What an append has put there**: the bytes of the entry, at the end of the active segment. -/
structure Written (lib : KeyLib Key) (s : Segments) (e : Entry Key) (r : AppendEntryResponse) :
    Prop where
  active : r.fileId = s.activeSegment.fileId
  before : r.offset + r.entryLength.toNat ≤ s.activeSegment.store.currentWriteOffset
  bytes : ∃ now, r.entryLength = UInt32.ofNat (lib.encode now e).length
    ∧ s.window r = some ((lib.encode now e).take r.entryLength.toNat)

variable {lib : KeyLib Key}

theorem serving_rollover (hids : Function.Injective env.monotonicNow) :
    Op.Keeps (Serving env d s₀) (maybeRolloverActiveSegment env) := by
  intro s h
  rw [maybeRolloverActiveSegment, Op.ask_ok_bind, Op.bind_apply, maybeRolloverSegment,
    Op.ask_ok_bind]
  split_ifs
  · rcases newSegment_of_none (h.serves.named.lookup_next hids) with hnew | hnew
    · rw [Op.bind_apply, hnew]
      exact h.rolledOver hids
    · rw [Op.bind_apply, hnew]
      exact h.wait rfl (Nat.le_add_right _ 2)
  · exact h

/-- **An append to the store** changes nothing the directory shows, and puts its entry there if it
returns. -/
theorem serving_appendEntry (hids : Function.Injective env.monotonicNow) (e : Entry Key) :
    Op.Meets (Serving env d s₀) (appendEntry lib env e)
      (fun r s => Serving env d s₀ s ∧ Written lib s e r) (Serving env d s₀) := by
  refine Op.Meets.bind (Q := fun _ => Serving env d s₀) ?_ fun _ s h => ?_
  · exact Op.Meets.of_keeps (serving_rollover hids)
  · rw [Op.ask_ok_bind, Op.bind_apply]
    rcases append_eq_or lib env s s.activeSegment e with happend | ⟨n, happend⟩
    · rw [happend]
      have hlen : (UInt32.ofNat (lib.encode (env.now s.world.calls) e).length).toNat
          ≤ (lib.encode (env.now s.world.calls) e).length := by
        rw [UInt32.toNat_ofNat']
        exact Nat.mod_le _ _
      exact ⟨h.append _, rfl, Nat.add_le_add_left hlen _, _, rfl, h.window_extended rfl rfl hlen⟩
    · rw [happend]
      exact h.write_active rfl (Nat.le_succ _)

/-! ## Writing back -/

/-- The id was handed out, and is not the active segment's. -/
def Elsewhere (env : Env) (s : Segments) (fileId : ℕ) : Prop :=
  Drawn env s.world fileId ∧ fileId ≠ s.activeSegment.fileId

/-- **A merge is writing to a segment** beside the active one, under an id the directory does not name;
`ids` are those it has written under. -/
structure Aside (env : Env) (d : KeyDirectory Key) (s₀ : Segments) (ids : Set ℕ) (g : Segment)
    (s : Segments) : Prop where
  serving : Serving env d s₀ s
  link : s.world.disk.names.lookup (segmentName g.fileId) = some g.store.fileDescriptor
  unnamed : ∀ {key r}, d.lookup key = some r → r.fileId ≠ g.fileId
  elsewhere : ∀ fileId ∈ insert g.fileId ids, Elsewhere env s fileId

variable {ids : Set ℕ}

theorem aside_append (e : Entry Key) (g : Segment) :
    Op.Meets (Aside env d s₀ ids g) (onWorld (g.append lib env e))
      (fun x => Aside env d s₀ (insert x.1.fileId ids) x.2) (Serving env d s₀) := by
  intro s h
  have hwrite : ∀ {w : World} {bytes : List UInt8},
      w.disk = s.world.disk.writeAt g.store.fileDescriptor g.store.currentWriteOffset bytes →
        s.world.calls ≤ w.calls → Serving env d s₀ { s with world := w } := fun hdisk hcalls =>
    h.serving.write h.link (fun hr heq => absurd heq (h.unnamed hr)) hdisk hcalls
  rcases append_eq_or lib env s g e with happend | ⟨n, happend⟩
  · rw [happend]
    refine ⟨hwrite rfl (Nat.le_succ _), h.link, h.unnamed, fun fileId hid => ?_⟩
    have hold : fileId ∈ insert g.fileId ids := by
      rcases hid with rfl | hid
      · exact Set.mem_insert _ _
      · exact hid
    exact ⟨(h.elsewhere fileId hold).1.mono (Nat.le_succ _), (h.elsewhere fileId hold).2⟩
  · rw [happend]
    exact hwrite rfl (Nat.le_succ _)

/-- A new segment for the merge. -/
theorem aside_withInactive (hids : Function.Injective env.monotonicNow) (h : Serving env d s₀ s)
    (helse : ∀ fileId ∈ ids, Elsewhere env s fileId) :
    Aside env d s₀ ids (fresh env s.world) (s.withInactive env) where
  serving := h.withInactive hids
  link := Disk.lookup_create
  unnamed hr := (h.serves.placed hr).drawn.ne hids
  elsewhere fileId hid := by
    rcases hid with rfl | hid
    · exact ⟨⟨s.world.calls, Nat.lt_add_of_pos_right Nat.two_pos, rfl⟩,
        (h.serves.ne_next hids (segment?_active s)).symm⟩
    · exact ⟨(helse fileId hid).1.mono (Nat.le_add_right _ 2), (helse fileId hid).2⟩

theorem aside_rollover (hids : Function.Injective env.monotonicNow) (g : Segment) :
    Op.Meets (Aside env d s₀ ids g) (rolloverInactive env g) (fun g' => Aside env d s₀ ids g')
      (Serving env d s₀) := by
  intro s h
  rw [rolloverInactive, Op.bind_apply, maybeRolloverSegment, Op.ask_ok_bind]
  split_ifs
  · rcases newSegment_of_none (h.serving.serves.named.lookup_next hids) with hnew | hnew
    · rw [Op.bind_apply, hnew]
      exact aside_withInactive hids h.serving fun fileId hid =>
        h.elsewhere fileId (Set.mem_insert_of_mem _ hid)
    · rw [Op.bind_apply, hnew]
      exact h.serving.wait rfl (Nat.le_add_right _ 2)
  · exact h

/-- **The loop of `write_back`** changes nothing the directory shows, wherever it stops. -/
theorem serving_writeBackTo (hids : Function.Injective env.monotonicNow)
    (changes : List (Key × MappedStoredEntry Key)) (ids : Set ℕ) (g : Segment) :
    Op.Meets (Aside env d s₀ ids g) (writeBackTo lib env g changes)
      (fun responses s => Serving env d s₀ s ∧ (∀ fileId ∈ ids, Elsewhere env s fileId)
        ∧ ∀ x ∈ responses, Elsewhere env s x.2.fileId) (Serving env d s₀) := by
  induction changes generalizing ids g with
  | nil =>
    refine Op.Meets.pure fun s h => ⟨h.serving, fun fileId hid =>
      h.elsewhere fileId (Set.mem_insert_of_mem _ hid), fun x hx => ?_⟩
    cases hx
  | cons change changes ih =>
    refine (aside_append _ g).bind ?_
    rintro ⟨response, g₁⟩
    refine (aside_rollover hids g₁).bind fun g₂ => (ih _ g₂).bind fun responses =>
      Op.Meets.pure ?_
    rintro s ⟨h, helse, hresponses⟩
    refine ⟨h, fun fileId hid => helse fileId (Set.mem_insert_of_mem _ hid), fun x hx => ?_⟩
    rcases List.mem_cons.mp hx with rfl | hx
    · exact helse _ (Set.mem_insert _ _)
    · exact hresponses x hx

theorem serving_writeBack (hids : Function.Injective env.monotonicNow)
    (changes : List (Key × MappedStoredEntry Key)) :
    Op.Meets (Serving env d s₀) (writeBack lib env changes)
      (fun responses s => Serving env d s₀ s ∧ ∀ x ∈ responses, Elsewhere env s x.2.fileId)
      (Serving env d s₀) := by
  intro s h
  rw [writeBack, Op.bind_apply]
  rcases newSegment_of_none (h.serves.named.lookup_next hids) with hnew | hnew
  · rw [hnew]
    have hloop : Op.Meets (Aside env d s₀ ∅ (fresh env s.world))
        (writeBackTo lib env (fresh env s.world) changes)
        (fun responses s => Serving env d s₀ s ∧ ∀ x ∈ responses, Elsewhere env s x.2.fileId)
        (Serving env d s₀) :=
      (serving_writeBackTo hids changes ∅ _).post (fun _ _ h' => ⟨h'.1, h'.2.2⟩) fun _ h' => h'
    exact hloop (s.withInactive env) (aside_withInactive hids h fun _ hid => hid.elim)
  · rw [hnew]
    exact h.wait rfl (Nat.le_add_right _ 2)

/-- Removing an inactive segment leaves the others to be served… -/
theorem Serves.removeInactive (h : Serves env d s) {fileId : ℕ} {g : Segment}
    (hlook : s.inactiveSegments.lookup fileId = some g) : Serves env d (s.removeOne fileId) := by
  have hact := ne_active_of_inactive h.apart hlook
  have hseg := segment?_removeOne h.apart fileId
  have hname := h.own ((segment?_of_ne hact).trans hlook)
  have hs := removeOne_of_some hlook
  have hdisk : (s.removeOne fileId).world.disk = s.world.disk.unlink (segmentName fileId) := by
    rw [hs, ← hname]
    rfl
  refine ⟨fun name hsome => ?_, fun {id g'} hg' => ?_, fun {id g'} hg' => ?_, ?_, ?_, fun hr => ?_⟩
  · by_cases heq : name = segmentName fileId
    · rw [hdisk, heq, Disk.lookup_unlink] at hsome
      cases hsome
    · rw [hdisk, Disk.lookup_unlink_of_ne heq] at hsome
      obtain ⟨id, rfl, hdrawn⟩ := h.named name hsome
      exact ⟨id, rfl, by rw [hs]; exact hdrawn⟩
  · rw [hseg] at hg'
    split_ifs at hg' with hid
    have hne : id ≠ fileId := by
      rintro rfl
      exact hid ⟨rfl, hact⟩
    rw [hdisk, Disk.lookup_unlink_of_ne fun heq => hne (segmentName_injective heq)]
    exact h.node hg'
  · rw [hseg] at hg'
    split_ifs at hg'
    exact h.own hg'
  · rw [hs]
    change (s.inactiveSegments.erase fileId).lookup s.activeSegment.fileId = none
    rw [AList.lookup_erase_ne hact.symm]
    exact h.apart
  · rw [hs]
    exact h.cursor
  · rw [hs]
    exact ⟨(h.placed hr).drawn, (h.placed hr).before⟩

/-- …**and so does removing files.** -/
theorem Serves.remove (h : Serves env d s) (fileIds : List ℕ) : Serves env d (s.remove fileIds) := by
  induction fileIds generalizing s with
  | nil => exact h
  | cons fileId fileIds ih =>
    refine ih ?_
    rcases hlook : s.inactiveSegments.lookup fileId with _ | g
    · rwa [removeOne_of_none hlook]
    · exact h.removeInactive hlook

/-! ## Opening a directory -/

/-- The segments of a directory that was just opened, before its files are looked at. -/
theorem serves_started (h : Named env s.world) (maxSegmentSizeBytes : UInt64) :
    Serves env (∅ : KeyDirectory Key)
      ⟨s.world.grown env, fresh env s.world, ∅, maxSegmentSizeBytes⟩ := by
  have hseg : ∀ {fileId g},
      segment? ⟨s.world.grown env, fresh env s.world, ∅, maxSegmentSizeBytes⟩ fileId = some g →
        fileId = env.monotonicNow s.world.calls ∧ g = fresh env s.world := by
    intro fileId g hg
    rw [segment?] at hg
    split_ifs at hg with hid
    · cases hg
      exact ⟨hid, rfl⟩
    · cases hg
  refine ⟨h.grow, fun hg => ?_, fun hg => ?_, AList.lookup_empty _, Nat.zero_le _, fun hr => ?_⟩
  · obtain ⟨rfl, rfl⟩ := hseg hg
    exact Disk.lookup_create
  · obtain ⟨rfl, rfl⟩ := hseg hg
    rfl
  · cases hr

/-- A file of the directory is opened as an inactive segment. -/
theorem Serves.reopen (h : Serves env d s) {fileId node : ℕ}
    (hnode : s.world.disk.names.lookup (segmentName fileId) = some node)
    (hne : fileId ≠ s.activeSegment.fileId) :
    Serves env d { s with
      inactiveSegments := s.inactiveSegments.insert fileId (reopened fileId node) } := by
  have hseg : ∀ {id g}, segment? { s with
      inactiveSegments := s.inactiveSegments.insert fileId (reopened fileId node) } id = some g →
        id = fileId ∧ g = reopened fileId node ∨ s.segment? id = some g := by
    intro id g hg
    by_cases hid : id = fileId
    · subst hid
      rw [segment?, AList.lookup_insert] at hg
      split_ifs at hg with hact
      · exact absurd hact hne
      cases hg
      exact .inl ⟨rfl, rfl⟩
    · rw [segment?, AList.lookup_insert_ne hid] at hg
      exact .inr hg
  refine ⟨h.named, fun {id g} hg => ?_, fun {id g} hg => ?_, ?_, h.cursor, fun hr =>
    ⟨(h.placed hr).drawn, (h.placed hr).before⟩⟩
  · rcases hseg hg with ⟨rfl, rfl⟩ | hold
    · exact hnode
    · exact h.node hold
  · rcases hseg hg with ⟨rfl, rfl⟩ | hold
    · rfl
    · exact h.own hold
  · exact (AList.lookup_insert_ne hne.symm).trans h.apart

theorem serves_reloadOne {files : List FileName} {name : FileName} (hname : name ∈ files) :
    Op.Meets (fun s => Serves env d s ∧ ∀ name ∈ files, (s.world.disk.names.lookup name).isSome)
      (reloadOne env name)
      (fun _ s => Serves env d s ∧ ∀ name ∈ files, (s.world.disk.names.lookup name).isSome)
      (fun s => Named env s.world) := by
  rintro s ⟨h, hfiles⟩
  obtain ⟨fileId, rfl, -⟩ := h.named name (hfiles name hname)
  obtain ⟨node, hnode⟩ := Option.isSome_iff_exists.mp (hfiles _ hname)
  have hwait := (h.serving.wait (w := s.world.after s.world.disk) rfl (Nat.le_succ _)).serves
  by_cases hact : fileId = s.activeSegment.fileId
  · rw [hact, reloadOne_active]
    exact ⟨h, hfiles⟩
  · rcases reloadOne_cases env hact hnode with hok | ⟨-, e, herr⟩
    · rw [hok]
      exact ⟨hwait.reopen hnode hact, hfiles⟩
    · rw [herr]
      exact hwait.named

/-- **A directory is opened into segments that serve**, or its files stay named. -/
theorem serves_newSegments (hids : Function.Injective env.monotonicNow)
    (maxSegmentSizeBytes : UInt64) :
    Op.Meets (fun s => Named env s.world) (KVStore.newSegments env maxSegmentSizeBytes)
      (fun _ s => Serves env (∅ : KeyDirectory Key) s) (fun s => Named env s.world) := by
  intro s h
  rw [KVStore.newSegments, Op.bind_apply]
  rcases newSegment_of_none (h.lookup_next hids) with hnew | hnew
  · rw [hnew]
    have hloop : Op.Meets _ (ForM.forM (WasiStore.getFiles (s.world.grown env)) (reloadOne env)) _ _ :=
      Op.Meets.forM fun name hmem => @serves_reloadOne Key _ env ∅ _ name hmem
    have hfiles : ∀ name ∈ WasiStore.getFiles (s.world.grown env),
        ((s.world.grown env).disk.names.lookup name).isSome := fun name hmem =>
      AList.lookup_isSome.mpr (AList.mem_keys.mpr hmem)
    exact hloop.post (fun _ _ h' => h'.1) (fun _ h' => h') _
      ⟨serves_started h maxSegmentSizeBytes, hfiles⟩
  · rw [hnew]
    exact h.wait rfl (Nat.le_add_right _ 2)

end

end Segments

end Bitspend.Kv
