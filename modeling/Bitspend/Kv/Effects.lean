import Bitspend.Kv.Merge

/-!
# Kv/Effects — the files, one effect at a time

What a call does to the directory is a list of effects: a file is made, a record is appended to the log
of a file, a file is dropped.  `Does` says that a call did so and that each effect was allowed when it
came; `does_step` says what an operation of the store is allowed.  A record is appended to a file with
room for it, and it is the operation's own or a copy of one that was read; a file is dropped once its
keys stand elsewhere, or were deleted.

The effects are the events that are noted of a run, so whatever holds of the files between two effects
holds whenever the process stops there.
-/

namespace Bitspend.Kv

open Segments

variable {Key : Type}

/-- A record of a log is in its layout. -/
theorem KeyLib.exists_layout_of_mem (lib : KeyLib Key) {log : List (Entry Key)} (offset : ℕ)
    {e : Entry Key} (he : e ∈ log) : ∃ r ∈ lib.layout offset log, r.key = e.key := by
  induction log generalizing offset with
  | nil => cases he
  | cons e' log ih =>
    rcases List.mem_cons.mp he with rfl | he
    · exact ⟨lib.mapped offset e, List.mem_cons_self, rfl⟩
    · obtain ⟨r, hr, hkey⟩ := ih (offset + (lib.bytes e').length) he
      exact ⟨r, List.mem_cons_of_mem _ hr, hkey⟩

/-! ## Replaying events -/

/-- What an event does to the directory. -/
def StoreEvent.apply (d : Disk FileName) : StoreEvent → Disk FileName
  | .taken fileName _ => (d.openFile fileName).2
  | .appended fileName offset bytes =>
    match d.names.lookup fileName with
    | some node => d.writeAt node offset bytes
    | none => d
  | .removed fileName => d.unlink fileName

/-- The directory after some events. -/
def replay (d : Disk FileName) (events : List StoreEvent) : Disk FileName :=
  events.foldl StoreEvent.apply d

theorem apply_taken_of_none {d : Disk FileName} {name : FileName} {existed : Bool}
    (h : d.names.lookup name = none) : (StoreEvent.taken name existed).apply d = d.create name := by
  rw [StoreEvent.apply, Disk.openFile_of_none h]

theorem apply_appended {d : Disk FileName} {name : FileName} {node offset : ℕ} {bytes : List UInt8}
    (h : d.names.lookup name = some node) :
    (StoreEvent.appended name offset bytes).apply d = d.writeAt node offset bytes := by
  rw [StoreEvent.apply, h]

/-! ## Effects -/

/-- What a call does to the files. -/
inductive Effect (Key : Type) where
  | make (fileId : ℕ)
  | append (fileId : ℕ) (e : Entry Key)
  | drop (fileId : ℕ)

namespace Effect

variable (lib : KeyLib Key) (env : Env) (log : ℕ → List (Entry Key))

/-- What is noted of it. -/
def event : Effect Key → StoreEvent
  | make fileId => .taken (segmentName fileId) false
  | append fileId e => .appended (segmentName fileId) (lib.file (log fileId)).length (lib.bytes e)
  | drop fileId => .removed (segmentName fileId)

/-- The logs after it. -/
def after : Effect Key → ℕ → List (Entry Key)
  | make _ => log
  | append fileId e => Function.update log fileId (log fileId ++ [e])
  | drop fileId => Function.update log fileId []

/-- A file is made under an id that was handed out and names none, and a record is appended to a file
that is there. -/
def Possible (calls : ℕ) (d : Disk FileName) : Effect Key → Prop
  | make fileId => (∃ i < calls, fileId = env.monotonicNow i)
    ∧ d.names.lookup (segmentName fileId) = none
  | append fileId _ => (d.names.lookup (segmentName fileId)).isSome
  | drop _ => True

variable {lib env log} {calls : ℕ} {d : Disk FileName} {events : List StoreEvent} {x : Effect Key}

theorem Possible.mono {calls' : ℕ} (h : x.Possible env calls d) (hle : calls ≤ calls') :
    x.Possible env calls' d := by
  rcases x with fileId | ⟨fileId, e⟩ | fileId
  · obtain ⟨⟨i, hi, hid⟩, hnone⟩ := h
    exact ⟨⟨i, hi.trans_le hle, hid⟩, hnone⟩
  · exact h
  · exact h

/-- **An effect changes the logs as it says.** -/
theorem holds (h : World.Holds lib env ⟨d, calls, events⟩ log) (hx : x.Possible env calls d) :
    World.Holds lib env ⟨(x.event lib log).apply d, calls, events⟩ (x.after log) := by
  rcases x with fileId | ⟨fileId, e⟩ | fileId
  · obtain ⟨⟨i, hi, rfl⟩, hnone⟩ := hx
    rw [event, apply_taken_of_none hnone]
    refine ⟨fun {name node} hn => ?_, fun id => ?_⟩
    · by_cases hname : name = segmentName (env.monotonicNow i)
      · exact ⟨i, hi, hname⟩
      · exact h.named ((Disk.lookup_create_of_ne hname).symm.trans hn)
    · by_cases hid : id = env.monotonicNow i
      · rw [hid, Disk.file_create, after, h.log_of_none hnone]
        rfl
      · rw [Disk.file_create_of_ne fun hname => hid (segmentName_injective hname)]
        exact h.file id
  · obtain ⟨node, hnode⟩ := Option.isSome_iff_exists.mp hx
    rw [event, apply_appended hnode]
    exact ⟨h.named, (h.write hnode e (.removed [])).file⟩
  · exact ⟨(h.unlink fileId).named, (h.unlink fileId).file⟩

end Effect

/-! ## Sequences of effects -/

section Follows

variable (lib : KeyLib Key) (env : Env) (allowed : (ℕ → List (Entry Key)) → Effect Key → Prop)

/-- **One effect after another**, each possible and allowed where it comes, with what is noted of
them. -/
inductive Follows (calls : ℕ) : Disk FileName → (ℕ → List (Entry Key)) → List StoreEvent →
    Disk FileName → (ℕ → List (Entry Key)) → Prop
  | done {d : Disk FileName} {log : ℕ → List (Entry Key)} : Follows calls d log [] d log
  | next {d d' : Disk FileName} {log log' : ℕ → List (Entry Key)} {x : Effect Key}
    {events : List StoreEvent} : x.Possible env calls d → allowed log x →
    Follows calls ((x.event lib log).apply d) (x.after log) events d' log' →
      Follows calls d log (x.event lib log :: events) d' log'

variable {lib env allowed} {calls : ℕ} {d d' d'' : Disk FileName}
  {log log' log'' : ℕ → List (Entry Key)} {events events' : List StoreEvent}

namespace Follows

theorem single {x : Effect Key} (hx : x.Possible env calls d) (hallowed : allowed log x) :
    Follows lib env allowed calls d log [x.event lib log] ((x.event lib log).apply d) (x.after log) :=
  .next hx hallowed .done

theorem trans (h : Follows lib env allowed calls d log events d' log')
    (h' : Follows lib env allowed calls d' log' events' d'' log'') :
    Follows lib env allowed calls d log (events ++ events') d'' log'' := by
  induction h with
  | done => exact h'
  | next hx hallowed _ ih => exact .next hx hallowed (ih h')

theorem mono {calls' : ℕ} (hle : calls ≤ calls') (h : Follows lib env allowed calls d log events d' log') :
    Follows lib env allowed calls' d log events d' log' := by
  induction h with
  | done => exact .done
  | next hx hallowed _ ih => exact .next (hx.mono hle) hallowed ih

/-- Where the events are cut, the effects are. -/
theorem split (h : Follows lib env allowed calls d log (events ++ events') d'' log'') :
    ∃ d' log', Follows lib env allowed calls d log events d' log'
      ∧ Follows lib env allowed calls d' log' events' d'' log'' := by
  induction events generalizing d log with
  | nil => exact ⟨d, log, .done, h⟩
  | cons event events ih =>
    cases h with
    | next hx hallowed hrest =>
      obtain ⟨d', log', h₁, h₂⟩ := ih hrest
      exact ⟨d', log', .next hx hallowed h₁, h₂⟩

/-- **The directory is what a replay of the events gives.** -/
theorem replay_eq (h : Follows lib env allowed calls d log events d' log') :
    d' = replay d events := by
  induction h with
  | done => rfl
  | next _ _ _ ih => exact ih

/-- **The files hold the logs all along…** -/
theorem holds (h : Follows lib env allowed calls d log events d' log') {noted : List StoreEvent}
    (hd : World.Holds lib env ⟨d, calls, noted⟩ log) :
    World.Holds lib env ⟨d', calls, noted⟩ log' := by
  induction h with
  | done => exact hd
  | next hx _ _ ih => exact ih (Effect.holds hd hx)

/-- …and **what every allowed effect keeps, holds all along**. -/
theorem keeps {P : (ℕ → List (Entry Key)) → Prop}
    (hP : ∀ {log x}, P log → allowed log x → P (x.after log))
    (h : Follows lib env allowed calls d log events d' log') (hlog : P log) : P log' := by
  induction h with
  | done => exact hlog
  | next _ hallowed _ ih => exact ih (hP hlog hallowed)

end Follows

/-- **A call has followed effects** from one world to another. -/
structure Does (lib : KeyLib Key) (env : Env)
    (allowed : (ℕ → List (Entry Key)) → Effect Key → Prop) (w : World) (log : ℕ → List (Entry Key))
    (w' : World) (log' : ℕ → List (Entry Key)) : Prop where
  calls : w.calls ≤ w'.calls
  follows : ∃ events, w'.events = w.events ++ events
    ∧ Follows lib env allowed w'.calls w.disk log events w'.disk log'

namespace Does

variable {w w' w'' : World}

/-- A call that leaves the directory alone. -/
theorem wait (hcalls : w.calls ≤ w'.calls) (hdisk : w'.disk = w.disk) (hevents : w'.events = w.events) :
    Does lib env allowed w log w' log := by
  refine ⟨hcalls, [], by rw [hevents, List.append_nil], ?_⟩
  rw [hdisk]
  exact .done

theorem refl (w : World) (log : ℕ → List (Entry Key)) : Does lib env allowed w log w log :=
  wait le_rfl rfl rfl

theorem trans (h : Does lib env allowed w log w' log') (h' : Does lib env allowed w' log' w'' log'') :
    Does lib env allowed w log w'' log'' := by
  obtain ⟨hcalls, events, hevents, hfollows⟩ := h
  obtain ⟨hcalls', events', hevents', hfollows'⟩ := h'
  exact ⟨hcalls.trans hcalls', events ++ events', by rw [hevents', hevents, List.append_assoc],
    (hfollows.mono hcalls').trans hfollows'⟩

/-- A call that has one effect. -/
theorem single {x : Effect Key} (hcalls : w.calls ≤ w'.calls) (hx : x.Possible env w'.calls w.disk)
    (hallowed : allowed log x) (hdisk : w'.disk = (x.event lib log).apply w.disk)
    (hevents : w'.events = w.events ++ [x.event lib log]) :
    Does lib env allowed w log w' (x.after log) := by
  refine ⟨hcalls, _, hevents, ?_⟩
  rw [hdisk]
  exact .single hx hallowed

end Does

end Follows

/-! ## Appending -/

/-- **There is room in a file**: it is empty, or shorter than the limit, which is cast to `i64`. -/
def Room (lib : KeyLib Key) (limit : UInt64) (log : ℕ → List (Entry Key)) (fileId : ℕ) : Prop :=
  log fileId = [] ∨ ((lib.file (log fileId)).length : ℤ) < limit.toInt64.toInt

namespace Segments

variable {lib : KeyLib Key} {env : Env} {log : ℕ → List (Entry Key)} {s : Segments}
  {allowed : (ℕ → List (Entry Key)) → Effect Key → Prop}

/-- A full segment is rolled over… -/
theorem maybeRolloverSegment_of_full (henv : env.Behaves) (h : s.world.Holds lib env log) {g : Segment}
    (hfull : s.maxSegmentSizeBytes.toInt64.toInt ≤ (g.store.currentWriteOffset : ℤ)) :
    maybeRolloverSegment env g s
      = (.ok (some (fresh env s.world)), { s with world := s.world.grown env }) := by
  rw [maybeRolloverSegment, Op.ask_ok_bind, decide_eq_true hfull, if_pos rfl, Op.bind_apply,
    newSegment_eq henv h]
  rfl

/-- …and any other is not. -/
theorem maybeRolloverSegment_of_lt {g : Segment}
    (hlt : (g.store.currentWriteOffset : ℤ) < s.maxSegmentSizeBytes.toInt64.toInt) :
    maybeRolloverSegment env g s = (.ok none, s) := by
  rw [maybeRolloverSegment, Op.ask_ok_bind, decide_eq_false (not_le.mpr hlt), if_neg Bool.false_ne_true]
  rfl

/-- **A file is made** under the next reading of the clock. -/
theorem does_grown (henv : env.Behaves) {w : World} (h : w.Holds lib env log)
    (hmake : ∀ log fileId, allowed log (.make fileId)) :
    Does lib env allowed w log (w.grown env) log := by
  have hnone := h.lookup_of_le henv le_rfl
  exact Does.single (x := .make (env.monotonicNow w.calls)) (Nat.le_add_right _ 2)
    ⟨⟨w.calls, Nat.lt_add_of_pos_right Nat.two_pos, rfl⟩, hnone⟩ (hmake _ _)
    (apply_taken_of_none hnone).symm rfl

/-- **A record is appended** to a segment that can be written to. -/
theorem does_written {g : Segment} (hg : s.Writable lib log g)
    (hname : g.store.fileName = segmentName g.fileId) {e : Entry Key}
    (hallowed : allowed log (.append g.fileId e)) :
    Does lib env allowed s.world log (written lib log s.world g e)
      (Function.update log g.fileId (log g.fileId ++ [e])) := by
  refine Does.single (x := .append g.fileId e) (Nat.le_succ _)
    (Option.isSome_iff_exists.mpr ⟨_, hg.lookup⟩) hallowed (apply_appended hg.lookup).symm ?_
  change s.world.events ++ [.appended g.store.fileName _ _] = _
  rw [hname]
  rfl

/-- **Appending to the store's log** makes a file if the active one is full, and appends the stamped
record where there is room. -/
theorem does_appendEntry (allowed : (ℕ → List (Entry Key)) → Effect Key → Prop)
    (henv : env.Behaves) (h : s.Holds lib env log) (e : Entry Key)
    (hmake : ∀ log fileId, allowed log (.make fileId))
    (hown : ∀ log fileId now, Room lib s.maxSegmentSizeBytes log fileId →
      allowed log (.append fileId (e.stamped now))) :
    ∃ s' r log' now, appendEntry lib env e s = (.ok r, s') ∧ s'.Holds lib env log'
      ∧ s'.maxSegmentSizeBytes = s.maxSegmentSizeBytes
      ∧ (∃ fileId, e.stamped now ∈ log' fileId)
      ∧ Does lib env allowed s.world log s'.world log' := by
  obtain ⟨s₁, hroll, h₁, hmax, hroom, hdoes⟩ : ∃ s₁, maybeRolloverActiveSegment env s = (.ok (), s₁)
      ∧ s₁.Holds lib env log ∧ s₁.maxSegmentSizeBytes = s.maxSegmentSizeBytes
      ∧ Room lib s.maxSegmentSizeBytes log s₁.activeSegment.fileId
      ∧ Does lib env allowed s.world log s₁.world log := by
    rw [maybeRolloverActiveSegment, Op.ask_ok_bind, Op.bind_apply]
    by_cases hfull : s.maxSegmentSizeBytes.toInt64.toInt
        ≤ (s.activeSegment.store.currentWriteOffset : ℤ)
    · rw [maybeRolloverSegment_of_full henv h.world hfull]
      exact ⟨s.rolledOver env, rfl, h.rolledOver henv, rfl, .inl (h.log_fresh henv),
        does_grown henv h.world hmake⟩
    · rw [maybeRolloverSegment_of_lt (not_le.mp hfull)]
      refine ⟨s, rfl, h, rfl, .inr ?_, .refl _ _⟩
      rw [← h.cursor]
      exact not_le.mp hfull
  obtain ⟨-, hname⟩ := h₁.own (segment?_active s₁)
  refine ⟨_, response lib log s₁.activeSegment.fileId (e.stamped (env.now s₁.world.calls)), _,
    env.now s₁.world.calls, ?_, h₁.write_active (e.stamped (env.now s₁.world.calls)), hmax,
    ⟨s₁.activeSegment.fileId, ?_⟩,
    hdoes.trans (does_written h₁.writable_active hname (hown _ _ _ hroom))⟩
  · rw [appendEntry, Op.bind_apply, hroll]
    change ((Op.ask fun s => .ok s.activeSegment) >>= _) s₁ = _
    rw [Op.ask_ok_bind, Op.bind_apply, append_eq henv h₁.writable_active]
    rfl
  · rw [Function.update_self]
    exact List.mem_append_right _ List.mem_cons_self

/-! ## Writing back and removing -/

section WriteBack

variable {s₀ : Segments} {log₀ : ℕ → List (Entry Key)}

/-- Nothing was written yet. -/
theorem Beside.refl (s : Segments) (log : ℕ → List (Entry Key)) : Beside env s log s log where
  calls := le_rfl
  active := rfl
  inactive hg := hg
  log _ := rfl
  fresh hold hnew := by
    rw [hold] at hnew
    cases hnew

/-- **The segments made since**, each once. -/
structure MadeSince (s₀ s : Segments) (ids : List ℕ) : Prop where
  nodup : ids.Nodup
  mem : ∀ {fileId}, fileId ∈ ids ↔ s₀.segment? fileId = none ∧ (s.segment? fileId).isSome

/-- One more is made. -/
theorem MadeSince.withInactive {ids : List ℕ} (hmade : MadeSince s₀ s ids) (henv : env.Behaves)
    (h₀ : s₀.Holds lib env log₀) (h : s.Holds lib env log) (hb : Beside env s₀ log₀ s log) :
    MadeSince s₀ (s.withInactive env) (ids ++ [env.monotonicNow s.world.calls]) := by
  have hnone : s.segment? (env.monotonicNow s.world.calls) = none := h.segment?_fresh henv
  refine ⟨List.nodup_append.mpr ⟨hmade.nodup, List.nodup_singleton _, ?_⟩, fun {fileId} => ?_⟩
  · rintro id hid _ hmem rfl
    obtain rfl := List.mem_singleton.mp hmem
    have hsome := (hmade.mem.mp hid).2
    rw [hnone] at hsome
    cases hsome
  · rw [List.mem_append, List.mem_singleton, hmade.mem,
      segment?_withInactive (h.active_ne_fresh henv)]
    split_ifs with hid
    · subst hid
      have hfresh := h₀.segment?_eq_none.mpr (h₀.world.lookup_of_le henv hb.calls)
      simp [hfresh]
    · simp [hid]

/-- After a record the loop of `write_back` goes on where there is room. -/
theorem does_rolloverInactive (henv : env.Behaves) (h₀ : s₀.Holds lib env log₀)
    (h : s.Holds lib env log) (hb : Beside env s₀ log₀ s log) {g : Segment}
    (hg : s.Writable lib log g) (hname : g.store.fileName = segmentName g.fileId) {ids : List ℕ}
    (hmade : MadeSince s₀ s (ids ++ [g.fileId])) (hmake : ∀ log fileId, allowed log (.make fileId)) :
    ∃ s' g' ids', rolloverInactive env g s = (.ok g', s') ∧ s'.Holds lib env log
      ∧ Beside env s₀ log₀ s' log ∧ s'.Writable lib log g'
      ∧ g'.store.fileName = segmentName g'.fileId ∧ MadeSince s₀ s' (ids' ++ [g'.fileId])
      ∧ (ids' ++ [g'.fileId]).flatMap log = (ids ++ [g.fileId]).flatMap log
      ∧ Room lib s.maxSegmentSizeBytes log g'.fileId
      ∧ s'.maxSegmentSizeBytes = s.maxSegmentSizeBytes
      ∧ Does lib env allowed s.world log s'.world log := by
  rw [rolloverInactive, Op.bind_apply]
  by_cases hfull : s.maxSegmentSizeBytes.toInt64.toInt ≤ (g.store.currentWriteOffset : ℤ)
  · rw [maybeRolloverSegment_of_full henv h.world hfull]
    refine ⟨s.withInactive env, fresh env s.world, ids ++ [g.fileId], rfl, h.withInactive henv,
      hb.withInactive h henv, h.writable_fresh henv, rfl, hmade.withInactive henv h₀ h hb, ?_,
      .inl (h.log_fresh henv), rfl, does_grown henv h.world hmake⟩
    rw [List.flatMap_append, List.flatMap_singleton]
    change _ ++ log (env.monotonicNow s.world.calls) = _
    rw [h.log_fresh henv, List.append_nil]
  · rw [maybeRolloverSegment_of_lt (not_le.mp hfull)]
    refine ⟨s, g, ids, rfl, h, hb, hg, hname, hmade, rfl, .inr ?_, rfl, .refl _ _⟩
    rw [← hg.cursor]
    exact not_le.mp hfull

/-- A change, as it is written back. -/
def Change.entry (change : Key × MappedStoredEntry Key) : Entry Key :=
  .newPreservingTimestamp change.1 change.2.value change.2.timestamp

/-- A change, and the record it is written back as. -/
def Copied (change : Key × MappedStoredEntry Key) (e : Entry Key) : Prop :=
  ∃ now, e = (Change.entry change).stamped now

/-- **The loop of `write_back`** appends each change where there is room, to files of its own. -/
theorem does_writeBackTo (henv : env.Behaves) (h₀ : s₀.Holds lib env log₀)
    (changes : List (Key × MappedStoredEntry Key)) {s : Segments} {log : ℕ → List (Entry Key)}
    {g : Segment} (h : s.Holds lib env log) (hb : Beside env s₀ log₀ s log)
    (hg : s.Writable lib log g) (hname : g.store.fileName = segmentName g.fileId) {ids : List ℕ}
    (hmade : MadeSince s₀ s (ids ++ [g.fileId])) (hroom : Room lib s.maxSegmentSizeBytes log g.fileId)
    (hmake : ∀ log fileId, allowed log (.make fileId))
    (hcopy : ∀ change ∈ changes, ∀ log fileId now, Room lib s.maxSegmentSizeBytes log fileId →
      allowed log (.append fileId ((Change.entry change).stamped now))) :
    ∃ s' responses log' ids' records, writeBackTo lib env g changes s = (.ok responses, s')
      ∧ s'.Holds lib env log' ∧ Beside env s₀ log₀ s' log' ∧ (∀ fileId, log fileId <+: log' fileId)
      ∧ List.Forall₂ (Answers lib s₀ log') changes responses
      ∧ MadeSince s₀ s' ids' ∧ ids'.flatMap log' = (ids ++ [g.fileId]).flatMap log ++ records
      ∧ List.Forall₂ Copied changes records ∧ s'.maxSegmentSizeBytes = s.maxSegmentSizeBytes
      ∧ Does lib env allowed s.world log s'.world log' := by
  induction changes generalizing s log g ids with
  | nil =>
    exact ⟨s, [], log, ids ++ [g.fileId], [], rfl, h, hb, fun _ => List.prefix_refl _, .nil, hmade,
      (List.append_nil _).symm, .nil, rfl, .refl _ _⟩
  | cons change changes ih =>
    have hnew : s₀.segment? g.fileId = none :=
      (hmade.mem.mp (List.mem_append_right _ List.mem_cons_self)).1
    have hne : g.fileId ≠ s.activeSegment.fileId := by
      intro heq
      rw [heq, hb.active, segment?_active] at hnew
      cases hnew
    obtain ⟨e, he⟩ : ∃ e, e = (Entry.newPreservingTimestamp change.1 change.2.value
      change.2.timestamp).stamped (env.now s.world.calls) := ⟨_, rfl⟩
    have happend := append_eq henv hg
      (Entry.newPreservingTimestamp change.1 change.2.value change.2.timestamp)
    rw [← he] at happend
    have hwrite : Does lib env allowed s.world log (written lib log s.world g e)
        (Function.update log g.fileId (log g.fileId ++ [e])) := by
      refine does_written hg hname ?_
      rw [he]
      exact hcopy change List.mem_cons_self _ _ _ hroom
    have hwrote : (ids ++ [g.fileId]).flatMap (Function.update log g.fileId (log g.fileId ++ [e]))
        = (ids ++ [g.fileId]).flatMap log ++ [e] := by
      have hids : ∀ id ∈ ids, Function.update log g.fileId (log g.fileId ++ [e]) id = log id := by
        rintro id hid
        refine Function.update_of_ne ?_ _ _
        rintro rfl
        exact (List.nodup_append.mp hmade.nodup).2.2 _ hid _ List.mem_cons_self rfl
      rw [List.flatMap_append, List.flatMap_append, List.flatMap_congr hids, List.flatMap_singleton,
        List.flatMap_singleton, Function.update_self, List.append_assoc]
    obtain ⟨s₂, g₂, ids₂, hroll, h₂, hb₂, hg₂, hname₂, hmade₂, hsame, hroom₂, hmax₂, hdoes₂⟩ :=
      does_rolloverInactive henv h₀ (h.write_inactive hg hne e) (hb.write hnew e) (hg.advanced e)
        hname ⟨hmade.nodup, hmade.mem⟩ hmake
    obtain ⟨s', responses, log', ids', records, hrest, h', hb', hlog', hall, hmade', hflat, hcopies,
      hmax', hdoes'⟩ := ih h₂ hb₂ hg₂ hname₂ hmade₂ (hmax₂ ▸ hroom₂)
        (hmax₂ ▸ fun c hc => hcopy c (List.mem_cons_of_mem _ hc))
    refine ⟨s', (change.1, response lib log g.fileId e) :: responses, log', ids', e :: records, ?_, h',
      hb', fun id => (prefix_update g.fileId e id).trans (hlog' id), .cons ?_ hall, hmade', ?_,
      .cons ⟨_, he⟩ hcopies, hmax'.trans hmax₂, hwrite.trans (hdoes₂.trans hdoes')⟩
    · rw [writeBackTo, Op.bind_apply, happend]
      exact Op.bind_eq_ok.mpr ⟨_, _, hroll, Op.bind_eq_ok.mpr ⟨_, _, hrest, rfl⟩⟩
    · refine ⟨rfl, hnew, e.timestamp, ?_⟩
      have hstand := (@stands_response _ lib log g.fileId e).mono hlog'
      rwa [he] at hstand ⊢
    · rw [hflat, hsame]
      change (ids ++ [g.fileId]).flatMap _ ++ _ = _
      rw [hwrote, List.append_assoc]
      rfl

/-- **`write_back`** makes a file and appends the changes beside what was there. -/
theorem does_writeBack (allowed : (ℕ → List (Entry Key)) → Effect Key → Prop)
    (henv : env.Behaves) (h : s.Holds lib env log)
    (changes : List (Key × MappedStoredEntry Key)) (hmake : ∀ log fileId, allowed log (.make fileId))
    (hcopy : ∀ change ∈ changes, ∀ log fileId now, Room lib s.maxSegmentSizeBytes log fileId →
      allowed log (.append fileId ((Change.entry change).stamped now))) :
    ∃ s' responses log' ids, writeBack lib env changes s = (.ok responses, s') ∧ s'.Holds lib env log'
      ∧ Beside env s log s' log' ∧ List.Forall₂ (Answers lib s log') changes responses
      ∧ MadeSince s s' ids ∧ List.Forall₂ Copied changes (ids.flatMap log')
      ∧ s'.maxSegmentSizeBytes = s.maxSegmentSizeBytes
      ∧ Does lib env allowed s.world log s'.world log' := by
  have hnone : MadeSince s s [] := ⟨List.nodup_nil, fun {fileId} => by
    rcases s.segment? fileId with _ | g <;> simp⟩
  obtain ⟨s', responses, log', ids, records, hrun, h', hb', -, hall, hmade, hflat, hcopies, hmax,
    hdoes⟩ := does_writeBackTo henv h changes (h.withInactive henv)
      ((Beside.refl s log).withInactive h henv) (h.writable_fresh henv) rfl
      (hnone.withInactive henv h h (Beside.refl s log)) (.inl (h.log_fresh henv)) hmake hcopy
  have hempty : (([] : List ℕ) ++ [(fresh env s.world).fileId]).flatMap log = [] := by
    change log (env.monotonicNow s.world.calls) ++ [] = []
    rw [h.log_fresh henv, List.append_nil]
  rw [hempty, List.nil_append] at hflat
  refine ⟨s', responses, log', ids, ?_, h', hb', hall, hmade, hflat ▸ hcopies, hmax,
    (does_grown henv h.world hmake).trans hdoes⟩
  rw [writeBack, Op.bind_apply, newSegment_eq henv h.world]
  exact hrun

end WriteBack

/-- **Files are removed** one after another, each while its keys stand in files that stay, or are
gone. -/
theorem does_remove (allowed : (ℕ → List (Entry Key)) → Effect Key → Prop) (gone : Key → Prop)
    {s : Segments} {log : ℕ → List (Entry Key)} (h : s.Holds lib env log) (fileIds : List ℕ)
    (hcovered : ∀ fileId ∈ fileIds, ∀ e ∈ log fileId,
      (∃ id ∉ fileIds, ∃ e' ∈ log id, e'.key = e.key) ∨ gone e.key)
    (hdrop : ∀ log fileId, (∀ e ∈ log fileId,
      (∃ id ≠ fileId, ∃ e' ∈ log id, e'.key = e.key) ∨ gone e.key) → allowed log (.drop fileId)) :
    ∃ log', (s.remove fileIds).Holds lib env log'
      ∧ (s.remove fileIds).maxSegmentSizeBytes = s.maxSegmentSizeBytes
      ∧ Does lib env allowed s.world log (s.remove fileIds).world log' := by
  induction fileIds generalizing s log with
  | nil => exact ⟨log, h, rfl, .refl _ _⟩
  | cons fileId fileIds ih =>
    rcases hlook : s.inactiveSegments.lookup fileId with _ | g
    · rw [Segments.remove, List.foldl_cons, removeOne_of_none hlook]
      refine ih h fun id hid e he => ?_
      obtain ⟨id', hid', he'⟩ | hgone := hcovered id (List.mem_cons_of_mem _ hid) e he
      · exact .inl ⟨id', fun hmem => hid' (List.mem_cons_of_mem _ hmem), he'⟩
      · exact .inr hgone
    · have hfirst : Does lib env allowed s.world log (s.removeOne fileId).world
          (Function.update log fileId []) := by
        rw [removeOne_of_some hlook]
        obtain ⟨-, hname⟩ := h.own (h.segment?_of_inactive hlook)
        refine Does.single (x := .drop fileId) le_rfl trivial (hdrop log fileId fun e he => ?_) ?_ ?_
        · obtain ⟨id, hid, he'⟩ | hgone := hcovered fileId List.mem_cons_self e he
          · exact .inl ⟨id, fun heq => hid (heq ▸ List.mem_cons_self), he'⟩
          · exact .inr hgone
        · change s.world.disk.unlink g.store.fileName = s.world.disk.unlink (segmentName fileId)
          rw [hname]
        · change s.world.events ++ [.removed g.store.fileName] = _
          rw [hname]
          rfl
      obtain ⟨log', h', hmax, hrest⟩ := ih (h.removeInactive hlook) fun id hid e he => by
        have hne : id ≠ fileId := by
          rintro rfl
          rw [Function.update_self] at he
          cases he
        rw [Function.update_of_ne hne] at he
        obtain ⟨id', hid', e', he', hkey⟩ | hgone := hcovered id (List.mem_cons_of_mem _ hid) e he
        · have hne' : id' ≠ fileId := fun heq => hid' (heq ▸ List.mem_cons_self)
          refine .inl ⟨id', fun hmem => hid' (List.mem_cons_of_mem _ hmem), e', ?_, hkey⟩
          rwa [Function.update_of_ne hne']
        · exact .inr hgone
      refine ⟨log', h', hmax.trans ?_, hfirst.trans hrest⟩
      rw [removeOne_of_some hlook]

end Segments

/-! ## What an operation is allowed -/

/-- A record as a merge copies it. -/
def Entry.copied (e : Entry Key) (now : UInt64) : Entry Key :=
  (Entry.newPreservingTimestamp e.key e.value e.timestamp).stamped now

/-- **What an operation may do to the files**, where `log₀` is what they held when it was called and
`own` is the record it writes itself: append its record, or a copy of one that was there, where there is
room; and drop a file whose keys stand elsewhere, or had a tombstone. -/
def Allows (lib : KeyLib Key) (limit : UInt64) (own : Option (Entry Key))
    (log₀ log : ℕ → List (Entry Key)) : Effect Key → Prop
  | .make _ => True
  | .append fileId e => Room lib limit log fileId
    ∧ ((∃ e₀ ∈ own, ∃ now, e = e₀.stamped now) ∨ ∃ id, ∃ e₀ ∈ log₀ id, ∃ now, e = e₀.copied now)
  | .drop fileId => ∀ e ∈ log fileId, (∃ id ≠ fileId, ∃ e' ∈ log id, e'.key = e.key)
    ∨ ∃ id, ∃ e' ∈ log₀ id, e'.key = e.key ∧ e'.deleted = true

/-- The record an operation writes itself. -/
def Step.entry : Step Key → Option (Entry Key)
  | update _ _ key value => some (.new key value)
  | delete key => some (.newDeletedEntry key)
  | reopen _ _ => none

/-- The limit an operation works with. -/
def Step.limit (s : KVStore Key) : Step Key → UInt64
  | reopen config _ => config.maxSegmentSizeBytes
  | _ => s.segments.maxSegmentSizeBytes

section Survivors

variable [DecidableEq Key]

omit [DecidableEq Key] in
/-- A loop over records that are no tombstones holds one, if there is one. -/
theorem Memory.held_of_live {f : Memory Key → MappedStoredEntry Key → Memory Key}
    (hf : ∀ memory entry, memory.aside = none → entry.deleted = false →
      (f memory entry).aside = none ∧ (f memory entry).held.isSome)
    {entries : List (MappedStoredEntry Key)} (hlive : ∀ entry ∈ entries, entry.deleted = false)
    {memory : Memory Key} (haside : memory.aside = none) :
    (entries.foldl f memory).aside = none
      ∧ (entries ≠ [] ∨ memory.held.isSome → (entries.foldl f memory).held.isSome) := by
  induction entries generalizing memory with
  | nil => exact ⟨haside, fun h => h.resolve_left fun hne => hne rfl⟩
  | cons entry entries ih =>
    obtain ⟨haside', hheld⟩ := hf memory entry haside (hlive entry List.mem_cons_self)
    obtain ⟨hlast, hrest⟩ := ih (fun e he => hlive e (List.mem_cons_of_mem _ he)) haside'
    exact ⟨hlast, fun _ => hrest (.inr hheld)⟩

/-- **A key without a tombstone keeps a record in a merge.** -/
theorem isSome_survivor {key : Key} {segments : List (List (MappedStoredEntry Key))}
    {entry : MappedStoredEntry Key} (hentry : entry ∈ segments.flatten) (hkey : entry.key = key)
    (hlive : ∀ entry ∈ segments.flatten, entry.key = key → entry.deleted = false) :
    (survivor key segments).isSome := by
  rcases segments with _ | ⟨first, others⟩
  · cases hentry
  · have hofKey : ∀ {entries : List (MappedStoredEntry Key)},
        (∀ e ∈ entries, e ∈ (first :: others).flatten) →
          ∀ e ∈ ofKey key entries, e.deleted = false := by
      intro entries hin e he
      obtain ⟨hmem, hk⟩ := List.mem_filter.mp he
      exact hlive e (hin e hmem) (of_decide_eq_true hk)
    have htake : ∀ (memory : Memory Key) entry, memory.aside = none → entry.deleted = false →
        (memory.take entry).aside = none ∧ (memory.take entry).held.isSome := by
      intro memory entry haside hdel
      simp [Memory.take, hdel, haside]
    have hweigh : ∀ (memory : Memory Key) entry, memory.aside = none → entry.deleted = false →
        (memory.weigh entry).aside = none ∧ (memory.weigh entry).held.isSome := by
      rintro ⟨held, aside⟩ entry rfl hdel
      rcases held with _ | x
      · exact ⟨rfl, rfl⟩
      · by_cases hts : x.timestamp < entry.timestamp
        · simp [Memory.weigh, hts, hdel]
        · simp [Memory.weigh, hts]
    have hlive₁ : ∀ e ∈ ofKey key first, e.deleted = false := hofKey fun e he => by
      rw [List.flatten_cons]
      exact List.mem_append_left _ he
    have hlive₂ : ∀ e ∈ ofKey key others.flatten, e.deleted = false := hofKey fun e he => by
      rw [List.flatten_cons]
      exact List.mem_append_right _ he
    obtain ⟨haside, hfirst⟩ := @Memory.held_of_live Key _ htake _ hlive₁ ⟨none, none⟩ rfl
    obtain ⟨-, hothers⟩ := Memory.held_of_live hweigh hlive₂ haside
    refine hothers ?_
    rw [List.flatten_cons, List.mem_append] at hentry
    rcases hentry with hmem | hmem
    · exact .inr (hfirst (.inl (List.ne_nil_of_mem (List.mem_filter.mpr ⟨hmem, decide_eq_true hkey⟩))))
    · exact .inl (List.ne_nil_of_mem (List.mem_filter.mpr ⟨hmem, decide_eq_true hkey⟩))

end Survivors

section Operations

variable [DecidableEq Key] {lib : KeyLib Key} {env : Env} {log : ℕ → List (Entry Key)}

namespace KVStore

variable {s s' : KVStore Key} {readOrder : SegmentOrder} {writeOrder : ChangeOrder Key}

/-- A record that a merge keeps is a copy of one it has read. -/
theorem exists_of_mem_changesIn {xs : List (Sigma fun _ : ℕ => Segment)}
    {change : Key × MappedStoredEntry Key}
    (h : change ∈ changesIn writeOrder (MergedState.ofSegments ((logsIn lib log xs).map Prod.snd))) :
    ∃ x ∈ xs, ∃ e ∈ log x.1, ∀ now, (Change.entry change).stamped now = e.copied now := by
  obtain ⟨key, entry⟩ := change
  rw [MergedState.mem_changesIn, MergedState.lookup_ofSegments] at h
  obtain ⟨⟨entries, hentries, hmem⟩, rfl⟩ := mem_of_survivor h
  obtain ⟨y, hy, rfl⟩ := List.mem_map.mp hentries
  obtain ⟨x, hx, rfl⟩ := List.mem_map.mp hy
  obtain ⟨l, e, l', hlog, rfl⟩ := lib.exists_of_mem_layout hmem
  exact ⟨x, hx, e, by rw [hlog]; exact List.mem_append_right _ List.mem_cons_self, fun now => rfl⟩

/-- The keys of what was read stand among the changes, or had a tombstone. -/
theorem exists_change_of_mem {xs : List (Sigma fun _ : ℕ => Segment)} {x : Sigma fun _ : ℕ => Segment}
    (hx : x ∈ xs) {e : Entry Key} (he : e ∈ log x.1) :
    (∃ entry, (e.key, entry)
        ∈ changesIn writeOrder (MergedState.ofSegments ((logsIn lib log xs).map Prod.snd)))
      ∨ ∃ id, ∃ e' ∈ log id, e'.key = e.key ∧ e'.deleted = true := by
  by_cases hgone : ∃ id, ∃ e' ∈ log id, e'.key = e.key ∧ e'.deleted = true
  · exact .inr hgone
  · left
    have hmem : ∀ {r : MappedStoredEntry Key},
        r ∈ ((logsIn lib log xs).map Prod.snd).flatten ↔ ∃ x ∈ xs, r ∈ lib.layout 0 (log x.1) := by
      intro r
      simp [logsIn]
    obtain ⟨r, hr, hkey⟩ := lib.exists_layout_of_mem 0 he
    have hsurvivor := @isSome_survivor _ _ e.key _ r
      (hmem.mpr ⟨x, hx, hr⟩) hkey fun r' hr' hkey' => by
        obtain ⟨y, -, hy⟩ := hmem.mp hr'
        obtain ⟨l, e', l', hlog, rfl⟩ := lib.exists_of_mem_layout hy
        by_contra hdel
        refine hgone ⟨y.1, e', ?_, hkey', Bool.eq_true_of_not_eq_false hdel⟩
        rw [hlog]
        exact List.mem_append_right _ List.mem_cons_self
    obtain ⟨entry, hentry⟩ := Option.isSome_iff_exists.mp hsurvivor
    exact ⟨entry, MergedState.mem_changesIn.mpr (by rw [MergedState.lookup_ofSegments, hentry])⟩

/-- **A merge** writes copies beside what is there, and drops what it has read. -/
theorem does_beginMerge (henv : env.Behaves) (h : s.segments.Holds lib env log)
    (hfit : s.segments.Fits) (own : Option (Entry Key))
    (hrun : beginMerge lib env readOrder writeOrder s = (.ok (), s')) :
    ∃ log', s'.segments.Holds lib env log'
      ∧ s'.segments.maxSegmentSizeBytes = s.segments.maxSegmentSizeBytes
      ∧ Does lib env (Allows lib s.segments.maxSegmentSizeBytes own log)
        s.segments.world log s'.segments.world log' := by
  have hread := segmentsToMerge_of_fits h hfit readOrder
  by_cases hlen : 2 ≤ (logsIn lib log (mergeInputs readOrder s)).length
  · obtain ⟨segments, responses, log₁, ids, hwrite, h₁, hb, hall, -, -, hmax, hdoes⟩ :=
      does_writeBack (Allows lib s.segments.maxSegmentSizeBytes own log) henv h
        (changesIn writeOrder (MergedState.ofSegments
          ((logsIn lib log (mergeInputs readOrder s)).map Prod.snd))) (fun _ _ => trivial)
        fun change hchange log' fileId now hroom => by
          obtain ⟨x, -, e, he, hcopy⟩ := exists_of_mem_changesIn hchange
          exact ⟨hroom, .inr ⟨x.1, e, he, now, hcopy now⟩⟩
    have hids : (logsIn lib log (mergeInputs readOrder s)).map Prod.fst = mergedIds readOrder s :=
      map_fst_of_segmentsToMerge hread
    obtain ⟨log', h', hmax', hremoves⟩ := does_remove
      (Allows lib s.segments.maxSegmentSizeBytes own log)
      (fun key => ∃ id, ∃ e' ∈ log id, e'.key = key ∧ e'.deleted = true) h₁
      (mergedIds readOrder s) (fun fileId hid e he => by
        obtain ⟨x, hx, rfl⟩ := List.mem_map.mp hid
        have hpresent := (present_of_mem_mergedIds h hid).1
        rw [hb.log hpresent] at he
        obtain ⟨entry, hchange⟩ | hgone :=
          @exists_change_of_mem _ _ lib log writeOrder (mergeInputs readOrder s) x hx e he
        · obtain ⟨response, -, -, hnew, ts, l, l', hlog, -⟩ :=
            Outcome.exists_right_of_forall₂ hall hchange
          refine .inl ⟨response.2.fileId, fun hmem => ?_, ⟨e.key, entry.value, 0, ts⟩, ?_, rfl⟩
          · have hsome := (present_of_mem_mergedIds h hmem).1
            rw [hnew] at hsome
            cases hsome
          · rw [hlog]
            exact List.mem_append_right _ List.mem_cons_self
        · exact .inr hgone)
      fun _ _ hdrop => hdrop
    have hmerge : beginMerge lib env readOrder writeOrder s
        = (.ok (), { s with
            keyDirectory := s.keyDirectory.bulkUpdate responses
            segments := segments.remove (mergedIds readOrder s) }) := by
      rw [beginMerge, Op.ask_bind_of_ok hread, if_pos hlen, ← hids]
      refine Op.attempt_of_ok (a := ()) ?_
      rw [writeBack, Op.bind_apply, onSegments_of_ok hwrite]
      rfl
    obtain rfl := congrArg Prod.snd (hrun.symm.trans hmerge)
    exact ⟨log', h', hmax'.trans hmax, hdoes.trans hremoves⟩
  · rw [beginMerge_of_lt hread (by omega)] at hrun
    obtain rfl := congrArg Prod.snd hrun
    exact ⟨log, h, rfl, .refl _ _⟩

theorem does_mergeIfDue (henv : env.Behaves) (h : s.segments.Holds lib env log)
    (hfit : s.segments.Fits) (own : Option (Entry Key))
    (hrun : mergeIfDue lib env readOrder writeOrder s = (.ok (), s')) :
    ∃ log', s'.segments.Holds lib env log'
      ∧ s'.segments.maxSegmentSizeBytes = s.segments.maxSegmentSizeBytes
      ∧ Does lib env (Allows lib s.segments.maxSegmentSizeBytes own log)
        s.segments.world log s'.segments.world log' := by
  rw [mergeIfDue, Op.ask_ok_bind] at hrun
  split at hrun
  · obtain ⟨_, s₁, hmerge, hset⟩ := Op.bind_eq_ok.mp hrun
    obtain rfl := Op.update_eq_ok.mp hset
    obtain ⟨log', h', hmax, hdoes⟩ := does_beginMerge henv h hfit own hmerge
    exact ⟨log', h', hmax, hdoes⟩
  · obtain ⟨-, rfl⟩ := Op.pure_eq_ok.mp hrun
    exact ⟨log, h, rfl, .refl _ _⟩

end KVStore

/-! ## What is noted of opening a directory -/

namespace Segments

/-- Opening a file that is there is not noted. -/
theorem keeps_noted_reloadOne {events : List StoreEvent} {limit : UInt64} (name : FileName) :
    Op.Keeps (fun s : Segments => s.world.events = events ∧ s.maxSegmentSizeBytes = limit)
      (reloadOne env name) := by
  have hopen : ∀ fileId, Op.Keeps (fun s : Segments => s.world.events = events
      ∧ s.maxSegmentSizeBytes = limit) (onWorld (Segment.new env fileId)) := by
    intro fileId s hs
    rw [onWorld, Op.zoom, Segment.new, Op.bind_apply, WasiStore.open]
    rcases env.fault s.world.calls with _ | n
    · exact hs
    · exact hs
  rw [reloadOne]
  split_ifs
  · refine (Op.Keeps.lift _).bind fun fileId => (Op.Keeps.ask _).bind fun active => ?_
    split_ifs
    · exact (hopen fileId).bind fun _ => Op.Keeps.update fun _ hs => hs
    · exact Op.Keeps.pure _
  · exact Op.Keeps.pure _

omit [DecidableEq Key] in
/-- `Segments::new` makes one file, and opens the others. -/
theorem does_newSegments (allowed : (ℕ → List (Entry Key)) → Effect Key → Prop)
    (henv : env.Behaves) {s s' : Segments} (h : s.world.Holds lib env log) {limit : UInt64}
    (hmake : ∀ log fileId, allowed log (.make fileId))
    (hrun : KVStore.newSegments env limit s = (.ok (), s')) :
    s'.maxSegmentSizeBytes = limit ∧ Does lib env allowed s.world log s'.world log := by
  obtain ⟨s'', hrun', hdisk, hcalls, -, -⟩ := KVStore.exists_newSegments henv h limit
  obtain rfl := congrArg Prod.snd (hrun.symm.trans hrun')
  have hreload : Op.Keeps (fun s' : Segments => s'.world.events = (s.world.grown env).events
      ∧ s'.maxSegmentSizeBytes = limit) (reload env) := (Op.Keeps.ask _).bind fun _ =>
    Op.Keeps.forM fun name _ => keeps_noted_reloadOne name
  obtain ⟨hevents, hmax⟩ : s'.world.events = (s.world.grown env).events
      ∧ s'.maxSegmentSizeBytes = limit := by
    rw [KVStore.newSegments, Op.bind_apply, newSegment_eq henv h] at hrun
    exact hreload.of_eq ⟨rfl, rfl⟩ hrun
  exact ⟨hmax, (does_grown henv h hmake).trans (.wait hcalls hdisk hevents)⟩

end Segments

/-- **Opening a directory** makes one file. -/
theorem KVStore.does_new (allowed : (ℕ → List (Entry Key)) → Effect Key → Prop)
    (henv : env.Behaves) {s s' : KVStore Key} (h : s.segments.world.Holds lib env log)
    {config : Config} {order : SegmentOrder} (hmake : ∀ log fileId, allowed log (.make fileId))
    (hrun : new lib env config order s = (.ok (), s')) :
    s'.segments.Holds lib env log
      ∧ s'.segments.maxSegmentSizeBytes = config.maxSegmentSizeBytes
      ∧ Does lib env allowed s.segments.world log s'.segments.world log := by
  obtain ⟨segments, hsegments, h', -, -, -⟩ := newSegments_ok henv h config.maxSegmentSizeBytes
  obtain ⟨_, s₁, hfirst, hrest⟩ := Op.bind_eq_ok.mp hrun
  obtain rfl := congrArg Prod.snd (hfirst.symm.trans (onSegments_of_ok hsegments))
  obtain ⟨_, s₂, hset, hrest⟩ := Op.bind_eq_ok.mp hrest
  obtain ⟨s₃, s₄, hask, hlast⟩ := Op.bind_eq_ok.mp hrest
  obtain ⟨hreload, rfl⟩ := Op.ask_eq_ok.mp hask
  obtain rfl := Op.update_eq_ok.mp hset
  obtain rfl := Op.update_eq_ok.mp hlast
  obtain ⟨contents, -, rfl⟩ := reload_eq_ok hreload
  exact ⟨h', does_newSegments allowed henv h hmake hsegments⟩

/-- **What an operation of the store does to the files**: only what it is allowed. -/
theorem does_step (henv : env.Behaves) {s s' : KVStore Key}
    (h : s.segments.world.Holds lib env log) {x : Step Key}
    (hopen : x.Writes → s.segments.Holds lib env log ∧ s.segments.Fits)
    (hrun : x.run lib env s = (.ok (), s')) :
    ∃ log', s'.segments.Holds lib env log'
      ∧ (∀ e ∈ x.entry, ∃ fileId now, e.stamped now ∈ log' fileId)
      ∧ s'.segments.maxSegmentSizeBytes = x.limit s
      ∧ Does lib env (Allows lib (x.limit s) x.entry log)
        s.segments.world log s'.segments.world log' := by
  rcases x with ⟨readOrder, writeOrder, key, value⟩ | key | ⟨config, order⟩
  · obtain ⟨hsegments, hfit⟩ := hopen trivial
    obtain ⟨_, s₁, hmerge, hrun⟩ := Op.bind_eq_ok.mp hrun
    obtain ⟨log₁, h₁, hmax₁, hdoes₁⟩ :=
      KVStore.does_mergeIfDue henv hsegments hfit (some (.new key value)) hmerge
    obtain ⟨segments, r, log', now, happend, h', hmax', ⟨fileId, hmem⟩, hdoes'⟩ := does_appendEntry
      (Allows lib s.segments.maxSegmentSizeBytes (some (.new key value)) log) henv h₁
      (Entry.new key value) (fun _ _ => trivial)
      fun _ _ now hroom => ⟨hmax₁ ▸ hroom, .inl ⟨_, rfl, now, rfl⟩⟩
    obtain ⟨r', s₂, happend', hset⟩ := Op.bind_eq_ok.mp hrun
    obtain rfl := congrArg Prod.snd (happend'.symm.trans (KVStore.onSegments_of_ok happend))
    obtain rfl := Op.update_eq_ok.mp hset
    refine ⟨log', h', ?_, hmax'.trans hmax₁, hdoes₁.trans hdoes'⟩
    rintro e ⟨⟩
    exact ⟨fileId, now, hmem⟩
  · obtain ⟨segments, r, log', now, happend, h', hmax', ⟨fileId, hmem⟩, hdoes'⟩ := does_appendEntry
      (Allows lib s.segments.maxSegmentSizeBytes (some (.newDeletedEntry key)) log) henv
      (hopen trivial).1 (Entry.newDeletedEntry key) (fun _ _ => trivial)
      fun _ _ now hroom => ⟨hroom, .inl ⟨_, rfl, now, rfl⟩⟩
    obtain ⟨r', s₂, happend', hset⟩ := Op.bind_eq_ok.mp hrun
    obtain rfl := congrArg Prod.snd (happend'.symm.trans (KVStore.onSegments_of_ok happend))
    obtain rfl := Op.update_eq_ok.mp hset
    refine ⟨log', h', ?_, hmax', hdoes'⟩
    rintro e ⟨⟩
    exact ⟨fileId, now, hmem⟩
  · obtain ⟨h', hmax, hdoes⟩ := KVStore.does_new
      (Allows lib config.maxSegmentSizeBytes none log) henv h (fun _ _ => trivial) hrun
    refine ⟨log, h', ?_, hmax, hdoes⟩
    rintro e ⟨⟩

end Operations

end Bitspend.Kv
