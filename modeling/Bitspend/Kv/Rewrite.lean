import Bitspend.Kv.Log

/-!
# Kv/Rewrite — what a merge does to the files

A merge writes records to files of their own, beside those that are there (`Beside`), and then removes
files by their ids.  `writeBack_ok` and `Holds.remove` are the two halves: the first says where each
change stands afterwards, the second that what is not removed is left alone.
-/

namespace Bitspend.Kv.Segments

variable {Key : Type} {lib : KeyLib Key} {env : Env} {log : ℕ → List (Entry Key)} {s : Segments}

/-! ## Writing back -/

/-- **Written beside what was there**: the segments and logs of `s` are those of `s'` still, and those
that are new have file ids that were handed out since. -/
structure Beside (env : Env) (s : Segments) (log : ℕ → List (Entry Key)) (s' : Segments)
    (log' : ℕ → List (Entry Key)) : Prop where
  calls : s.world.calls ≤ s'.world.calls
  active : s'.activeSegment = s.activeSegment
  inactive : ∀ {fileId g}, s.inactiveSegments.lookup fileId = some g →
    s'.inactiveSegments.lookup fileId = some g
  log : ∀ {fileId}, (s.segment? fileId).isSome → log' fileId = log fileId
  fresh : ∀ {fileId}, s.segment? fileId = none → (s'.segment? fileId).isSome →
    ∃ i, s.world.calls ≤ i ∧ fileId = env.monotonicNow i

/-- A change and the response to it: a record with its key and value stands in a file that was not
there before. -/
def Answers (lib : KeyLib Key) (s : Segments) (log' : ℕ → List (Entry Key))
    (change : Key × MappedStoredEntry Key) (response : Key × AppendEntryResponse) : Prop :=
  response.1 = change.1 ∧ s.segment? response.2.fileId = none
    ∧ ∃ ts, Stands lib log' response.2 ⟨change.1, change.2.value, 0, ts⟩

variable {s₀ : Segments} {log₀ : ℕ → List (Entry Key)}

/-- A file of its own may be made… -/
theorem Beside.withInactive (hb : Beside env s₀ log₀ s log) (h : s.Holds lib env log)
    (henv : env.Behaves) : Beside env s₀ log₀ (s.withInactive env) log where
  calls := hb.calls.trans (Nat.le_add_right _ 2)
  active := hb.active
  inactive {fileId g} hg := by
    have hold := hb.inactive hg
    have hne : fileId ≠ env.monotonicNow s.world.calls := by
      rintro rfl
      have := h.segment?_fresh henv
      rw [segment?_of_ne (h.active_ne_fresh henv).symm, hold] at this
      cases this
    exact (AList.lookup_insert_ne hne).trans hold
  log := hb.log
  fresh {fileId} hold hnew := by
    rw [segment?_withInactive (h.active_ne_fresh henv)] at hnew
    split_ifs at hnew with hid
    · exact ⟨s.world.calls, hb.calls, hid⟩
    · exact hb.fresh hold hnew

/-- …and written to. -/
theorem Beside.write (hb : Beside env s₀ log₀ s log) {g : Segment} (hnew : s₀.segment? g.fileId = none)
    (e : Entry Key) :
    Beside env s₀ log₀ { s with world := written lib log s.world g e }
      (Function.update log g.fileId (log g.fileId ++ [e])) where
  calls := hb.calls.trans (Nat.le_succ _)
  active := hb.active
  inactive := hb.inactive
  log {fileId} hid := by
    have hne : fileId ≠ g.fileId := by
      rintro rfl
      rw [hnew] at hid
      cases hid
    rw [Function.update_of_ne hne]
    exact hb.log hid
  fresh := hb.fresh

theorem Writable.advanced {g : Segment} (hg : s.Writable lib log g) (e : Entry Key) :
    Writable lib { s with world := written lib log s.world g e }
      (Function.update log g.fileId (log g.fileId ++ [e])) (advanced lib log g e) where
  lookup := hg.lookup
  cursor := by
    change _ = (lib.file (Function.update log g.fileId _ g.fileId)).length
    rw [Function.update_self, KeyLib.file_append, List.length_append, KeyLib.file_cons,
      KeyLib.file_nil, List.append_nil]
    rfl

/-- After a record the loop goes on in the same segment, or in a new one. -/
theorem rolloverInactive_ok (henv : env.Behaves) (h₀ : s₀.Holds lib env log₀) (h : s.Holds lib env log)
    (hb : Beside env s₀ log₀ s log) {g : Segment} (hg : s.Writable lib log g)
    (hnew : s₀.segment? g.fileId = none) :
    ∃ s' g', rolloverInactive env g s = (.ok g', s')
      ∧ s'.Holds lib env log ∧ Beside env s₀ log₀ s' log ∧ s'.Writable lib log g'
      ∧ s₀.segment? g'.fileId = none := by
  rw [rolloverInactive, Op.bind_apply]
  rcases maybeRolloverSegment_eq henv h.world g with heq | heq
  · rw [heq]
    exact ⟨s, g, rfl, h, hb, hg, hnew⟩
  · rw [heq]
    exact ⟨s.withInactive env, fresh env s.world, rfl, h.withInactive henv, hb.withInactive h henv,
      h.writable_fresh henv, h₀.segment?_eq_none.mpr (h₀.world.lookup_of_le henv hb.calls)⟩

/-- **The changes are written to new files**, each answered by where it stands. -/
theorem writeBackTo_ok (henv : env.Behaves) (h₀ : s₀.Holds lib env log₀)
    (changes : List (Key × MappedStoredEntry Key)) {s : Segments} {log : ℕ → List (Entry Key)}
    {g : Segment} (h : s.Holds lib env log) (hb : Beside env s₀ log₀ s log) (hg : s.Writable lib log g)
    (hnew : s₀.segment? g.fileId = none) :
    ∃ s' responses log', writeBackTo lib env g changes s = (.ok responses, s')
      ∧ s'.Holds lib env log' ∧ Beside env s₀ log₀ s' log' ∧ (∀ fileId, log fileId <+: log' fileId)
      ∧ List.Forall₂ (Answers lib s₀ log') changes responses := by
  induction changes generalizing s log g with
  | nil => exact ⟨s, [], log, rfl, h, hb, fun _ => List.prefix_refl _, .nil⟩
  | cons change changes ih =>
    obtain ⟨key, value⟩ := change
    have hne : g.fileId ≠ s.activeSegment.fileId := by
      intro heq
      rw [heq, hb.active, segment?_active] at hnew
      cases hnew
    obtain ⟨e, he⟩ : ∃ e, e = (Entry.newPreservingTimestamp key value.value value.timestamp).stamped
      (env.now s.world.calls) := ⟨_, rfl⟩
    have happend := append_eq henv hg (Entry.newPreservingTimestamp key value.value value.timestamp)
    rw [← he] at happend
    obtain ⟨s₂, g₂, hroll, h₂, hb₂, hg₂, hnew₂⟩ := rolloverInactive_ok henv h₀
      (h.write_inactive hg hne e) (hb.write hnew e) (hg.advanced e) hnew
    obtain ⟨s', responses, log', hrest, h', hb', hlog', hall⟩ := ih h₂ hb₂ hg₂ hnew₂
    refine ⟨s', (key, response lib log g.fileId e) :: responses, log', ?_, h', hb',
      fun id => (prefix_update g.fileId e id).trans (hlog' id), .cons ?_ hall⟩
    · rw [writeBackTo, Op.bind_apply, happend]
      refine Op.bind_eq_ok.mpr ⟨_, _, hroll, ?_⟩
      exact Op.bind_eq_ok.mpr ⟨_, _, hrest, rfl⟩
    · refine ⟨rfl, hnew, e.timestamp, ?_⟩
      have hstand := (@stands_response _ lib log g.fileId e).mono hlog'
      rwa [he] at hstand ⊢

theorem writeBack_ok (henv : env.Behaves) (h : s.Holds lib env log)
    (changes : List (Key × MappedStoredEntry Key)) :
    ∃ s' responses log', writeBack lib env changes s = (.ok responses, s')
      ∧ s'.Holds lib env log' ∧ Beside env s log s' log'
      ∧ List.Forall₂ (Answers lib s log') changes responses := by
  have hrefl : Beside env s log s log := {
    calls := le_rfl
    active := rfl
    inactive := fun hg => hg
    log := fun _ => rfl
    fresh := fun hold hnew => by
      rw [hold] at hnew
      cases hnew }
  obtain ⟨s', responses, log', hrun, h', hb', -, hall⟩ := writeBackTo_ok henv h changes
    (h.withInactive henv) (hrefl.withInactive h henv) (h.writable_fresh henv)
    (h.segment?_fresh henv)
  refine ⟨s', responses, log', ?_, h', hb', hall⟩
  rw [writeBack, Op.bind_apply, newSegment_eq henv h.world]
  exact hrun

/-! ## Removing -/

theorem segment?_removeOne (hapart : s.inactiveSegments.lookup s.activeSegment.fileId = none)
    (fileId id : ℕ) :
    (s.removeOne fileId).segment? id
      = if id = fileId ∧ id ≠ s.activeSegment.fileId then none else s.segment? id := by
  rw [removeOne]
  rcases hlook : s.inactiveSegments.lookup fileId with _ | g
  · by_cases hid : id = fileId ∧ id ≠ s.activeSegment.fileId
    · rw [if_pos hid, segment?_of_ne hid.2, hid.1, hlook]
    · rw [if_neg hid]
  · have hact := ne_active_of_inactive hapart hlook
    change (if id = s.activeSegment.fileId then some s.activeSegment
      else (s.inactiveSegments.erase fileId).lookup id) = _
    by_cases hid : id = fileId
    · subst hid
      rw [if_neg hact, if_pos ⟨rfl, hact⟩, AList.lookup_erase]
    · have hcond : ¬(id = fileId ∧ id ≠ s.activeSegment.fileId) := fun hc => hid hc.1
      rw [AList.lookup_erase_ne hid, if_neg hcond]
      rfl

/-- Nothing happens where no inactive segment has the id… -/
theorem removeOne_of_none {fileId : ℕ} (hlook : s.inactiveSegments.lookup fileId = none) :
    s.removeOne fileId = s := by
  rw [removeOne, hlook]

/-- …and where one has, it is dropped and its file removed. -/
theorem removeOne_of_some {fileId : ℕ} {g : Segment}
    (hlook : s.inactiveSegments.lookup fileId = some g) :
    s.removeOne fileId = { s with
      inactiveSegments := s.inactiveSegments.erase fileId, world := g.store.remove s.world } := by
  rw [removeOne, hlook]

/-- **Removing an inactive segment** takes its log. -/
theorem Holds.removeInactive (h : s.Holds lib env log) {fileId : ℕ} {g : Segment}
    (hlook : s.inactiveSegments.lookup fileId = some g) :
    (s.removeOne fileId).Holds lib env (Function.update log fileId []) := by
  have hact := ne_active_of_inactive h.apart hlook
  have hseg := segment?_removeOne h.apart fileId
  obtain ⟨-, hname⟩ := h.own (h.segment?_of_inactive hlook)
  have hs : s.removeOne fileId = { s with
      inactiveSegments := s.inactiveSegments.erase fileId
      world := { s.world with disk := s.world.disk.unlink (segmentName fileId) }.note
        (.removed (segmentName fileId)) } := by
    rw [removeOne_of_some hlook, ← hname]
    rfl
  refine ⟨?_, ?_, ?_, ?_, ?_⟩
  · rw [hs]
    exact h.world.unlink fileId
  · intro id
    rw [hseg, hs]
    by_cases hid : id = fileId
    · subst hid
      rw [if_pos ⟨rfl, hact⟩, World.note_disk, Disk.lookup_unlink]
      rfl
    · rw [if_neg fun hc => hid hc.1, World.note_disk,
        Disk.lookup_unlink_of_ne fun hname => hid (segmentName_injective hname)]
      exact h.node id
  · intro id g' hg'
    rw [hseg] at hg'
    split_ifs at hg'
    exact h.own hg'
  · rw [hs]
    change (s.inactiveSegments.erase fileId).lookup s.activeSegment.fileId = none
    rw [AList.lookup_erase_ne hact.symm]
    exact h.apart
  · rw [hs]
    change _ = (lib.file (Function.update log fileId [] s.activeSegment.fileId)).length
    rw [Function.update_of_ne hact.symm]
    exact h.cursor

theorem Holds.removeOne (h : s.Holds lib env log) (fileId : ℕ) :
    ∃ log', (s.removeOne fileId).Holds lib env log'
      ∧ ∀ id, ((s.removeOne fileId).segment? id).isSome → log' id = log id := by
  rcases hlook : s.inactiveSegments.lookup fileId with _ | g
  · refine ⟨log, ?_, fun _ _ => rfl⟩
    rwa [removeOne_of_none hlook]
  · refine ⟨_, h.removeInactive hlook, fun id hid => ?_⟩
    rw [segment?_removeOne h.apart] at hid
    split_ifs at hid with hc
    · cases hid
    · refine Function.update_of_ne ?_ _ _
      rintro rfl
      exact hc ⟨rfl, ne_active_of_inactive h.apart hlook⟩

theorem activeSegment_removeOne (s : Segments) (fileId : ℕ) :
    (s.removeOne fileId).activeSegment = s.activeSegment := by
  rw [removeOne]
  split <;> rfl

theorem calls_removeOne (s : Segments) (fileId : ℕ) :
    (s.removeOne fileId).world.calls = s.world.calls := by
  rw [removeOne]
  split <;> rfl

/-- **Removing takes the named inactive files, and leaves the rest as it is.** -/
theorem Holds.remove (h : s.Holds lib env log) (fileIds : List ℕ) :
    ∃ log', (s.remove fileIds).Holds lib env log'
      ∧ (∀ id, (s.remove fileIds).segment? id
        = if id ∈ fileIds ∧ id ≠ s.activeSegment.fileId then none else s.segment? id)
      ∧ (∀ id, ((s.remove fileIds).segment? id).isSome → log' id = log id)
      ∧ (s.remove fileIds).world.calls = s.world.calls := by
  induction fileIds generalizing s log with
  | nil => exact ⟨log, h, by simp [Segments.remove], fun _ _ => rfl, rfl⟩
  | cons fileId fileIds ih =>
    obtain ⟨log₁, h₁, hlog₁⟩ := h.removeOne fileId
    obtain ⟨log', h', hseg', hlog', hcalls'⟩ := ih h₁
    have hseg : ∀ id, (s.remove (fileId :: fileIds)).segment? id
        = if id ∈ fileId :: fileIds ∧ id ≠ s.activeSegment.fileId then none else s.segment? id := by
      intro id
      refine (hseg' id).trans ?_
      rw [activeSegment_removeOne, segment?_removeOne h.apart]
      by_cases hact : id = s.activeSegment.fileId
      · simp [hact]
      · by_cases hid : id = fileId
        · subst hid
          simp [hact]
        · simp [hid]
    refine ⟨log', h', hseg, ?_, hcalls'.trans (calls_removeOne s fileId)⟩
    intro id hid
    refine (hlog' id hid).trans (hlog₁ id ?_)
    change (((s.removeOne fileId).remove fileIds).segment? id).isSome at hid
    rw [hseg'] at hid
    split_ifs at hid
    · cases hid
    · exact hid

end Bitspend.Kv.Segments
