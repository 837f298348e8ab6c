import Bitspend.Kv.Session
import Bitspend.Kv.Survivor

/-!
# Kv/Merge — what a reader sees of a merge

A merge replaces what the directory says of a key by the key's survivor among the records it read,
whether or not these were the newest: a record of the active segment, or of a segment that was not read,
is forgotten, and so is a deletion.  A key without a survivor keeps its entry, which leads nowhere if its
file was one of those removed.  `beginMerge_preserves_iff` says that these are the only ways in which a
reader can notice.
-/

namespace Bitspend.Kv

open Segments KVStore

variable {Key : Type} [DecidableEq Key] {lib : KeyLib Key} {env : Env}
  {log log' : ℕ → List (Entry Key)} {s s' : KVStore Key}

/-- **What a merge does**, with `kept` the survivor of each key and `read` the file ids it has read. -/
structure Merged (lib : KeyLib Key) (env : Env) (read : List ℕ)
    (kept : Key → Option (MappedStoredEntry Key)) (s : KVStore Key) (log : ℕ → List (Entry Key))
    (s' : KVStore Key) (log' : ℕ → List (Entry Key)) : Prop where
  holds : s'.segments.Holds lib env log'
  rewritten : ∀ {key entry}, kept key = some entry → ∃ r ts, s'.keyDirectory.lookup key = some r
    ∧ (s'.segments.segment? r.fileId).isSome ∧ Stands lib log' r ⟨key, entry.value, 0, ts⟩
  left : ∀ {key}, kept key = none → s'.keyDirectory.lookup key = s.keyDirectory.lookup key
  removed : ∀ {fileId}, fileId ∈ read → s'.segments.segment? fileId = none
  same : ∀ {fileId}, fileId ∉ read → (s.segments.segment? fileId).isSome →
    (s'.segments.segment? fileId).isSome ∧ log' fileId = log fileId
  fresh : ∀ {fileId}, s.segments.segment? fileId = none → (s'.segments.segment? fileId).isSome →
    ∃ i, s.segments.world.calls ≤ i ∧ fileId = env.monotonicNow i

section Directory

variable {segments : Segments} {state : MergedState Key} {writeOrder : ChangeOrder Key}
  {responses : List (Key × AppendEntryResponse)} {directory : KeyDirectory Key} {key : Key}

/-- **The directory after a write-back**: a survivor's key leads to where it was written… -/
theorem lookup_bulkUpdate_of_some
    (hall : List.Forall₂ (Answers lib segments log) (changesIn writeOrder state) responses)
    {entry : MappedStoredEntry Key} (hkept : state.valueByKey.lookup key = some entry) :
    ∃ r ts, (directory.bulkUpdate responses).lookup key = some r
      ∧ segments.segment? r.fileId = none ∧ Stands lib log r ⟨key, entry.value, 0, ts⟩ := by
  have hchange : (key, entry) ∈ changesIn writeOrder state := MergedState.mem_changesIn.mpr hkept
  obtain ⟨x, hx, hxkey, -⟩ := Outcome.exists_right_of_forall₂ hall hchange
  obtain ⟨y, hy⟩ := Option.isSome_iff_exists.mp (HashMap.isSome_last hx hxkey)
  obtain ⟨hymem, rfl⟩ := HashMap.key_of_last hy
  obtain ⟨change, hmem, hckey, hnone, ts, hst⟩ := Outcome.exists_left_of_forall₂ hall hymem
  have hentry : change.2 = entry := by
    have hlook := MergedState.mem_changesIn.mp hmem
    rw [← hckey, hkept, Option.some.injEq] at hlook
    exact hlook.symm
  refine ⟨y.2, ts, ?_, hnone, ?_⟩
  · rw [KeyDirectory.bulkUpdate, HashMap.lookup_insertAll, hy]
    rfl
  · rwa [← hckey, hentry] at hst

/-- …and any other key where it led. -/
theorem lookup_bulkUpdate_of_none
    (hall : List.Forall₂ (Answers lib segments log) (changesIn writeOrder state) responses)
    (hkept : state.valueByKey.lookup key = none) :
    (directory.bulkUpdate responses).lookup key = directory.lookup key := by
  have hno : ∀ x ∈ responses, x.1 ≠ key := by
    rintro x hx rfl
    obtain ⟨change, hmem, hckey, -⟩ := Outcome.exists_left_of_forall₂ hall hx
    have hlook := MergedState.mem_changesIn.mp hmem
    rw [← hckey, hkept] at hlook
    cases hlook
  rw [KeyDirectory.bulkUpdate, HashMap.lookup_insertAll, HashMap.last_eq_none hno]
  rfl

end Directory

/-- **A merge of two segments or more returns, and does that.** -/
theorem merged_of_beginMerge (henv : env.Behaves) (h : s.segments.Holds lib env log)
    {readOrder : SegmentOrder} (writeOrder : ChangeOrder Key)
    {contents : List (ℕ × List (MappedStoredEntry Key))}
    (hread : segmentsToMerge lib readOrder s = .ok contents) (hlen : 2 ≤ contents.length) :
    ∃ s' log', beginMerge lib env readOrder writeOrder s = (.ok (), s')
      ∧ Merged lib env (mergedIds readOrder s)
        (fun key => survivor key (contents.map Prod.snd)) s log s' log' := by
  obtain ⟨responses, segments, log₁, hrun, h₁, hb, hall⟩ :=
    beginMerge_ok henv h writeOrder hread hlen
  obtain ⟨log', h', hseg, hlog, -⟩ := h₁.remove (mergedIds readOrder s)
  have hinput : ∀ fileId ∈ mergedIds readOrder s, (s.segments.segment? fileId).isSome
      ∧ fileId ≠ segments.activeSegment.fileId := by
    intro fileId hid
    rw [hb.active]
    exact present_of_mem_mergedIds h hid
  have hkeep : ∀ {fileId}, (s.segments.segment? fileId).isSome →
      (segments.segment? fileId).isSome := by
    intro fileId hsome
    by_cases hact : fileId = s.segments.activeSegment.fileId
    · rw [hact, ← hb.active, segment?_active]
      rfl
    · rw [segment?_of_ne hact] at hsome
      obtain ⟨g, hg⟩ := Option.isSome_iff_exists.mp hsome
      rw [h₁.segment?_of_inactive (hb.inactive hg)]
      rfl
  -- a segment that was not read is still there, with the log it had
  have hpresent : ∀ {fileId}, fileId ∉ mergedIds readOrder s → (segments.segment? fileId).isSome →
      ((segments.remove (mergedIds readOrder s)).segment? fileId).isSome := by
    intro fileId hid hsome
    rwa [hseg, if_neg fun hc => hid hc.1]
  refine ⟨_, log', hrun, ⟨h', ?_, ?_, ?_, ?_, ?_⟩⟩
  · intro key entry hkept
    rw [← MergedState.lookup_ofSegments] at hkept
    obtain ⟨r, ts, hlook, hnone, hst⟩ := lookup_bulkUpdate_of_some hall hkept
    have hid : r.fileId ∉ mergedIds readOrder s := by
      intro hid
      have hsome := (hinput _ hid).1
      rw [hnone] at hsome
      cases hsome
    exact ⟨r, ts, hlook, hpresent hid (hst.isSome h₁),
      hst.congr (hlog _ (hpresent hid (hst.isSome h₁)))⟩
  · intro key hkept
    rw [← MergedState.lookup_ofSegments] at hkept
    exact lookup_bulkUpdate_of_none hall hkept
  · intro fileId hid
    exact (hseg fileId).trans (if_pos ⟨hid, (hinput fileId hid).2⟩)
  · intro fileId hid hsome
    have hsome' := hpresent hid (hkeep hsome)
    exact ⟨hsome', (hlog fileId hsome').trans (hb.log hsome)⟩
  · intro fileId hnone hsome
    change ((segments.remove (mergedIds readOrder s)).segment? fileId).isSome at hsome
    rw [hseg] at hsome
    split_ifs at hsome
    · cases hsome
    · exact hb.fresh hnone hsome

/-! ## What a reader then sees -/

namespace Merged

variable {read : List ℕ} {kept : Key → Option (MappedStoredEntry Key)} {key : Key}

/-- A key with a survivor has its value… -/
theorem get_of_kept (hm : Merged lib env read kept s log s' log') {entry : MappedStoredEntry Key}
    (hkept : kept key = some entry)
    (hlt : 12 + (lib.serialize key).length + (entry.value.length + 1) < 2 ^ 32) :
    s'.get key = .ok entry.value := by
  obtain ⟨r, ts, hr, hpresent, hst⟩ := hm.rewritten hkept
  exact get_of_stands hm.holds hr hpresent hst (by rw [lib.length_bytes]; exact hlt)

/-- …one without keeps its answer, if its record was not in a file that was read… -/
theorem get_of_left (hm : Merged lib env read kept s log s' log') (henv : env.Behaves)
    (h : s.Tidy lib env log) (hkept : kept key = none)
    (hout : ∀ r, s.keyDirectory.lookup key = some r → r.fileId ∉ read) :
    s'.get key = s.get key := by
  have hsame := hm.left hkept
  rcases hr : s.keyDirectory.lookup key with _ | r
  · rw [get_of_none hr, get_of_none (hsame.trans hr)]
  · have hid := hout r hr
    rw [get_of_some hr, get_of_some (hsame.trans hr), h.holds.read_eq, hm.holds.read_eq]
    by_cases hsome : (s.segments.segment? r.fileId).isSome
    · obtain ⟨hsome', hlog⟩ := hm.same hid hsome
      rw [if_pos hsome, if_pos hsome', hlog]
    · have hnone' : ¬(s'.segments.segment? r.fileId).isSome := by
        intro hsome'
        obtain ⟨i, hi, heq⟩ := hm.fresh (Option.not_isSome_iff_eq_none.mp hsome) hsome'
        exact h.ne_fresh henv hr hi heq
      rw [if_neg hsome, if_neg hnone']

/-- …and otherwise loses it. -/
theorem get_ne_of_read (hm : Merged lib env read kept s log s' log')
    (h : s.segments.Holds lib env log) (hkept : kept key = none) {r : AppendEntryResponse}
    (hr : s.keyDirectory.lookup key = some r) (hid : r.fileId ∈ read)
    (hsome : (s.segments.segment? r.fileId).isSome) : s'.get key ≠ s.get key := by
  have hnone : ¬(s'.segments.segment? r.fileId).isSome := by
    rw [hm.removed hid]
    exact Bool.false_ne_true
  rw [get_of_some hr, get_of_some ((hm.left hkept).trans hr), h.read_eq, hm.holds.read_eq,
    if_pos hsome, if_neg hnone]
  exact fun heq => (errless_decode _).bind (fun _ => .ok _) _ heq.symm

end Merged

/-- A survivor is short enough to be read back once it is rewritten. -/
theorem length_of_survivor (h : s.segments.Holds lib env log)
    (hfile : ∀ fileId, (lib.file (log fileId)).length < 2 ^ 32) {read : List ℕ} {key : Key}
    {entry : MappedStoredEntry Key}
    (hkept : survivor key (read.map (s.segments.versions lib)) = some entry) :
    12 + (lib.serialize key).length + (entry.value.length + 1) < 2 ^ 32 := by
  obtain ⟨⟨entries, hentries, hmem⟩, rfl⟩ := mem_of_survivor hkept
  obtain ⟨fileId, -, rfl⟩ := List.mem_map.mp hentries
  rw [versions_eq h hfile] at hmem
  obtain ⟨e, -, hekey, hevalue, -, hlt⟩ := stands_of_mem_layout hfile hmem
  rwa [lib.length_bytes, hekey, hevalue] at hlt

omit [DecidableEq Key] in
/-- What a merge reads of files that fit. -/
theorem map_snd_logsIn (h : s.segments.Holds lib env log) (hfit : s.segments.Fits)
    (readOrder : SegmentOrder) :
    (logsIn lib log (mergeInputs readOrder s)).map Prod.snd
      = (mergedIds readOrder s).map (s.segments.versions lib) := by
  rw [logsIn, mergedIds, List.map_map, List.map_map]
  exact List.map_congr_left fun x _ => (versions_eq h (hfit.file h) x.1).symm

omit [DecidableEq Key] in
theorem length_logsIn (readOrder : SegmentOrder) :
    (logsIn lib log (mergeInputs readOrder s)).length = (mergedIds readOrder s).length := by
  rw [logsIn, mergedIds, List.length_map, List.length_map]

/-- **A reader does not notice a merge exactly when** fewer than two segments are read, or every key
with a survivor already has the survivor's value, and no key without one has its record in a file that
is read. -/
theorem beginMerge_preserves_iff {m : Key → Option (List UInt8)} (henv : env.Behaves)
    (hrun : Run lib env (fun _ _ => True) m s) (hfit : s.segments.Fits) (readOrder : SegmentOrder)
    (writeOrder : ChangeOrder Key) :
    (∃ s', beginMerge lib env readOrder writeOrder s = (.ok (), s')
        ∧ ∀ key, s'.get key = s.get key)
      ↔ (mergedIds readOrder s).length < 2 ∨ ∀ key,
        match survivor key ((mergedIds readOrder s).map (s.segments.versions lib)) with
        | some entry => s.get key = .ok entry.value
        | none => ∀ r, s.keyDirectory.lookup key = some r → r.fileId ∉ mergedIds readOrder s := by
  obtain ⟨log, htidy⟩ := hrun.tidy henv
  have h := htidy.holds
  have hfile := hfit.file h
  have hread := segmentsToMerge_of_fits h hfit readOrder
  have hlength : (logsIn lib log _).length = _ := @length_logsIn _ lib log s readOrder
  rcases Nat.lt_or_ge (mergedIds readOrder s).length 2 with hlen | hlen
  · rw [← hlength] at hlen
    exact ⟨fun _ => .inl (hlength ▸ hlen), fun _ => ⟨s, beginMerge_of_lt hread hlen, fun _ => rfl⟩⟩
  · obtain ⟨s', log', hs', hm⟩ := merged_of_beginMerge henv h writeOrder hread (hlength ▸ hlen)
    rw [map_snd_logsIn h hfit] at hm
    have hkey : ∀ key, s'.get key = s.get key ↔
        match survivor key ((mergedIds readOrder s).map (s.segments.versions lib)) with
        | some entry => s.get key = .ok entry.value
        | none => ∀ r, s.keyDirectory.lookup key = some r → r.fileId ∉ mergedIds readOrder s := by
      intro key
      rcases hkept : survivor key ((mergedIds readOrder s).map (s.segments.versions lib))
        with _ | entry
      · refine ⟨fun hsame r hr hid => ?_, hm.get_of_left henv htidy hkept⟩
        exact hm.get_ne_of_read h hkept hr hid (present_of_mem_mergedIds h hid).1 hsame
      · rw [hm.get_of_kept hkept (length_of_survivor h hfile hkept)]
        exact eq_comm
    constructor
    · rintro ⟨s'', hs'', hsame⟩
      obtain rfl := congrArg Prod.snd (hs'.symm.trans hs'')
      exact .inr fun key => (hkey key).mp (hsame key)
    · rintro (hlt | hall)
      · omega
      · exact ⟨s', hs', fun key => (hkey key).mpr (hall key)⟩

/-- The records that such a merge reads have two keys between them… -/
theorem key_of_versions_writtenApart {key : List UInt8} {entry : MappedStoredEntry (List UInt8)}
    (h : survivor key ((mergedIds .asKept writtenApart).map (writtenApart.segments.versions byteKeys))
      = some entry) : key = [7] ∨ key = [8] := by
  have hkeys : ∀ entries ∈ (mergedIds .asKept writtenApart).map (writtenApart.segments.versions byteKeys),
      ∀ entry ∈ entries, entry.key = [7] ∨ entry.key = [8] := by decide +kernel
  obtain ⟨⟨entries, hentries, hin⟩, rfl⟩ := mem_of_survivor h
  exact hkeys entries hentries entry hin

/-- …and a third one is in the active segment: no reader notices. -/
theorem beginMerge_preserves_writtenApart :
    (mergedIds .asKept writtenApart).length = 3
      ∧ ∃ s', beginMerge byteKeys steady .asKept .asKept writtenApart = (.ok (), s')
        ∧ ∀ key, s'.get key = writtenApart.get key := by
  refine ⟨by decide +kernel, (beginMerge_preserves_iff behaves_steady run_writtenApart (by decide +kernel)
    .asKept .asKept).mpr (.inr fun key => ?_)⟩
  rcases hkept : survivor key
    ((mergedIds .asKept writtenApart).map (writtenApart.segments.versions byteKeys)) with _ | entry
  · intro r hr hid
    have hread : ∀ x ∈ writtenApart.keyDirectory.entries, x.2.fileId ∈ mergedIds .asKept writtenApart →
        (survivor x.1 ((mergedIds .asKept writtenApart).map
          (writtenApart.segments.versions byteKeys))).isSome := by decide +kernel
    have hsome := hread ⟨key, r⟩ (AList.mem_lookup_iff.mp hr) hid
    rw [hkept] at hsome
    cases hsome
  · have hvalues : ∀ key ∈ [[7], [8]], (survivor key ((mergedIds .asKept writtenApart).map
        (writtenApart.segments.versions byteKeys))).map (fun entry => Except.ok entry.value)
          = some (writtenApart.get key) := by decide +kernel
    have hvalue := hvalues key (by simpa using key_of_versions_writtenApart hkept)
    rw [hkept] at hvalue
    exact (Option.some.inj hvalue).symm

/-! ## An old value comes back -/

omit [DecidableEq Key] in
theorem Step.Plain.writes {x : Step Key} (h : x.Plain lib s) : x.Writes := by
  rcases x with _ | _ | _
  · trivial
  · trivial
  · exact h

/-- **A reader notices a merge**: the last value is in the active segment, which is not read, and the
directory is pointed at an older one. -/
theorem not_beginMerge_preserves :
    ¬∀ (m : List UInt8 → Option (List UInt8)) (s : KVStore (List UInt8)),
      steady.Behaves → Monotone (fun i => (steady.now i).toNat) →
        Run byteKeys steady (fun _ x => x.Writes) m s →
          ∀ readOrder writeOrder, ∃ s',
            beginMerge byteKeys steady readOrder writeOrder s = (.ok (), s')
              ∧ ∀ key, s'.get key = s.get key := by
  intro hall
  obtain ⟨s', hs', hget⟩ :=
    hall _ writtenTwice behaves_steady (fun _ _ _ => le_rfl)
      (run_writtenTwice.mono Step.Plain.writes) .asKept .asKept
  obtain rfl := congrArg Prod.snd hs'
  have hbefore : writtenTwice.get [7] = .ok [2] := by decide +kernel
  have hafter : (beginMerge byteKeys steady .asKept .asKept writtenTwice).2.get [7] = .ok [1] := by
    decide +kernel
  have := hget [7]
  rw [hafter, hbefore] at this
  cases this

end Bitspend.Kv
