import Bitspend.Kv.Runs

/-!
# Kv/Reload — what a store answers after it was reopened

Reopening rebuilds the key directory from the files alone: every record of every inactive segment is
inserted, in the order the segments come in, tombstones like any other.  So a key ends up with the last
record of the file that came last among those that have it (`get_opened`), and since any file can come
last, the answer is the right one in every order exactly when all the files that have the key end in
the same value (`reopen_preserves_iff`).  A deleted key has a file that ends in its tombstone, which
is read as an empty value.
-/

namespace Bitspend.Kv

variable {Key : Type} {lib : KeyLib Key} {env : Env} {log : ℕ → List (Entry Key)}

/-! ## What the files say of a key -/

namespace Segments

/-- The records a scan of a file gives; none where there is no file. -/
def versions (lib : KeyLib Key) (s : Segments) (fileId : ℕ) : List (MappedStoredEntry Key) :=
  match s.segment? fileId with
  | some g =>
    match g.readFull lib s.world with
    | .ok entries => entries
    | .error _ => []
  | none => []

/-- **A file's last record of the key has the value** — a tombstone's value is empty. -/
def Latest [DecidableEq Key] (lib : KeyLib Key) (s : Segments) (key : Key) (value : List UInt8) : Prop :=
  ∃ fileId entry, HashMap.last MappedStoredEntry.key key (s.versions lib fileId) = some entry
    ∧ entry.value = value

/-- **The scan can address every file**: a segment file is shorter than `2 ^ 32` bytes, as a buffer of
a 32-bit target is. -/
def Fits (s : Segments) : Prop :=
  ∀ fileId g, s.segment? fileId = some g → (g.store.readFull s.world).length < 2 ^ 32

variable {s : Segments}

/-- The files are those of the segments. -/
theorem fits_iff : s.Fits ↔ (s.activeSegment.store.readFull s.world).length < 2 ^ 32
    ∧ ∀ x ∈ s.inactiveSegments.entries, x.1 ≠ s.activeSegment.fileId →
      (x.2.store.readFull s.world).length < 2 ^ 32 := by
  refine ⟨fun h => ⟨h _ _ (segment?_active s), fun x hx hne => ?_⟩, fun ⟨hactive, hinactive⟩ => ?_⟩
  · exact h x.1 x.2 ((segment?_of_ne hne).trans (AList.mem_lookup_iff.mpr hx))
  · intro fileId g hg
    by_cases hid : fileId = s.activeSegment.fileId
    · rw [hid, segment?_active, Option.some.injEq] at hg
      rwa [← hg]
    · rw [segment?_of_ne hid] at hg
      exact hinactive ⟨fileId, g⟩ (AList.mem_lookup_iff.mp hg) hid

instance : Decidable s.Fits := decidable_of_iff _ fits_iff.symm

theorem Fits.file (hfit : s.Fits) (h : s.Holds lib env log) (fileId : ℕ) :
    (lib.file (log fileId)).length < 2 ^ 32 := by
  have hnode := h.node fileId
  rcases hg : s.segment? fileId with _ | g
  · rw [h.world.log_of_none (h.segment?_eq_none.mp hg)]
    exact Nat.two_pow_pos 32
  · rw [hg, Option.map_some] at hnode
    rw [← h.world.file_of_lookup hnode.symm]
    exact hfit fileId g hg

/-- **A scan gives the log**, each record where it stands. -/
theorem readFull_of_fits (h : s.Holds lib env log)
    (hfit : ∀ fileId, (lib.file (log fileId)).length < 2 ^ 32) {fileId : ℕ} {g : Segment}
    (hg : s.segment? fileId = some g) :
    g.readFull lib s.world = .ok (lib.layout 0 (log fileId)) := by
  rw [h.readFull_eq hg, lib.decodeMulti_file (hfit fileId)]

theorem versions_eq (h : s.Holds lib env log)
    (hfit : ∀ fileId, (lib.file (log fileId)).length < 2 ^ 32) (fileId : ℕ) :
    s.versions lib fileId = lib.layout 0 (log fileId) := by
  rw [versions]
  rcases hg : s.segment? fileId with _ | g
  · rw [h.world.log_of_none (h.segment?_eq_none.mp hg)]
    rfl
  · change (match g.readFull lib s.world with | .ok entries => entries | .error _ => []) = _
    rw [readFull_of_fits h hfit hg]

/-- A file with a record is there. -/
theorem isSome_of_versions {fileId : ℕ} {entry : MappedStoredEntry Key}
    (h : entry ∈ s.versions lib fileId) : (s.segment? fileId).isSome := by
  rcases hg : s.segment? fileId with _ | g
  · rw [versions, hg] at h
    cases h
  · rfl

/-- A record of the layout stands where the directory then points. -/
theorem stands_of_mem_layout (hfit : ∀ fileId, (lib.file (log fileId)).length < 2 ^ 32)
    {fileId : ℕ} {entry : MappedStoredEntry Key} (h : entry ∈ lib.layout 0 (log fileId)) :
    ∃ e, Stands lib log (KVStore.pointer (fileId, entry)) e ∧ e.key = entry.key
      ∧ e.value = entry.value ∧ e.deleted = entry.deleted ∧ (lib.bytes e).length < 2 ^ 32 := by
  obtain ⟨l, e, l', hl, rfl⟩ := lib.exists_of_mem_layout h
  have hlt := hfit fileId
  rw [hl, KeyLib.file_append, KeyLib.file_cons, List.length_append, List.length_append] at hlt
  refine ⟨e, ⟨l, l', hl, ?_, rfl⟩, rfl, rfl, rfl, by omega⟩
  change (UInt32.ofNat (0 + (lib.file l).length)).toNat = _
  rw [Nat.zero_add, toNat_ofNat_of_lt (by omega)]

end Segments

namespace KVStore

open Segments

variable [DecidableEq Key]

theorem last_map_pair (fileId : ℕ) (key : Key) (entries : List (MappedStoredEntry Key)) :
    HashMap.last (fun x => x.2.key) key (entries.map fun entry => (fileId, entry))
      = (HashMap.last MappedStoredEntry.key key entries).map fun entry => (fileId, entry) := by
  rw [HashMap.last, HashMap.last, List.filter_map, List.getLast?_map]
  rfl

/-- **The last record of a key is the last of some file.** -/
theorem exists_of_last_records {key : Key} {contents : List (ℕ × List (MappedStoredEntry Key))}
    {x : ℕ × MappedStoredEntry Key}
    (h : HashMap.last (fun x => x.2.key) key (records contents) = some x) :
    ∃ entries, (x.1, entries) ∈ contents
      ∧ HashMap.last MappedStoredEntry.key key entries = some x.2 := by
  induction contents using List.reverseRecOn with
  | nil => cases h
  | append_singleton contents y ih =>
    rw [records, List.flatMap_append, HashMap.last_append, List.flatMap_singleton,
      last_map_pair] at h
    rcases hy : HashMap.last MappedStoredEntry.key key y.2 with _ | entry
    · rw [hy] at h
      obtain ⟨entries, hmem, hlast⟩ := ih h
      exact ⟨entries, List.mem_append_left _ hmem, hlast⟩
    · rw [hy] at h
      obtain rfl := Option.some.inj h
      exact ⟨y.2, List.mem_append_right _ List.mem_cons_self, hy⟩

/-- A file that has the key gives it a last record. -/
theorem isSome_last_records {key : Key} {contents : List (ℕ × List (MappedStoredEntry Key))}
    {y : ℕ × List (MappedStoredEntry Key)} (hy : y ∈ contents) {entry : MappedStoredEntry Key}
    (hentry : HashMap.last MappedStoredEntry.key key y.2 = some entry) :
    (HashMap.last (fun x => x.2.key) key (records contents)).isSome := by
  obtain ⟨l, l', rfl⟩ := List.append_of_mem hy
  rw [records, List.flatMap_append, List.flatMap_cons, HashMap.last_append, HashMap.last_append,
    last_map_pair, hentry]
  rcases HashMap.last _ key (l'.flatMap _) with _ | x
  · rfl
  · rfl

/-! ## The store after it was reopened -/

variable {segments : Segments} {order : SegmentOrder} {config : Config}

/-- The segments a scan takes, with their logs. -/
def logsIn (lib : KeyLib Key) (log : ℕ → List (Entry Key))
    (xs : List (Sigma fun _ : ℕ => Segment)) : List (ℕ × List (MappedStoredEntry Key)) :=
  xs.map fun x => (x.1, lib.layout 0 (log x.1))

omit [DecidableEq Key] in
theorem mapM_readSegment (h : Segments.Holds lib env segments log)
    (hfit : ∀ fileId, (lib.file (log fileId)).length < 2 ^ 32)
    {xs : List (Sigma fun _ : ℕ => Segment)}
    (hxs : ∀ x ∈ xs, segments.inactiveSegments.lookup x.1 = some x.2) :
    xs.mapM (readSegment lib segments.world) = .ok (logsIn lib log xs) := by
  refine Outcome.mapM_ok fun x hx => ?_
  rw [readSegment, readFull_of_fits h hfit (h.segment?_of_inactive (hxs x hx))]
  rfl

omit [DecidableEq Key] in
/-- A merge can read what fits. -/
theorem segmentsToMerge_of_fits {s : KVStore Key} (h : s.segments.Holds lib env log)
    (hfit : s.segments.Fits) (order : SegmentOrder) :
    segmentsToMerge lib order s = .ok (logsIn lib log (mergeInputs order s)) := by
  rw [segmentsToMerge_eq]
  exact mapM_readSegment h (hfit.file h) fun x hx => lookup_of_mem_mergeInputs hx

/-- **A reopened store answers with the last record of the key**, the one its directory was left
with. -/
theorem get_opened (h : Segments.Holds lib env segments log)
    (hfit : ∀ fileId, (lib.file (log fileId)).length < 2 ^ 32) (config : Config)
    {xs : List (Sigma fun _ : ℕ => Segment)}
    (hxs : ∀ x ∈ xs, segments.inactiveSegments.lookup x.1 = some x.2) (key : Key) :
    (opened config segments (logsIn lib log xs)).get key
      = Outcome.okOr .entryNotFound ((HashMap.last (fun x => x.2.key) key
        (records (logsIn lib log xs))).map fun x => x.2.value) := by
  have hlookup : (opened config segments (logsIn lib log xs)).keyDirectory.lookup key
      = (HashMap.last (fun x => x.2.key) key (records (logsIn lib log xs))).map pointer := by
    rw [opened, HashMap.lookup_insertAll, AList.lookup_empty, Option.or_none]
  rcases hlast : HashMap.last (fun x => x.2.key) key (records (logsIn lib log xs)) with _ | x
  · rw [hlast] at hlookup ⊢
    exact get_of_none hlookup
  · rw [hlast] at hlookup ⊢
    obtain ⟨entries, hmem, hentry⟩ := exists_of_last_records hlast
    obtain ⟨y, hy, hpair⟩ := List.mem_map.mp hmem
    obtain ⟨hid, rfl⟩ := Prod.mk.inj hpair
    rw [hid] at hentry
    obtain ⟨e, hst, -, hvalue, -, hlt⟩ :=
      stands_of_mem_layout hfit (HashMap.key_of_last hentry).1
    have hpresent : (segments.segment? x.1).isSome := by
      rw [← hid, h.segment?_of_inactive (hxs y hy)]
      rfl
    rw [get_of_stands h hlookup hpresent hst hlt, hvalue]
    rfl

end KVStore

/-! ## Reopening keeps the contents, or does not -/

section Reopen

open KVStore Segments

variable [DecidableEq Key] {s : KVStore Key} {m : Key → Option (List UInt8)}

/-- **What `KVStore::new` makes of a directory of logs it can address**: the inactive segments are the
files that were there, and the directory is left with the last records. -/
theorem new_of_fits (henv : env.Behaves) (h : s.segments.Holds lib env log)
    (hfit : ∀ fileId, (lib.file (log fileId)).length < 2 ^ 32) (config : Config) :
    ∃ xs : List (Sigma fun _ : ℕ => Segment),
      (∀ fileId, (s.segments.segment? fileId).isSome → ∃ x ∈ xs, x.1 = fileId)
      ∧ (∀ x ∈ xs, (s.segments.segment? x.1).isSome)
      ∧ ∀ order : SegmentOrder, ∃ s', new lib env config order s = (.ok (), s')
        ∧ ∀ key, s'.get key = Outcome.okOr .entryNotFound ((HashMap.last (fun x => x.2.key) key
          (records (logsIn lib log (order.iter xs)))).map fun x => x.2.value) := by
  obtain ⟨segments, h', hactive, hdisk, hnew⟩ := new_eq henv h.world config
  have hlook : ∀ (order : SegmentOrder), ∀ x ∈ order.iter segments.inactiveSegments.entries,
      segments.inactiveSegments.lookup x.1 = some x.2 := fun order x hx =>
    AList.mem_lookup_iff.mpr (order.mem_iter.mp hx)
  have hsame : ∀ fileId, fileId ≠ segments.activeSegment.fileId →
      (segments.segment? fileId).isSome = (s.segments.segment? fileId).isSome := by
    intro fileId hne
    rw [hactive] at hne
    rw [h'.isSome_segment?, h.isSome_segment?, hdisk, World.grown,
      Disk.lookup_create_of_ne fun hname => hne (segmentName_injective hname)]
  refine ⟨segments.inactiveSegments.entries, fun fileId hid => ?_, fun x hx => ?_, fun order => ?_⟩
  · have hne : fileId ≠ segments.activeSegment.fileId := by
      rintro rfl
      rw [hactive, h.segment?_fresh henv] at hid
      cases hid
    rw [← hsame fileId hne, segment?_of_ne hne] at hid
    obtain ⟨g, hg⟩ := Option.isSome_iff_exists.mp hid
    exact ⟨⟨fileId, g⟩, AList.mem_lookup_iff.mp hg, rfl⟩
  · have hx' := AList.mem_lookup_iff.mpr hx
    have hne := ne_active_of_inactive h'.apart hx'
    rw [← hsame x.1 hne, segment?_of_ne hne, hx']
    rfl
  · refine ⟨opened config segments
      (logsIn lib log (order.iter segments.inactiveSegments.entries)), ?_, ?_⟩
    · rw [hnew, mapM_readSegment h' hfit (hlook order)]
    · exact get_opened h' hfit config (hlook order)

section Last

variable {xs : List (Sigma fun _ : ℕ => Segment)} {order : SegmentOrder} {key : Key}
  (h : s.segments.Holds lib env log)
  (hfile : ∀ fileId, (lib.file (log fileId)).length < 2 ^ 32)

include h hfile

/-- The directory is left with a record that some file ends in… -/
theorem latest_of_last {x : ℕ × MappedStoredEntry Key}
    (hlast : HashMap.last (fun x => x.2.key) key (records (logsIn lib log (order.iter xs)))
      = some x) : Latest lib s.segments key x.2.value := by
  obtain ⟨entries, hmem, hentry⟩ := exists_of_last_records hlast
  obtain ⟨y, -, hpair⟩ := List.mem_map.mp hmem
  obtain ⟨hid, rfl⟩ := Prod.mk.inj hpair
  rw [hid] at hentry
  exact ⟨x.1, x.2, by rw [versions_eq h hfile, hentry], rfl⟩

variable (hin : ∀ fileId, (s.segments.segment? fileId).isSome → ∃ x ∈ xs, x.1 = fileId)

include hin

/-- …with some record, if a file has the key… -/
theorem isSome_last_of_latest {value : List UInt8} (hlatest : Latest lib s.segments key value) :
    (HashMap.last (fun x => x.2.key) key (records (logsIn lib log (order.iter xs)))).isSome := by
  obtain ⟨fileId, entry, hentry, -⟩ := hlatest
  obtain ⟨x, hx, rfl⟩ := hin fileId (isSome_of_versions (HashMap.key_of_last hentry).1)
  rw [versions_eq h hfile] at hentry
  exact isSome_last_records (List.mem_map.mpr ⟨x, order.mem_iter.mpr hx, rfl⟩) hentry

/-- …and with any of them, in some order. -/
theorem exists_order_of_latest {value : List UInt8} (hlatest : Latest lib s.segments key value) :
    ∃ (order : SegmentOrder) (x : ℕ × MappedStoredEntry Key),
      HashMap.last (fun x => x.2.key) key (records (logsIn lib log (order.iter xs))) = some x
      ∧ x.2.value = value := by
  obtain ⟨fileId, entry, hentry, hvalue⟩ := hlatest
  obtain ⟨x, hx, rfl⟩ := hin fileId (isSome_of_versions (HashMap.key_of_last hentry).1)
  obtain ⟨order, pre, horder⟩ := IterOrder.exists_last hx
  refine ⟨order, (x.1, entry), ?_, hvalue⟩
  rw [versions_eq h hfile] at hentry
  rw [horder, logsIn, List.map_append, records, List.flatMap_append, HashMap.last_append,
    List.map_singleton, List.flatMap_singleton, last_map_pair, hentry]
  rfl

end Last

/-- **Reopening keeps the contents exactly when the files agree on them.**  After any run, with every
file short enough to scan: a store reopened over the directory, with any configuration and in any
iteration order, answers as before, and so with the last value written, if and only if it answered so
before and, for every key, the last value written is what every file that has the key ends in, some file
has it, and no file has a key that was deleted or never written. -/
theorem reopen_preserves_iff (henv : env.Behaves) (hrun : Run lib env (fun _ _ => True) m s)
    (hfit : s.segments.Fits) :
    (∀ config order, ∃ s', new lib env config order s = (.ok (), s')
        ∧ ∀ key, s'.get key = s.get key
          ∧ s.get key = Outcome.okOr .entryNotFound (m key))
      ↔ ∀ key, s.get key = Outcome.okOr .entryNotFound (m key)
        ∧ ∀ value, Latest lib s.segments key value ↔ m key = some value := by
  obtain ⟨log, htidy⟩ := hrun.tidy henv
  have h := htidy.holds
  have hfile := hfit.file h
  constructor
  · intro hkeep key
    obtain ⟨xs, hin, -, hnew⟩ := new_of_fits henv h hfile ⟨0, .newWithAllSegmentsToRead⟩
    have hlast : ∀ order : SegmentOrder, (HashMap.last (fun x => x.2.key) key
        (records (logsIn lib log (order.iter xs)))).map (fun x => x.2.value) = m key := by
      intro order
      obtain ⟨s', hs', hget⟩ := hnew order
      obtain ⟨s'', hs'', hsame⟩ := hkeep _ order
      obtain rfl := congrArg Prod.snd (hs'.symm.trans hs'')
      exact Outcome.okOr_injective ((hget key).symm.trans ((hsame key).1.trans (hsame key).2))
    obtain ⟨s', -, hsame⟩ := hkeep ⟨0, .newWithAllSegmentsToRead⟩ .asKept
    refine ⟨(hsame key).2, fun value => ⟨fun hlatest => ?_, fun hm => ?_⟩⟩
    · obtain ⟨order, x, hx, rfl⟩ := exists_order_of_latest h hfile hin hlatest
      rw [← hlast order, hx]
      rfl
    · rw [← hlast .asKept, Option.map_eq_some_iff] at hm
      obtain ⟨x, hx, rfl⟩ := hm
      exact latest_of_last h hfile hx
  · intro hagree config order
    obtain ⟨xs, hin, -, hnew⟩ := new_of_fits henv h hfile config
    obtain ⟨s', hs', hget⟩ := hnew order
    refine ⟨s', hs', fun key => ?_⟩
    obtain ⟨hbefore, hiff⟩ := hagree key
    refine ⟨?_, hbefore⟩
    rw [hget key, hbefore]
    congr 1
    rcases hlast : HashMap.last (fun x => x.2.key) key
      (records (logsIn lib log (order.iter xs))) with _ | x
    · rw [hlast]
      rcases hm : m key with _ | value
      · rfl
      · have hsome := @isSome_last_of_latest _ lib env log _ s xs order key h hfile hin _ ((hiff value).mpr hm)
        rw [hlast] at hsome
        cases hsome
    · rw [hlast]
      exact ((hiff _).mp (latest_of_last h hfile hlast)).symm

end Reopen

/-! ## A deleted key comes back -/

/-- The library's configuration. -/
def libraryConfig : Config := ⟨1048576, .newWithAllSegmentsToRead⟩

/-- A store in which a key was written… -/
def writtenOnce : KVStore (List UInt8) :=
  (KVStore.update byteKeys steady .asKept .asKept [7] [1]
    (KVStore.new byteKeys steady libraryConfig .asKept (.closed .empty)).2).2

/-- …and deleted again. -/
def writtenAndDeleted : KVStore (List UInt8) := (KVStore.delete byteKeys steady [7] writtenOnce).2

theorem run_written :
    Run byteKeys steady (fun _ _ => True) (Function.update (fun _ => none) [7] (some [1])) writtenOnce :=
  .step (x := .update .asKept .asKept [7] [1])
    (@Run.start _ _ _ _ _ libraryConfig .asKept _ (Prod.ext rfl rfl)) trivial (Prod.ext rfl rfl)

theorem run_deleted :
    Run byteKeys steady (fun _ _ => True)
      (Function.update (Function.update (fun _ => none) [7] (some [1])) [7] none) writtenAndDeleted :=
  .step (x := .delete [7]) run_written trivial (Prod.ext rfl rfl)

/-- A segment per record, and merges of all inactive segments. -/
def smallSegments : Config := ⟨0, .newWithAllSegmentsToRead⟩

/-- Two small records fill a segment. -/
def pairSegments : Config := ⟨20, .newWithAllSegmentsToRead⟩

/-- A session that has written three keys, each to a file of its own. -/
def writtenApart : KVStore (List UInt8) :=
  (KVStore.update byteKeys steady .asKept .asKept [9] [3]
    (KVStore.update byteKeys steady .asKept .asKept [8] [2]
      (KVStore.update byteKeys steady .asKept .asKept [7] [1]
        (KVStore.new byteKeys steady smallSegments .asKept (.closed .empty)).2).2).2).2

/-- What its reader expects. -/
def expectedApart : List UInt8 → Option (List UInt8) :=
  Function.update (Function.update (Function.update (fun _ => none) [7] (some [1])) [8] (some [2]))
    [9] (some [3])

theorem run_writtenApart : Run byteKeys steady (fun _ _ => True) expectedApart writtenApart :=
  .step (x := .update .asKept .asKept [9] [3])
    (.step (x := .update .asKept .asKept [8] [2])
      (.step (x := .update .asKept .asKept [7] [1])
        (@Run.start _ _ _ _ _ smallSegments .asKept _ (Prod.ext rfl rfl)) trivial (Prod.ext rfl rfl))
      trivial (Prod.ext rfl rfl)) trivial (Prod.ext rfl rfl)

/-- The statement at that store. -/
theorem reopen_preserves_writtenApart :
    (writtenApart.segments.activeSegment.fileId :: writtenApart.segments.inactiveSegments.keys).length = 4
      ∧ [[7], [8], [9]].map writtenApart.get = [.ok [1], .ok [2], .ok [3]]
      ∧ ((∀ config order, ∃ s', KVStore.new byteKeys steady config order writtenApart = (.ok (), s')
          ∧ ∀ key, s'.get key = writtenApart.get key
            ∧ writtenApart.get key = Outcome.okOr .entryNotFound (expectedApart key))
        ↔ ∀ key, writtenApart.get key = Outcome.okOr .entryNotFound (expectedApart key)
          ∧ ∀ value, Segments.Latest byteKeys writtenApart.segments key value
            ↔ expectedApart key = some value) :=
  ⟨by decide +kernel, by decide +kernel,
    reopen_preserves_iff behaves_steady run_writtenApart (by decide +kernel)⟩

/-- **Reopening does not keep the contents**: the tombstone of a deleted key is read as an empty
value. -/
theorem not_reopen_preserves_deleted :
    ¬∀ (m : List UInt8 → Option (List UInt8)) (s : KVStore (List UInt8)),
      steady.Behaves → Run byteKeys steady (fun _ _ => True) m s →
        ∀ config order, ∃ s', KVStore.new byteKeys steady config order s = (.ok (), s')
          ∧ ∀ key, s'.get key = s.get key ∧ s.get key = Outcome.okOr .entryNotFound (m key) := by
  intro hall
  obtain ⟨s', hs', hget⟩ := hall _ writtenAndDeleted behaves_steady run_deleted libraryConfig .asKept
  obtain rfl := congrArg Prod.snd hs'
  have hbefore : writtenAndDeleted.get [7] = Outcome.err .entryNotFound := rfl
  have hafter : (KVStore.new byteKeys steady libraryConfig .asKept writtenAndDeleted).2.get [7] = .ok [] := rfl
  have := (hget [7]).1
  rw [hafter, hbefore] at this
  cases this

end Bitspend.Kv
