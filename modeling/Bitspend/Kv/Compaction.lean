import Bitspend.Kv.Effects

/-!
# Kv/Compaction — what merging is for

A merge of all inactive segments leaves each key one record at most among them, and no more bytes than
there were (`merge_compacts`).  When the next merge comes is counted in updates: in a session that meets
no error every so many of them, and deletes do not count (`due_iff`).
-/

namespace Bitspend.Kv

open Segments KVStore

/-- Each of some things, which are apart by their keys, weighs no more than one of the others that has
its key: together they weigh no more. -/
theorem sum_le_sum_of_keys {α β κ : Type} {key : α → κ} {key' : β → κ} {f : α → ℕ} {g : β → ℕ}
    {as : List α} {bs : List β} (hnodup : (as.map key).Nodup)
    (h : ∀ a ∈ as, ∃ b ∈ bs, key' b = key a ∧ f a ≤ g b) : (as.map f).sum ≤ (bs.map g).sum := by
  induction as generalizing bs with
  | nil => exact Nat.zero_le _
  | cons a as ih =>
    obtain ⟨hnot, hrest⟩ := List.nodup_cons.mp hnodup
    obtain ⟨b, hb, hkey, hle⟩ := h a List.mem_cons_self
    obtain ⟨l, l', rfl⟩ := List.append_of_mem hb
    have hothers : (as.map f).sum ≤ ((l ++ l').map g).sum := by
      refine ih hrest fun a' ha' => ?_
      obtain ⟨b', hb', hkey', hle'⟩ := h a' (List.mem_cons_of_mem _ ha')
      refine ⟨b', ?_, hkey', hle'⟩
      rcases List.mem_append.mp hb' with hl | hl'
      · exact List.mem_append_left _ hl
      · rcases List.mem_cons.mp hl' with rfl | hl'
        · exact absurd (List.mem_map.mpr ⟨a', ha', hkey'.symm.trans hkey⟩) hnot
        · exact List.mem_append_right _ hl'
    simp only [List.map_append, List.map_cons, List.sum_append, List.sum_cons] at hothers ⊢
    omega

variable {Key : Type} {lib : KeyLib Key} {env : Env} {log log' : ℕ → List (Entry Key)}

/-! ## How much is read -/

/-- The bytes of the inactive segments. -/
def Segments.inactiveSize (s : Segments) : ℕ :=
  (s.inactiveSegments.entries.map fun x => (x.2.store.readFull s.world).length).sum

theorem KeyLib.length_file (lib : KeyLib Key) (log : List (Entry Key)) :
    (lib.file log).length = (log.map fun e => (lib.bytes e).length).sum := by
  rw [KeyLib.file, List.length_flatMap]

/-- They are those of its records. -/
theorem Segments.Holds.inactiveSize_eq {s : Segments} (h : s.Holds lib env log) {ids : List ℕ}
    (hids : (s.inactiveSegments.entries.map Sigma.fst).Perm ids) :
    s.inactiveSize = ((ids.flatMap log).map fun e => (lib.bytes e).length).sum := by
  have hread : ∀ x ∈ s.inactiveSegments.entries, (x.2.store.readFull s.world).length
      = ((log x.1).map fun e => (lib.bytes e).length).sum := by
    intro x hx
    have hnode := h.node x.1
    rw [h.segment?_of_inactive (AList.mem_lookup_iff.mpr hx), Option.map_some] at hnode
    rw [WasiStore.readFull, h.world.file_of_lookup hnode.symm, KeyLib.length_file]
  have hsum : ∀ l : List ℕ, ((l.flatMap log).map fun e => (lib.bytes e).length).sum
      = (l.map fun id => ((log id).map fun e => (lib.bytes e).length).sum).sum := by
    intro l
    rw [List.map_flatMap, List.flatMap_def, List.sum_flatten, List.map_map]
    rfl
  rw [Segments.inactiveSize, List.map_congr_left hread, hsum, ← (hids.map _).sum_nat, List.map_map]
  rfl

/-! ## One record per key -/

section Merge

/-- What is written back has a key once. -/
theorem KVStore.nodup_changesIn (order : ChangeOrder Key) (state : MergedState Key) :
    ((changesIn order state).map Prod.fst).Nodup := by
  rw [changesIn, List.map_map]
  exact ((order.perm state.valueByKey.entries).map Sigma.fst).nodup_iff.mpr state.valueByKey.nodupKeys

/-- A scan of segments gives the keys of their logs. -/
theorem map_key_records (xs : List (Sigma fun _ : ℕ => Segment)) :
    (records (logsIn lib log xs)).map (fun x => x.2.key)
      = ((xs.map Sigma.fst).flatMap log).map Entry.key := by
  have hlayout : ∀ (l : List (Entry Key)) (offset : ℕ),
      (lib.layout offset l).map MappedStoredEntry.key = l.map Entry.key := by
    intro l
    induction l with
    | nil => exact fun _ => rfl
    | cons e l ih => exact fun offset => congrArg (e.key :: ·) (ih _)
  induction xs with
  | nil => rfl
  | cons x xs ih =>
    rw [logsIn, List.map_cons, records, List.flatMap_cons, List.map_append, List.map_map,
      List.map_cons, List.flatMap_cons, List.map_append, ← hlayout (log x.1) 0]
    exact congrArg _ ih

variable [DecidableEq Key] {s : KVStore Key}

omit [DecidableEq Key] in
theorem Segments.activeSegment_remove (s : Segments) (fileIds : List ℕ) :
    (s.remove fileIds).activeSegment = s.activeSegment := by
  induction fileIds generalizing s with
  | nil => rfl
  | cons fileId fileIds ih => exact (ih (s.removeOne fileId)).trans (activeSegment_removeOne s fileId)

/-- **A merge of two segments or more, file by file**: the segments it has read are gone, and those it
has made hold a copy of each record it has kept. -/
theorem beginMerge_copies (henv : env.Behaves) (h : s.segments.Holds lib env log)
    (hfit : s.segments.Fits) (readOrder : SegmentOrder) (writeOrder : ChangeOrder Key)
    (htwo : 2 ≤ (mergeInputs readOrder s).length) :
    ∃ (s' : KVStore Key) (log' : ℕ → List (Entry Key)) (ids : List ℕ),
      beginMerge lib env readOrder writeOrder s = (.ok (), s')
      ∧ s'.segments.Holds lib env log' ∧ s'.mergeConfig = s.mergeConfig
      ∧ s'.segments.activeSegment = s.segments.activeSegment ∧ ids.Nodup
      ∧ (∀ fileId, (s'.segments.segment? fileId).isSome ↔ fileId ∈ ids
        ∨ (s.segments.segment? fileId).isSome ∧ fileId ∉ mergedIds readOrder s)
      ∧ (∀ fileId ∈ ids, s.segments.segment? fileId = none)
      ∧ List.Forall₂ Copied (changesIn writeOrder (MergedState.ofSegments
        ((logsIn lib log (mergeInputs readOrder s)).map Prod.snd))) (ids.flatMap log') := by
  have hread := segmentsToMerge_of_fits h hfit readOrder
  obtain ⟨segments, responses, log₁, ids, hwrite, h₁, hb, -, hmade, hcopies, -, -⟩ :=
    does_writeBack (fun _ _ => True) henv h (changesIn writeOrder (MergedState.ofSegments
      ((logsIn lib log (mergeInputs readOrder s)).map Prod.snd))) (fun _ _ => trivial)
      fun _ _ _ _ _ _ => trivial
  obtain ⟨log', h', hseg, hlog, -⟩ := h₁.remove (mergedIds readOrder s)
  have hnew : ∀ fileId ∈ ids, fileId ∉ mergedIds readOrder s := by
    intro fileId hid hmem
    have hnone := (hmade.mem.mp hid).1
    have hsome := (present_of_mem_mergedIds h hmem).1
    rw [hnone] at hsome
    cases hsome
  have hstays : ∀ fileId ∈ ids, ((segments.remove (mergedIds readOrder s)).segment? fileId).isSome := by
    intro fileId hid
    rw [hseg, if_neg fun hc => hnew fileId hid hc.1]
    exact (hmade.mem.mp hid).2
  refine ⟨{ s with
      keyDirectory := s.keyDirectory.bulkUpdate responses
      segments := segments.remove (mergedIds readOrder s) }, log', ids, ?_, h', rfl, ?_, hmade.nodup,
    fun fileId => ?_, fun fileId hid => (hmade.mem.mp hid).1, ?_⟩
  · rw [beginMerge, Op.ask_bind_of_ok hread, if_pos (by rwa [logsIn, List.length_map]),
      ← map_fst_of_segmentsToMerge hread]
    refine Op.attempt_of_ok (a := ()) ?_
    rw [KVStore.writeBack, Op.bind_apply, onSegments_of_ok hwrite]
    rfl
  · exact (activeSegment_remove segments _).trans hb.active
  · change ((segments.remove (mergedIds readOrder s)).segment? fileId).isSome ↔ _
    constructor
    · intro hsome
      rw [hseg] at hsome
      split_ifs at hsome with hc
      · cases hsome
      · rcases hold : s.segments.segment? fileId with _ | g
        · exact .inl (hmade.mem.mpr ⟨hold, hsome⟩)
        · refine .inr ⟨rfl, fun hmem => hc ⟨hmem, ?_⟩⟩
          rw [hb.active]
          exact (present_of_mem_mergedIds h hmem).2
    · rintro (hid | ⟨hsome, hnot⟩)
      · exact hstays fileId hid
      · rw [hseg, if_neg fun hc => hnot hc.1]
        obtain ⟨g, hg⟩ := Option.isSome_iff_exists.mp hsome
        by_cases hact : fileId = s.segments.activeSegment.fileId
        · rw [hact, ← hb.active, segment?_active]
          rfl
        · rw [segment?_of_ne hact] at hg
          rw [h₁.segment?_of_inactive (hb.inactive hg)]
          rfl
  · rw [List.flatMap_congr fun fileId hid => hlog fileId (hstays fileId hid)]
    exact hcopies

omit [DecidableEq Key] in
/-- All inactive segments are read. -/
theorem perm_mergedIds (hall : s.mergeConfig.shouldReadAllSegments = true) (readOrder : SegmentOrder) :
    (s.segments.inactiveSegments.entries.map Sigma.fst).Perm (mergedIds readOrder s) := by
  rw [mergedIds, mergeInputs, if_pos hall, List.take_of_length_le
    ((readOrder.perm s.segments.inactiveSegments.entries).length_eq.le)]
  exact ((readOrder.perm _).map _).symm

/-- What a merge has written, record by record. -/
theorem copied_of_mem {xs : List (Sigma fun _ : ℕ => Segment)} {writeOrder : ChangeOrder Key}
    {copies : List (Entry Key)} (hcopies : List.Forall₂ Copied (changesIn writeOrder
      (MergedState.ofSegments ((logsIn lib log xs).map Prod.snd))) copies) :
    (copies.map Entry.key).Nodup
      ∧ ∀ e ∈ copies, ∃ x ∈ xs, ∃ e₀ ∈ log x.1, ∃ now, e = e₀.copied now := by
  constructor
  · have hkeys : List.Forall₂ Eq ((changesIn writeOrder
        (MergedState.ofSegments ((logsIn lib log xs).map Prod.snd))).map Prod.fst)
        (copies.map Entry.key) := by
      refine List.forall₂_map_left_iff.mpr (List.forall₂_map_right_iff.mpr (hcopies.imp ?_))
      rintro change e ⟨now, rfl⟩
      rfl
    rw [List.forall₂_eq_eq_eq] at hkeys
    rw [← hkeys]
    exact nodup_changesIn writeOrder _
  · intro e he
    obtain ⟨change, hchange, now, rfl⟩ := Outcome.exists_left_of_forall₂ hcopies he
    obtain ⟨x, hx, e₀, he₀, hcopy⟩ := exists_of_mem_changesIn hchange
    exact ⟨x, hx, e₀, he₀, now, hcopy now⟩

omit [DecidableEq Key] in
/-- Where all inactive segments are gone and the active one stays, the inactive segments are those that
were made. -/
theorem perm_of_segments {s s' : Segments} {gone ids : List ℕ}
    (hapart : s'.inactiveSegments.lookup s'.activeSegment.fileId = none)
    (hactive : s'.activeSegment = s.activeSegment)
    (hgone : (s.inactiveSegments.entries.map Sigma.fst).Perm gone) (hnodup : ids.Nodup)
    (hseg : ∀ fileId, (s'.segment? fileId).isSome ↔ fileId ∈ ids
      ∨ (s.segment? fileId).isSome ∧ fileId ∉ gone)
    (hnew : ∀ fileId ∈ ids, s.segment? fileId = none) :
    (s'.inactiveSegments.entries.map Sigma.fst).Perm ids := by
  refine (List.perm_ext_iff_of_nodup s'.inactiveSegments.nodupKeys hnodup).mpr fun fileId => ?_
  have hinactive : ∀ t : Segments, fileId ∈ t.inactiveSegments.entries.map Sigma.fst
      ↔ (t.inactiveSegments.lookup fileId).isSome := fun t =>
    AList.mem_keys.symm.trans AList.lookup_isSome.symm
  refine (hinactive s').trans ?_
  constructor
  · intro hsome
    obtain ⟨g, hg⟩ := Option.isSome_iff_exists.mp hsome
    have hne := ne_active_of_inactive hapart hg
    have hpresent : (s'.segment? fileId).isSome := by rwa [segment?_of_ne hne]
    obtain hid | ⟨hold, hnot⟩ := (hseg fileId).mp hpresent
    · exact hid
    · rw [hactive] at hne
      rw [segment?_of_ne hne] at hold
      exact absurd (hgone.subset ((hinactive s).mpr hold)) hnot
  · intro hid
    have hsome := (hseg fileId).mpr (.inl hid)
    have hne : fileId ≠ s'.activeSegment.fileId := by
      rintro rfl
      have hnone := hnew _ hid
      rw [hactive, segment?_active] at hnone
      cases hnone
    rwa [segment?_of_ne hne] at hsome

omit [DecidableEq Key] in
@[simp] theorem Entry.deleted_copied (e : Entry Key) (now : UInt64) : (e.copied now).deleted = false := by
  simp [copied, stamped, newPreservingTimestamp, deleted]

omit [DecidableEq Key] in
/-- A scan reports records of the logs. -/
theorem exists_entry_of_mem_records {xs : List (Sigma fun _ : ℕ => Segment)}
    {x : ℕ × MappedStoredEntry Key} (hx : x ∈ records (logsIn lib log xs)) :
    ∃ y ∈ xs, ∃ e ∈ log y.1, x.2.deleted = e.deleted := by
  obtain ⟨z, hz, hxz⟩ := List.mem_flatMap.mp hx
  obtain ⟨entry, hentry, rfl⟩ := List.mem_map.mp hxz
  obtain ⟨y, hy, rfl⟩ := List.mem_map.mp hz
  obtain ⟨l, e, l', hl, rfl⟩ := lib.exists_of_mem_layout hentry
  refine ⟨y, hy, e, ?_, rfl⟩
  rw [hl]
  exact List.mem_append_right _ List.mem_cons_self

/-- **Merging compacts.**  In any run, where all inactive segments are merged and there are two or more:
the inactive segments take no more bytes than before, the active one is left alone, and whoever reads the
inactive ones finds each key once at most, never with a tombstone. -/
theorem merge_compacts (henv : env.Behaves) {m : Key → Option (List UInt8)}
    (hrun : Run lib env (fun _ _ => True) m s) (hfit : s.segments.Fits)
    (hall : s.mergeConfig.shouldReadAllSegments = true)
    (htwo : 2 ≤ s.segments.inactiveSegments.entries.length) (readOrder : SegmentOrder)
    (writeOrder : ChangeOrder Key) :
    ∃ s', beginMerge lib env readOrder writeOrder s = (.ok (), s')
      ∧ s'.segments.activeSegment = s.segments.activeSegment
      ∧ s'.segments.inactiveSize ≤ s.segments.inactiveSize
      ∧ (s'.segments.Fits → ∀ order, ∃ contents, segmentsToMerge lib order s' = .ok contents
        ∧ ((records contents).map fun x => x.2.key).Nodup
        ∧ ∀ x ∈ records contents, x.2.deleted = false) := by
  obtain ⟨log, htidy⟩ := hrun.tidy henv
  have h := htidy.holds
  have hids := perm_mergedIds hall readOrder
  have hlen : 2 ≤ (mergeInputs readOrder s).length := by
    have := hids.length_eq
    rw [mergedIds, List.length_map, List.length_map] at this
    omega
  obtain ⟨s', log', ids, hmerge, h', hconfig, hactive, hnodup, hseg, hnew, hcopies⟩ :=
    beginMerge_copies henv h hfit readOrder writeOrder hlen
  obtain ⟨hkeys, hsource⟩ := copied_of_mem hcopies
  have hids' := perm_of_segments h'.apart hactive hids hnodup hseg hnew
  have hconfig' : s'.mergeConfig.shouldReadAllSegments = true := by rwa [hconfig]
  refine ⟨s', hmerge, hactive, ?_, fun hfit' order => ⟨_, segmentsToMerge_of_fits h' hfit' order, ?_, ?_⟩⟩
  · rw [h.inactiveSize_eq hids, h'.inactiveSize_eq hids']
    refine @sum_le_sum_of_keys _ _ _ Entry.key Entry.key _ _ _ _ hkeys fun e he => ?_
    obtain ⟨x, hx, e₀, he₀, now, rfl⟩ := hsource e he
    refine ⟨e₀, List.mem_flatMap.mpr ⟨x.1, List.mem_map.mpr ⟨x, hx, rfl⟩, he₀⟩, rfl, ?_⟩
    rw [lib.length_bytes, lib.length_bytes]
    exact le_rfl
  · rw [map_key_records]
    have hperm : (mergedIds order s').Perm ids := (perm_mergedIds hconfig' order).symm.trans hids'
    exact ((hperm.flatMap_right log').map Entry.key).nodup_iff.mpr hkeys
  · intro x hx
    obtain ⟨y, hy, e, he, hdeleted⟩ := exists_entry_of_mem_records hx
    have hid : y.1 ∈ ids := hids'.subset ((perm_mergedIds hconfig' order).symm.subset
      (List.mem_map.mpr ⟨y, hy, rfl⟩))
    obtain ⟨-, -, e₀, -, now, rfl⟩ := hsource e (List.mem_flatMap.mpr ⟨y.1, hid, he⟩)
    rw [hdeleted, Entry.deleted_copied]

end Merge

/-- The store that such a merge leaves. -/
def mergedTwice : KVStore (List UInt8) :=
  (beginMerge byteKeys steady .asKept .asKept writtenTwice).2

/-- The statement for a key that was written twice. -/
theorem merge_compacts_writtenTwice :
    beginMerge byteKeys steady .asKept .asKept writtenTwice = (.ok (), mergedTwice)
      ∧ mergedTwice.segments.activeSegment = writtenTwice.segments.activeSegment
      ∧ mergedTwice.segments.inactiveSize ≤ writtenTwice.segments.inactiveSize
      ∧ ∀ order, ∃ contents, segmentsToMerge byteKeys order mergedTwice = .ok contents
        ∧ ((records contents).map fun x => x.2.key).Nodup
        ∧ ∀ x ∈ records contents, x.2.deleted = false := by
  obtain ⟨s', hmerge, hactive, hsize, hscan⟩ := merge_compacts behaves_steady
    (run_writtenTwice.mono fun _ => trivial) fits_writtenTwice rfl (by decide +kernel) .asKept .asKept
  have hs' : mergedTwice = s' := congrArg Prod.snd hmerge
  have hfit : mergedTwice.segments.Fits := by decide +kernel
  rw [hs'] at hfit ⊢
  exact ⟨hmerge, hactive, hsize, hscan hfit⟩

/-! ## When the next merge comes -/

section Cadence

variable [DecidableEq Key] {config : Config} {xs : List (Step Key)} {s s' : KVStore Key}

/-- **A session**: operations that return `Ok` on a store that was opened. -/
inductive Session (lib : KeyLib Key) (env : Env) (config : Config) : List (Step Key) → KVStore Key → Prop
  | opened {s s' : KVStore Key} {order : SegmentOrder} :
    KVStore.new lib env config order s = (.ok (), s') → Session lib env config [] s'
  | step {xs : List (Step Key)} {s s' : KVStore Key} {x : Step Key} : Session lib env config xs s →
    x.Writes → x.run lib env s = (.ok (), s') → Session lib env config (xs ++ [x]) s'

/-- The updates among some operations. -/
def updates (xs : List (Step Key)) : ℕ := xs.countP fun
  | .update _ _ _ _ => true
  | _ => false

/-- The configuration and the counter stay. -/
def SameCount (mergeConfig : MergeConfig) (n : ℕ) (s : KVStore Key) : Prop :=
  s.mergeConfig = mergeConfig ∧ s.counter = n

omit [DecidableEq Key] in
theorem keeps_onSegments {mergeConfig : MergeConfig} {n : ℕ} {α : Type} (x : Op Error Segments α) :
    Op.Keeps (SameCount mergeConfig n) (onSegments x : Op Error (KVStore Key) α) := fun _ h => h

theorem keeps_beginMerge {mergeConfig : MergeConfig} {n : ℕ} (readOrder : SegmentOrder)
    (writeOrder : ChangeOrder Key) :
    Op.Keeps (SameCount mergeConfig n) (beginMerge lib env readOrder writeOrder) := by
  have hwrite : ∀ fileIds changes, Op.Keeps (SameCount mergeConfig n)
      (KVStore.writeBack lib env fileIds changes) := fun fileIds changes =>
    (keeps_onSegments _).bind fun responses => Op.Keeps.update fun _ h => h
  refine (Op.Keeps.ask _).bind fun read => ?_
  split_ifs
  · exact (hwrite _ _).attempt
  · exact Op.Keeps.pure _

/-- **An update counts, from zero again after a merge…** -/
theorem counter_update {readOrder : SegmentOrder} {writeOrder : ChangeOrder Key} {key : Key}
    {value : List UInt8} (hrun : KVStore.update lib env readOrder writeOrder key value s = (.ok (), s')) :
    s'.mergeConfig = s.mergeConfig ∧ s'.counter = (if s.Due then 0 else s.counter) + 1 := by
  obtain ⟨_, s₁, hmerge, hrest⟩ := Op.bind_eq_ok.mp hrun
  obtain ⟨response, s₂, happend, hset⟩ := Op.bind_eq_ok.mp hrest
  obtain rfl := Op.update_eq_ok.mp hset
  have hafter : SameCount s.mergeConfig (if s.Due then 0 else s.counter) s₁ := by
    split_ifs with hdue
    · rw [mergeIfDue_of_due hdue] at hmerge
      obtain ⟨_, s₀, hbegin, hzero⟩ := Op.bind_eq_ok.mp hmerge
      obtain rfl := Op.update_eq_ok.mp hzero
      exact ⟨((keeps_beginMerge readOrder writeOrder).of_eq ⟨rfl, rfl⟩ hbegin).1, rfl⟩
    · rw [mergeIfDue_of_not_due hdue] at hmerge
      obtain rfl := congrArg Prod.snd hmerge
      exact ⟨rfl, rfl⟩
  obtain ⟨hconfig, hcounter⟩ := (keeps_onSegments _).of_eq hafter happend
  exact ⟨hconfig, congrArg (· + 1) hcounter⟩

/-- …and a delete does not. -/
theorem counter_delete {key : Key} (hrun : KVStore.delete lib env key s = (.ok (), s')) :
    s'.mergeConfig = s.mergeConfig ∧ s'.counter = s.counter := by
  obtain ⟨response, s₁, happend, hset⟩ := Op.bind_eq_ok.mp hrun
  obtain rfl := Op.update_eq_ok.mp hset
  have hafter : SameCount s.mergeConfig s.counter s₁ := (keeps_onSegments _).of_eq ⟨rfl, rfl⟩ happend
  exact hafter

/-- A store that was opened has counted nothing. -/
theorem counter_new {order : SegmentOrder} (hrun : KVStore.new lib env config order s = (.ok (), s')) :
    s'.mergeConfig = config.mergeConfig ∧ s'.counter = 0 := by
  obtain ⟨_, s₁, -, hrest⟩ := Op.bind_eq_ok.mp hrun
  obtain ⟨_, s₂, hset, hrest⟩ := Op.bind_eq_ok.mp hrest
  obtain ⟨s₃, s₄, hask, hlast⟩ := Op.bind_eq_ok.mp hrest
  obtain ⟨hreload, rfl⟩ := Op.ask_eq_ok.mp hask
  obtain rfl := Op.update_eq_ok.mp hset
  obtain rfl := Op.update_eq_ok.mp hlast
  obtain ⟨contents, -, rfl⟩ := reload_eq_ok hreload
  exact ⟨rfl, rfl⟩

/-- **How far the counter is** after so many updates, merging every `n` of them. -/
structure Counted (n k counter : ℕ) : Prop where
  le : counter ≤ n
  rest : ∃ q, k = q * n + counter
  zero : counter = 0 → k = 0

/-- One more. -/
theorem Counted.succ {n k counter : ℕ} (hn : 0 < n) (h : Counted n k counter) :
    Counted n (k + 1) ((if n ≤ counter then 0 else counter) + 1) := by
  obtain ⟨hle, ⟨q, rfl⟩, -⟩ := h
  split_ifs with hdue
  · obtain rfl : counter = n := le_antisymm hle hdue
    exact ⟨hn, ⟨q + 1, by rw [Nat.succ_mul]⟩, fun hc => by cases hc⟩
  · exact ⟨Nat.lt_of_not_le hdue, ⟨q, rfl⟩, fun hc => by cases hc⟩

/-- The counter is full exactly after a multiple. -/
theorem Counted.le_iff {n k counter : ℕ} (h : Counted n k counter) :
    n ≤ counter ↔ 0 < k ∧ n ∣ k ∨ n = 0 := by
  obtain ⟨hle, ⟨q, hk⟩, hzero⟩ := h
  constructor
  · intro hge
    obtain rfl : counter = n := le_antisymm hle hge
    rcases Nat.eq_zero_or_pos counter with hn | hn
    · exact .inr hn
    · exact .inl ⟨by omega, ⟨q + 1, by rw [hk, Nat.mul_succ, Nat.mul_comm]⟩⟩
  · rintro (⟨hpos, hdvd⟩ | rfl)
    · rw [hk, Nat.dvd_add_right (Nat.dvd_mul_left n q)] at hdvd
      rcases Nat.eq_zero_or_pos counter with hc | hc
      · exact absurd (hzero hc) hpos.ne'
      · exact Nat.le_of_dvd hc hdvd
    · exact Nat.zero_le _

/-- A session keeps the interval it was opened with… -/
theorem Session.mergeConfig_eq (h : Session lib env config xs s) : s.mergeConfig = config.mergeConfig := by
  induction h with
  | opened hrun => exact (counter_new hrun).1
  | @step xs s s' x _ hx hrun ih =>
    rcases x with ⟨readOrder, writeOrder, key, value⟩ | key | ⟨config', order⟩
    · exact (counter_update hrun).1.trans ih
    · exact (counter_delete hrun).1.trans ih
    · exact hx.elim

/-- …and counts its updates. -/
theorem Session.counted (h : Session lib env config xs s)
    (hn : 0 < config.mergeConfig.runMergeEvery.toNat) :
    Counted config.mergeConfig.runMergeEvery.toNat (updates xs) s.counter := by
  induction h with
  | opened hrun =>
    rw [(counter_new hrun).2]
    exact ⟨Nat.zero_le _, ⟨0, by rw [Nat.zero_mul]; rfl⟩, fun _ => rfl⟩
  | @step xs s s' x hsession hx hrun ih =>
    rw [updates, List.countP_append]
    rcases x with ⟨readOrder, writeOrder, key, value⟩ | key | ⟨config', order⟩
    · rw [(counter_update hrun).2]
      simp only [Due, hsession.mergeConfig_eq]
      exact ih.succ hn
    · rw [(counter_delete hrun).2]
      exact ih
    · exact hx.elim

/-- **When an update merges**: in a session whose operations return `Ok`, the next one starts with a merge
exactly when the updates so far are a positive multiple of the interval, or the interval is zero.  (One
that merges and then fails to append has set the counter back, and is not among them.) -/
theorem due_iff (h : Session lib env config xs s) :
    s.Due ↔ 0 < updates xs ∧ config.mergeConfig.runMergeEvery.toNat ∣ updates xs
      ∨ config.mergeConfig.runMergeEvery.toNat = 0 := by
  rw [Due, h.mergeConfig_eq]
  rcases Nat.eq_zero_or_pos config.mergeConfig.runMergeEvery.toNat with hn | hn
  · rw [hn]
    exact iff_of_true (Nat.zero_le _) (.inr rfl)
  · exact (h.counted hn).le_iff

end Cadence

end Bitspend.Kv
