import Bitspend.Kv.Merge

/-!
# Kv/Dangling — where the directory leads nowhere

Two things leave the directory with an entry that does not lead to a record of its key.  A merge removes
the files it has read, and only keys with a survivor are pointed elsewhere; and reopening enters
tombstones like any other record.  As long as neither happens, every entry leads to a live record
(`directory_leads`), through any number of merges and sessions.
-/

namespace Bitspend.Kv

open Segments KVStore

variable {Key : Type} [DecidableEq Key] {lib : KeyLib Key} {env : Env}
  {log : ℕ → List (Entry Key)} {s : KVStore Key}

/-- **Every entry of the directory leads to a record**: its file is the active segment or an inactive
one, and the bytes it names are exactly one live record of the key. -/
def Leads (lib : KeyLib Key) (s : KVStore Key) : Prop :=
  ∀ key r, s.keyDirectory.lookup key = some r → ∃ g e, s.segments.segment? r.fileId = some g
    ∧ g.store.read s.segments.world r.offset r.entryLength = lib.bytes e
    ∧ r.entryLength.toNat = (lib.bytes e).length
    ∧ e.key = key ∧ e.deleted = false

theorem KVStore.Sound.leads (h : s.Sound lib env log) : Leads lib s := by
  intro key r hr
  obtain ⟨e, he⟩ := h.points hr
  obtain ⟨g, hg⟩ := Option.isSome_iff_exists.mp he.present
  obtain ⟨l, l', hlog, hoff, hlen⟩ := he.stands
  have hlen' : r.entryLength.toNat = (lib.bytes e).length := by
    rw [hlen, toNat_ofNat_of_lt he.short]
  refine ⟨g, e, hg, ?_, hlen', he.key, he.live⟩
  have hnode := h.holds.node r.fileId
  rw [hg, Option.map_some] at hnode
  rw [WasiStore.read, h.holds.world.file_of_lookup hnode.symm, hlog, hoff, hlen',
    KeyLib.file_append, KeyLib.file_cons, List.drop_left, List.take_left]

/-! ## What the steps have to spare -/

/-- No key whose record is in a file that is read is without a survivor. -/
def Rescued (lib : KeyLib Key) (readOrder : SegmentOrder) (s : KVStore Key) : Prop :=
  ∀ key r, s.keyDirectory.lookup key = some r → r.fileId ∈ mergedIds readOrder s →
    (survivor key ((mergedIds readOrder s).map (s.segments.versions lib))).isSome

theorem rescued_iff {readOrder : SegmentOrder} : Rescued lib readOrder s ↔
    ∀ x ∈ s.keyDirectory.entries, x.2.fileId ∈ mergedIds readOrder s →
      (survivor x.1 ((mergedIds readOrder s).map (s.segments.versions lib))).isSome :=
  ⟨fun h x hx => h x.1 x.2 (AList.mem_lookup_iff.mpr hx),
    fun h key r hr => h ⟨key, r⟩ (AList.mem_lookup_iff.mp hr)⟩

instance (readOrder : SegmentOrder) : Decidable (Rescued lib readOrder s) :=
  decidable_of_iff _ rescued_iff.symm

/-- **Steps that leave no entry behind**: a merge rescues every key it reads the record of, and no file
ends, for any key, in a tombstone when the directory is opened again. -/
def Step.Sparing (lib : KeyLib Key) (s : KVStore Key) : Step Key → Prop
  | update readOrder _ key value => 12 + (lib.serialize key).length + (value.length + 1) < 2 ^ 32
      ∧ (s.Due → s.segments.Fits ∧ (2 ≤ (mergedIds readOrder s).length → Rescued lib readOrder s))
  | delete _ => True
  | reopen _ _ => s.segments.Fits ∧ ∀ fileId key entry,
      HashMap.last MappedStoredEntry.key key (s.segments.versions lib fileId) = some entry →
        entry.deleted = false

namespace KVStore.Sound

theorem beginMerge (henv : env.Behaves) (h : s.Sound lib env log) (hfit : s.segments.Fits)
    {readOrder : SegmentOrder}
    (hkeys : 2 ≤ (mergedIds readOrder s).length → Rescued lib readOrder s)
    (writeOrder : ChangeOrder Key) :
    ∃ s' log', KVStore.beginMerge lib env readOrder writeOrder s = (.ok (), s')
      ∧ s'.Sound lib env log' := by
  have hread := segmentsToMerge_of_fits h.holds hfit readOrder
  have hlength : (logsIn lib log _).length = _ := @length_logsIn _ lib log s readOrder
  rcases Nat.lt_or_ge (mergedIds readOrder s).length 2 with hlen | hlen
  · exact ⟨s, log, beginMerge_of_lt hread (hlength ▸ hlen), h⟩
  · obtain ⟨s', log', hs', hm⟩ :=
      merged_of_beginMerge henv h.holds writeOrder hread (hlength ▸ hlen)
    rw [map_snd_logsIn h.holds hfit] at hm
    refine ⟨s', log', hs', hm.holds, fun {key r} hr => ?_⟩
    rcases hkept : survivor key ((mergedIds readOrder s).map (s.segments.versions lib))
      with _ | entry
    · have hold := (hm.left hkept).symm.trans hr
      have hid : r.fileId ∉ mergedIds readOrder s := by
        intro hid
        have := hkeys hlen key r hold hid
        rw [hkept] at this
        cases this
      obtain ⟨e, he⟩ := h.points hold
      obtain ⟨hpresent, hlog⟩ := hm.same hid he.present
      exact ⟨e, hpresent, he.stands.congr hlog, he.key, he.live, he.short⟩
    · obtain ⟨r', ts, hr', hpresent, hst⟩ := hm.rewritten hkept
      obtain rfl := Option.some.inj (hr'.symm.trans hr)
      refine ⟨_, hpresent, hst, rfl, by simp [Entry.deleted], ?_⟩
      rw [lib.length_bytes]
      exact length_of_survivor h.holds (hfit.file h.holds) hkept

theorem mergeIfDue (henv : env.Behaves) (h : s.Sound lib env log) {readOrder : SegmentOrder}
    (hdue : s.Due → s.segments.Fits
      ∧ (2 ≤ (mergedIds readOrder s).length → Rescued lib readOrder s))
    (writeOrder : ChangeOrder Key) :
    ∃ s' log', KVStore.mergeIfDue lib env readOrder writeOrder s = (.ok (), s')
      ∧ s'.Sound lib env log' := by
  by_cases hd : s.Due
  · obtain ⟨hfit, hkeys⟩ := hdue hd
    obtain ⟨s', log', hs', h'⟩ := h.beginMerge henv hfit hkeys writeOrder
    refine ⟨{ s' with counter := 0 }, log', ?_, h'.holds, h'.points⟩
    rw [mergeIfDue_of_due hd, Op.bind_apply, hs']
    rfl
  · exact ⟨s, log, mergeIfDue_of_not_due hd, h⟩

/-- **A directory without trailing tombstones is opened soundly.** -/
theorem reopen (henv : env.Behaves) (h : s.Sound lib env log) (hfit : s.segments.Fits)
    (hlive : ∀ fileId key entry,
      HashMap.last MappedStoredEntry.key key (s.segments.versions lib fileId) = some entry →
        entry.deleted = false) {config : Config} {order : SegmentOrder} {s' : KVStore Key}
    (hrun : KVStore.new lib env config order s = (.ok (), s')) : s'.Sound lib env log := by
  obtain ⟨segments, contents, h', hread, rfl⟩ :=
    exists_opened_of_new henv h.holds.world hrun
  have hfile := hfit.file h.holds
  rw [mapM_readSegment h' hfile fun x hx => AList.mem_lookup_iff.mpr (order.mem_iter.mp hx)]
    at hread
  obtain rfl := Except.ok.inj hread
  refine ⟨h', fun {key r} hr => ?_⟩
  rw [opened, HashMap.lookup_insertAll, AList.lookup_empty, Option.or_none,
    Option.map_eq_some_iff] at hr
  obtain ⟨x, hx, rfl⟩ := hr
  obtain ⟨entries, hmem, hlast⟩ := exists_of_last_records hx
  obtain ⟨y, -, hpair⟩ := List.mem_map.mp hmem
  obtain ⟨hid, rfl⟩ := Prod.mk.inj hpair
  rw [hid] at hlast
  obtain ⟨hentry, hkey⟩ := HashMap.key_of_last hlast
  obtain ⟨e, hst, hekey, -, hdel, hlt⟩ := stands_of_mem_layout hfile hentry
  refine ⟨e, hst.isSome h', hst, hekey.trans hkey, hdel.trans ?_, hlt⟩
  exact hlive x.1 key x.2 (by rw [versions_eq h.holds hfile, hlast])

end KVStore.Sound

/-- **One sparing step keeps the directory sound…** -/
theorem Run.sound_of_sparing (henv : env.Behaves) (h : s.Sound lib env log) {x : Step Key}
    (hx : x.Sparing lib s) {s' : KVStore Key} (hrun : x.run lib env s = (.ok (), s')) :
    ∃ log', s'.Sound lib env log' := by
  rcases x with ⟨readOrder, writeOrder, key, value⟩ | key | ⟨config, order⟩
  · obtain ⟨hlt, hdue⟩ := hx
    obtain ⟨s₁, log₁, hmerge, h₁⟩ := h.mergeIfDue henv hdue writeOrder
    obtain ⟨s₂, log', hrun', hsound, -⟩ := h₁.put henv hmerge hlt
    obtain rfl := congrArg Prod.snd (hrun.symm.trans hrun')
    exact ⟨log', hsound⟩
  · obtain ⟨s₂, log', hrun', hsound, -⟩ := h.delete henv key
    obtain rfl := congrArg Prod.snd (hrun.symm.trans hrun')
    exact ⟨log', hsound⟩
  · exact ⟨log, h.reopen henv hx.1 hx.2 hrun⟩

theorem Run.sound_of_run (henv : env.Behaves) {m : Key → Option (List UInt8)}
    (hrun : Run lib env (Step.Sparing lib) m s) : ∃ log, s.Sound lib env log := by
  induction hrun with
  | start hnew => exact ⟨_, (Run.sound_start henv hnew).1⟩
  | step _ hx hstep ih =>
    obtain ⟨log, h⟩ := ih
    exact Run.sound_of_sparing henv h hx hstep

/-- **…so in a run of sparing steps every entry leads to a live record of its key**, and `get` neither
misses a file nor answers with another key's bytes. -/
theorem directory_leads (henv : env.Behaves) {m : Key → Option (List UInt8)}
    (hrun : Run lib env (Step.Sparing lib) m s) :
    Leads lib s ∧ ∀ key, s.get key = Outcome.err .entryNotFound
      ∨ ∃ r e, s.keyDirectory.lookup key = some r ∧ e.key = key
        ∧ s.segments.read r.fileId r.offset r.entryLength = .ok (lib.stored e)
        ∧ s.get key = .ok e.value := by
  obtain ⟨log, h⟩ := Run.sound_of_run henv hrun
  refine ⟨h.leads, fun key => ?_⟩
  rcases hr : s.keyDirectory.lookup key with _ | r
  · exact .inl (get_of_none hr)
  · obtain ⟨e, he⟩ := h.points hr
    exact .inr ⟨r, e, rfl, he.key, he.stands.read h.holds he.present he.short,
      get_of_points h.holds hr he⟩

/-- A segment per record, and merges after every second update. -/
def mergedOften : Config := ⟨0, .newWithAllSegmentsToReadEveryFixedDuration 2⟩

/-- A session that writes two keys… -/
def beforeMerge : KVStore (List UInt8) :=
  (KVStore.update byteKeys steady .asKept .asKept [8] [2]
    (KVStore.update byteKeys steady .asKept .asKept [7] [1]
      (KVStore.new byteKeys steady mergedOften .asKept (.closed .empty)).2).2).2

/-- …and a third one after a merge… -/
def afterMerge : KVStore (List UInt8) :=
  (KVStore.update byteKeys steady .asKept .asKept [9] [3] beforeMerge).2

/-- …and the session after it. -/
def mergedAndReopened : KVStore (List UInt8) :=
  ((Step.reopen mergedOften .asKept).run byteKeys steady afterMerge).2

/-- Where no segment has a tombstone, no file ends in one. -/
theorem live_of_segments {s : Segments}
    (hactive : ∀ entry ∈ s.versions lib s.activeSegment.fileId, entry.deleted = false)
    (hinactive : ∀ x ∈ s.inactiveSegments.entries, ∀ entry ∈ s.versions lib x.1, entry.deleted = false)
    {fileId : ℕ} {key : Key} {entry : MappedStoredEntry Key}
    (hlast : HashMap.last MappedStoredEntry.key key (s.versions lib fileId) = some entry) :
    entry.deleted = false := by
  have hmem := (HashMap.key_of_last hlast).1
  by_cases hid : fileId = s.activeSegment.fileId
  · exact hactive entry (hid ▸ hmem)
  · obtain ⟨g, hg⟩ := Option.isSome_iff_exists.mp (isSome_of_versions hmem)
    rw [segment?_of_ne hid] at hg
    exact hinactive ⟨fileId, g⟩ (AList.mem_lookup_iff.mp hg) entry hmem

theorem run_beforeMerge : ∃ m, Run byteKeys steady (Step.Sparing byteKeys) m beforeMerge :=
  ⟨_, .step (x := .update .asKept .asKept [8] [2])
    (.step (x := .update .asKept .asKept [7] [1])
      (@Run.start _ _ _ _ _ mergedOften .asKept _ (Prod.ext rfl rfl))
      ⟨by decide, fun hdue => absurd hdue (by decide)⟩ (Prod.ext rfl rfl))
    ⟨by decide, fun hdue => absurd hdue (by decide +kernel)⟩ (Prod.ext rfl rfl)⟩

theorem run_afterMerge : ∃ m, Run byteKeys steady (Step.Sparing byteKeys) m afterMerge := by
  obtain ⟨m, hrun⟩ := run_beforeMerge
  have hok : (KVStore.update byteKeys steady .asKept .asKept [9] [3] beforeMerge).1 = .ok () := by
    decide +kernel
  refine ⟨_, .step (x := .update .asKept .asKept [9] [3]) hrun
    ⟨by decide, fun _ => ⟨?_, fun _ => ?_⟩⟩ (Prod.ext hok rfl)⟩
  · decide +kernel
  · decide +kernel

theorem run_mergedAndReopened : ∃ m, Run byteKeys steady (Step.Sparing byteKeys) m mergedAndReopened := by
  obtain ⟨m, hrun⟩ := run_afterMerge
  have hopen : (Step.reopen mergedOften .asKept).run byteKeys steady afterMerge
      = (.ok (), mergedAndReopened) := Prod.ext (by decide +kernel) (by rw [mergedAndReopened])
  refine ⟨_, hrun.step (x := .reopen mergedOften .asKept) ⟨?_, fun fileId key entry hlast => ?_⟩ hopen⟩
  · decide +kernel
  · exact live_of_segments (by decide +kernel) (by decide +kernel) hlast

/-- The statement after a session with a merge, and another. -/
theorem reopened_leads :
    beforeMerge.Due ∧ (mergedIds .asKept beforeMerge).length = 2
      ∧ [[7], [8], [9]].map mergedAndReopened.get = [.ok [1], .ok [2], .ok [3]]
      ∧ Leads byteKeys mergedAndReopened := by
  obtain ⟨m, hrun⟩ := run_mergedAndReopened
  exact ⟨by decide +kernel, by decide +kernel, by decide +kernel, (directory_leads behaves_steady hrun).1⟩

/-! ## An entry into a removed file -/

/-- A key is deleted and then written, within one second… -/
def writtenAgain : KVStore (List UInt8) :=
  (KVStore.update byteKeys steady .asKept .asKept [8] [2]
    (KVStore.update byteKeys steady .asKept .asKept [7] [1]
      (KVStore.delete byteKeys steady [7]
        (KVStore.new byteKeys steady mergedOften .asKept (.closed .empty)).2).2).2).2

/-- …and a merge reads the tombstone first. -/
def mergedAway : KVStore (List UInt8) :=
  (KVStore.update byteKeys steady (.rotated 1) .asKept [9] [3] writtenAgain).2

theorem run_writtenAgain : ∃ m, Run byteKeys steady (fun _ _ => True) m writtenAgain :=
  ⟨_, .step (x := .update .asKept .asKept [8] [2])
    (.step (x := .update .asKept .asKept [7] [1])
      (.step (x := .delete [7])
        (@Run.start _ _ _ _ _ mergedOften .asKept _ (Prod.ext rfl rfl)) trivial
        (Prod.ext rfl rfl)) trivial (Prod.ext rfl rfl)) trivial (Prod.ext rfl rfl)⟩

theorem run_mergedAway : ∃ m, Run byteKeys steady (fun _ _ => True) m mergedAway := by
  obtain ⟨m, hrun⟩ := run_writtenAgain
  have hok : (KVStore.update byteKeys steady (.rotated 1) .asKept [9] [3] writtenAgain).1 = .ok () := by
    decide +kernel
  exact ⟨_, .step (x := .update (.rotated 1) .asKept [9] [3]) hrun trivial (Prod.ext hok rfl)⟩

/-- **The directory may lead nowhere**: the key has no survivor, and its file is removed. -/
theorem not_directory_leads :
    mergedAway.get [7] = Outcome.err (.fileNotFound 5)
      ∧ ¬∀ (m : List UInt8 → Option (List UInt8)) (s : KVStore (List UInt8)),
        steady.Behaves → Monotone (fun i => (steady.now i).toNat) →
          Run byteKeys steady (fun _ _ => True) m s → Leads byteKeys s := by
  refine ⟨by decide +kernel, fun hall => ?_⟩
  obtain ⟨m, hrun⟩ := run_mergedAway
  have hlook : mergedAway.keyDirectory.lookup [7] = some ⟨5, 0, 15⟩ := by decide +kernel
  have hlead := hall m mergedAway behaves_steady (fun _ _ _ => le_rfl) hrun
  obtain ⟨g, e, hg, -⟩ := hlead [7] ⟨5, 0, 15⟩ hlook
  have hnone : (mergedAway.segments.segment? 5).isNone := by decide +kernel
  rw [hg] at hnone
  cases hnone

end Bitspend.Kv
