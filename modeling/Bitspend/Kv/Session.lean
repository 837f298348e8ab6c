import Bitspend.Kv.Reload

/-!
# Kv/Session — a session without merges is a map

The invariant is `Sound`: where the key directory points, a record of that key stands, live and short
enough to be read back, in a file that is still there.  Appending keeps it, so within a session that
rewrites nothing `get` answers like the map of the values last written.
-/

namespace Bitspend.Kv

open Segments

variable {Key : Type} {lib : KeyLib Key} {env : Env} {log log' : ℕ → List (Entry Key)}

/-! ## Where the directory points -/

/-- **A live record of the key stands there**, in a file that is present. -/
structure Points (lib : KeyLib Key) (s : Segments) (log : ℕ → List (Entry Key)) (key : Key)
    (r : AppendEntryResponse) (e : Entry Key) : Prop where
  present : (s.segment? r.fileId).isSome
  stands : Stands lib log r e
  key : e.key = key
  live : e.deleted = false
  short : (lib.bytes e).length < 2 ^ 32

theorem Points.grow {s s' : Segments} {key : Key} {r : AppendEntryResponse} {e : Entry Key}
    (h : Points lib s log key r e) (hgrow : Grows s log s' log') : Points lib s' log' key r e where
  present := hgrow.kept h.present
  stands := h.stands.mono hgrow.log
  key := h.key
  live := h.live
  short := h.short

variable [DecidableEq Key]

namespace KVStore

/-- **Every entry of the directory points at a record.** -/
structure Sound (lib : KeyLib Key) (env : Env) (s : KVStore Key) (log : ℕ → List (Entry Key)) :
    Prop where
  holds : s.segments.Holds lib env log
  points : ∀ {key r}, s.keyDirectory.lookup key = some r → ∃ e, Points lib s.segments log key r e

variable {s s' : KVStore Key} {key : Key} {r : AppendEntryResponse} {e : Entry Key}

theorem get_of_points (h : s.segments.Holds lib env log) (hr : s.keyDirectory.lookup key = some r)
    (he : Points lib s.segments log key r e) : s.get key = .ok e.value :=
  get_of_stands h hr he.present he.stands he.short

namespace Sound

/-- What is appended beside a record does not change what is read of it. -/
theorem get_eq (h : s.Sound lib env log) (h' : s'.segments.Holds lib env log')
    (hgrow : Grows s.segments log s'.segments log')
    (hkey : s'.keyDirectory.lookup key = s.keyDirectory.lookup key) : s'.get key = s.get key := by
  rcases hr : s.keyDirectory.lookup key with _ | r
  · rw [get_of_none hr, get_of_none (hkey.trans hr)]
  · obtain ⟨e, he⟩ := h.points hr
    rw [get_of_points h.holds hr he, get_of_points h' (hkey.trans hr) (he.grow hgrow)]

/-- **A record is written**: its key reads as its value, the others as before… -/
theorem insert (h : s.Sound lib env log) {segments : Segments}
    (h' : Segments.Holds lib env segments log') (hgrow : Grows s.segments log segments log')
    (hnew : Points lib segments log' key r e) (n : ℕ) :
    Sound lib env { s with segments, keyDirectory := s.keyDirectory.insert key r, counter := n } log'
      ∧ ∀ key', get { s with segments, keyDirectory := s.keyDirectory.insert key r, counter := n } key'
        = if key' = key then .ok e.value else s.get key' := by
  refine ⟨⟨h', fun {key' r'} hr => ?_⟩, fun key' => ?_⟩
  · by_cases hkey : key' = key
    · subst hkey
      obtain rfl := Option.some.inj ((AList.lookup_insert _).symm.trans hr)
      exact ⟨e, hnew⟩
    · obtain ⟨e', he'⟩ := h.points ((AList.lookup_insert_ne hkey).symm.trans hr)
      exact ⟨e', he'.grow hgrow⟩
  · by_cases hkey : key' = key
    · subst hkey
      rw [if_pos rfl]
      exact get_of_points h' (AList.lookup_insert _) hnew
    · rw [if_neg hkey]
      exact h.get_eq h' hgrow (AList.lookup_insert_ne hkey)

/-- …or a tombstone: its key is gone, and the others read as before. -/
theorem erase (h : s.Sound lib env log) {segments : Segments}
    (h' : Segments.Holds lib env segments log') (hgrow : Grows s.segments log segments log')
    (key : Key) :
    Sound lib env { s with segments, keyDirectory := s.keyDirectory.erase key } log'
      ∧ ∀ key', get { s with segments, keyDirectory := s.keyDirectory.erase key } key'
        = if key' = key then Outcome.err .entryNotFound else s.get key' := by
  refine ⟨⟨h', fun {key' r'} hr => ?_⟩, fun key' => ?_⟩
  · have hkey : key' ≠ key := by
      rintro rfl
      cases (AList.lookup_erase _ _).symm.trans hr
    obtain ⟨e', he'⟩ := h.points ((AList.lookup_erase_ne hkey).symm.trans hr)
    exact ⟨e', he'.grow hgrow⟩
  · by_cases hkey : key' = key
    · subst hkey
      rw [if_pos rfl]
      exact get_of_none (AList.lookup_erase _ _)
    · rw [if_neg hkey]
      exact h.get_eq h' hgrow (AList.lookup_erase_ne hkey)

/-- **`put` from the store its merge leaves.** -/
theorem put (henv : env.Behaves) {readOrder : SegmentOrder} {writeOrder : ChangeOrder Key}
    {s s₁ : KVStore Key} (hmerge : mergeIfDue lib env readOrder writeOrder s = (.ok (), s₁))
    (h : s₁.Sound lib env log) {value : List UInt8}
    (hlt : 12 + (lib.serialize key).length + (value.length + 1) < 2 ^ 32) :
    ∃ s' log', KVStore.put lib env readOrder writeOrder key value s = (.ok (), s')
      ∧ s'.Sound lib env log'
      ∧ ∀ key', s'.get key' = if key' = key then .ok value else s₁.get key' := by
  obtain ⟨segments, r, log', ts, hrun, h', hpresent, hst, hgrow⟩ :=
    put_ok henv hmerge h.holds key value
  have hnew : Points lib segments log' key r ⟨key, value, 0, ts⟩ :=
    ⟨hpresent, hst, rfl, (by simp [Entry.deleted]), by rw [lib.length_bytes]; exact hlt⟩
  obtain ⟨hsound, hget⟩ := h.insert h' hgrow hnew (s₁.counter + 1)
  exact ⟨_, log', hrun, hsound, hget⟩

theorem delete (henv : env.Behaves) (h : s.Sound lib env log) (key : Key) :
    ∃ s' log', KVStore.delete lib env key s = (.ok (), s') ∧ s'.Sound lib env log'
      ∧ ∀ key', s'.get key' = if key' = key then Outcome.err .entryNotFound else s.get key' := by
  obtain ⟨segments, log', hrun, h', hgrow⟩ := delete_ok henv h.holds key
  obtain ⟨hsound, hget⟩ := h.erase h' hgrow key
  exact ⟨_, log', hrun, hsound, hget⟩

end Sound

/-! ## A merge that rewrites nothing -/

/-- An update would start with a merge. -/
def Due (s : KVStore Key) : Prop := s.mergeConfig.runMergeEvery.toNat ≤ s.counter

instance (s : KVStore Key) : Decidable s.Due := Nat.decLe _ _

omit [DecidableEq Key] in
theorem length_mergedIds_le (order : SegmentOrder) (s : KVStore Key) :
    (mergedIds order s).length ≤ s.segments.inactiveSegments.entries.length := by
  rw [mergedIds, mergeInputs, List.length_map]
  exact (List.length_take_le' _ _).trans (order.perm _).length_eq.le

theorem mergeIfDue_of_not_due {readOrder : SegmentOrder} {writeOrder : ChangeOrder Key}
    (h : ¬s.Due) : mergeIfDue lib env readOrder writeOrder s = (.ok (), s) := by
  rw [mergeIfDue, Op.ask_ok_bind, if_neg (by rw [decide_eq_true_eq]; exact h)]
  rfl

theorem mergeIfDue_of_due {readOrder : SegmentOrder} {writeOrder : ChangeOrder Key} (h : s.Due) :
    mergeIfDue lib env readOrder writeOrder s
      = (do
          beginMerge lib env readOrder writeOrder
          Op.update fun s => { s with counter := 0 }) s := by
  have hdue : decide (s.mergeConfig.runMergeEvery.toNat ≤ s.counter) = true := decide_eq_true h
  rw [mergeIfDue, Op.ask_ok_bind, if_pos hdue]

/-- **With fewer than two inactive segments a merge does nothing**, unless it cannot read them. -/
theorem mergeIfDue_of_few {readOrder : SegmentOrder} {writeOrder : ChangeOrder Key}
    (h : s.Due → s.segments.inactiveSegments.entries.length < 2) :
    (∃ n, mergeIfDue lib env readOrder writeOrder s = (.ok (), { s with counter := n }))
      ∨ ∃ e, segmentsToMerge lib readOrder s = .error e
        ∧ mergeIfDue lib env readOrder writeOrder s = (.error e, s) := by
  by_cases hdue : s.Due
  · rw [mergeIfDue_of_due hdue]
    rcases hread : segmentsToMerge lib readOrder s with e | contents
    · exact .inr ⟨e, rfl, by rw [Op.bind_apply, beginMerge, Op.ask_bind_of_error hread]⟩
    · have hlen : contents.length < 2 := by
        rw [← List.length_map (f := Prod.fst), map_fst_of_segmentsToMerge hread]
        exact (length_mergedIds_le readOrder s).trans_lt (h hdue)
      refine .inl ⟨0, ?_⟩
      rw [Op.bind_apply, beginMerge_of_lt hread hlen]
      rfl
  · exact .inl ⟨s.counter, mergeIfDue_of_not_due hdue⟩

end KVStore

/-! ## Sessions -/

namespace Step

/-- **Steps of a session that rewrites nothing**: updates and deletes, the record of an update shorter
than `2 ^ 32` bytes, and fewer than two inactive segments whenever a merge is due. -/
def Plain (lib : KeyLib Key) (s : KVStore Key) : Step Key → Prop
  | update _ _ key value => 12 + (lib.serialize key).length + (value.length + 1) < 2 ^ 32
      ∧ (s.Due → s.segments.inactiveSegments.entries.length < 2)
  | delete _ => True
  | reopen _ _ => False

instance Plain.decidable (lib : KeyLib Key) (s : KVStore Key) : (x : Step Key) → Decidable (x.Plain lib s)
  | update _ _ _ _ => inferInstanceAs (Decidable (_ ∧ (_ → _)))
  | delete _ => .isTrue trivial
  | reopen _ _ => .isFalse id

end Step

namespace Run

variable {m : Key → Option (List UInt8)} {s : KVStore Key}

/-- A first session starts with nothing in the directory. -/
theorem sound_start (henv : env.Behaves) {config : Config} {order : SegmentOrder}
    (hrun : KVStore.new lib env config order (.closed .empty) = (.ok (), s)) :
    s.Sound lib env (fun _ => []) ∧ ∀ key, s.get key = Outcome.err .entryNotFound := by
  obtain ⟨segments, contents, h', hread, rfl⟩ := KVStore.exists_opened_of_new henv
    (show (KVStore.closed World.empty : KVStore Key).segments.world.Holds lib env _ from
      holds_empty) hrun
  have hlook : ∀ key, (KVStore.opened config segments contents).keyDirectory.lookup key = none := by
    intro key
    rw [KVStore.opened, HashMap.lookup_insertAll]
    rcases hlast : HashMap.last (fun x => x.2.key) key (KVStore.records contents) with _ | x
    · rw [hlast]
      rfl
    · obtain ⟨g, entries, hg, hfull, hmem⟩ :=
        KVStore.exists_of_mem_records hread (HashMap.key_of_last hlast).1
      rw [h'.readFull_eq (h'.segment?_of_inactive hg)] at hfull
      cases hfull
      cases hmem
  refine ⟨⟨h', fun {key r} hr => ?_⟩, fun key => KVStore.get_of_none (hlook key)⟩
  rw [hlook key] at hr
  cases hr

/-- **A plain step does what the map does**, or cannot read a file and leaves the store as it was. -/
theorem plain_step (henv : env.Behaves) (h : s.Sound lib env log)
    (hget : ∀ key, s.get key = Outcome.okOr .entryNotFound (m key)) {x : Step Key}
    (hx : x.Plain lib s) :
    (∃ s' log', x.run lib env s = (.ok (), s') ∧ s'.Sound lib env log'
        ∧ ∀ key, s'.get key = Outcome.okOr .entryNotFound (x.expect m key))
      ∨ ¬s.segments.Fits ∧ ∃ e, x.run lib env s = (.error e, s) := by
  rcases x with ⟨readOrder, writeOrder, key, value⟩ | key | ⟨config, order⟩
  · obtain ⟨hlt, hfew⟩ := hx
    rcases KVStore.mergeIfDue_of_few hfew with ⟨n, hmerge⟩ | ⟨e, hread, herr⟩
    · have h₁ : KVStore.Sound lib env { s with counter := n } log := ⟨h.holds, h.points⟩
      obtain ⟨s', log', hrun, hsound, hget'⟩ := h₁.put henv hmerge hlt
      refine .inl ⟨s', log', hrun, hsound, fun key' => ?_⟩
      rw [hget' key', Step.expect, Function.update_apply]
      split_ifs
      · rfl
      · exact hget key'
    · refine .inr ⟨fun hfit => ?_, e, ?_⟩
      · cases hread.symm.trans (KVStore.segmentsToMerge_of_fits h.holds hfit readOrder)
      · change KVStore.put lib env readOrder writeOrder key value s = _
        rw [KVStore.put, Op.bind_apply, herr]
  · obtain ⟨s', log', hrun, hsound, hget'⟩ := h.delete henv key
    refine .inl ⟨s', log', hrun, hsound, fun key' => ?_⟩
    rw [hget' key', Step.expect, Function.update_apply]
    split_ifs
    · rfl
    · exact hget key'
  · exact hx.elim

theorem sound (henv : env.Behaves) (h : Run lib env (Step.Plain lib) m s) :
    (∃ log, s.Sound lib env log) ∧ ∀ key, s.get key = Outcome.okOr .entryNotFound (m key) := by
  induction h with
  | start hrun => exact ⟨⟨_, (sound_start henv hrun).1⟩, (sound_start henv hrun).2⟩
  | step _ hx hrun ih =>
    obtain ⟨⟨log, hlog⟩, hget⟩ := ih
    rcases plain_step henv hlog hget hx with ⟨s', log', hrun', hsound, hget'⟩ | ⟨-, e, herr⟩
    · obtain rfl := congrArg Prod.snd (hrun.symm.trans hrun')
      exact ⟨⟨log', hsound⟩, hget'⟩
    · cases congrArg Prod.fst (hrun.symm.trans herr)

end Run

/-- **A session that rewrites nothing is a map**: `get` answers as the map of the values last written
does, and a further step is done, or cannot read a file and changes nothing. -/
theorem session_refines_map (henv : env.Behaves) {m : Key → Option (List UInt8)} {s : KVStore Key}
    (hrun : Run lib env (Step.Plain lib) m s) :
    (∀ key, s.get key = Outcome.okOr .entryNotFound (m key))
      ∧ ∀ x : Step Key, x.Plain lib s → (∃ s', x.run lib env s = (.ok (), s'))
        ∨ ¬s.segments.Fits ∧ ∃ e, x.run lib env s = (.error e, s) := by
  obtain ⟨⟨log, hsound⟩, hget⟩ := hrun.sound henv
  refine ⟨hget, fun x hx => ?_⟩
  rcases Run.plain_step henv hsound hget hx with ⟨s', log', hrun', -⟩ | herr
  · exact .inl ⟨s', hrun'⟩
  · exact .inr herr

/-! ## A session with rollovers -/

/-- A session that has written one key twice. -/
def writtenTwice : KVStore (List UInt8) :=
  (KVStore.update byteKeys steady .asKept .asKept [7] [2]
    (KVStore.update byteKeys steady .asKept .asKept [7] [1]
      (KVStore.new byteKeys steady smallSegments .asKept (.closed .empty)).2).2).2

theorem run_writtenTwice :
    Run byteKeys steady (Step.Plain byteKeys)
      (Function.update (Function.update (fun _ => none) [7] (some [1])) [7] (some [2]))
      writtenTwice :=
  .step (x := .update .asKept .asKept [7] [2])
    (.step (x := .update .asKept .asKept [7] [1])
      (@Run.start _ _ _ _ _ smallSegments .asKept _ (Prod.ext rfl rfl))
      ⟨by decide, fun hdue => absurd hdue (by decide)⟩ (Prod.ext rfl rfl))
    ⟨by decide, fun hdue => absurd hdue (by decide)⟩ (Prod.ext rfl rfl)

theorem fits_writtenTwice : writtenTwice.segments.Fits := by decide +kernel

/-- The statement after two updates, each with a rollover. -/
theorem writtenTwice_refines_map :
    writtenTwice.segments.inactiveSegments.entries.length = 2
      ∧ writtenTwice.get [7] = .ok [2] ∧ writtenTwice.get [8] = Outcome.err .entryNotFound :=
  ⟨rfl, (session_refines_map behaves_steady run_writtenTwice).1 [7],
    (session_refines_map behaves_steady run_writtenTwice).1 [8]⟩

end Bitspend.Kv
