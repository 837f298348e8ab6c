import Bitspend.Kv.Effects
import Bitspend.Kv.Scan

/-!
# Kv/Crash — a process that stops in the middle

A process may stop between any two effects of an operation, or in the middle of an append, also inside a
merge.  What is left is a replay of the events up to there.  `crash_recovers`: the directory can be opened
again exactly when the last record was not torn, and then no key is lost that was written, acknowledged
and never deleted; what a key is answered with was written for it, though not always last.

A torn record cannot be read over: its sizes reach past the end of the file, and the scan panics
(`decodeMulti_torn`).

Neither operations nor interruptions make the files grow past the limit by more than one record
(`files_bounded`).
-/

namespace Bitspend.Kv

open Segments KVStore

variable {Key : Type} {lib : KeyLib Key} {env : Env}

/-! ## Torn records -/

section Torn

variable {content more : List UInt8} {offset : UInt32}

/-- What is read does not depend on what comes after it… -/
theorem readU32At_append {word : UInt32} (h : readU32At content offset = .ok word) :
    readU32At (content ++ more) offset = .ok word := by
  rw [readU32At] at h ⊢
  split_ifs at h with hle
  rw [if_pos (hle.trans (by simp)), List.drop_append_of_le_length (by omega),
    List.take_append_of_le_length (by simpa using by omega)]
  exact h

theorem sliceAt_append {start stop : UInt32} {slice : List UInt8}
    (h : sliceAt content start stop = .ok slice) :
    sliceAt (content ++ more) start stop = .ok slice := by
  rw [sliceAt] at h ⊢
  split_ifs at h with hin
  have hle := UInt32.le_iff_toNat_le.mp hin.1
  have hend := hin.2
  rw [if_pos ⟨hin.1, hend.trans (by simp)⟩, List.drop_append_of_le_length (by omega),
    List.take_append_of_le_length (by simpa using by omega)]
  exact h

/-- …so a record is decoded the same, with more after it. -/
theorem decodeFrom_append {r : StoredEntry × UInt32} (h : decodeFrom content offset = .ok r) :
    decodeFrom (content ++ more) offset = .ok r := by
  obtain ⟨timestamp, hts, h⟩ := Outcome.bind_eq_ok.mp h
  obtain ⟨keySize, hks, h⟩ := Outcome.bind_eq_ok.mp h
  obtain ⟨valueSize, hvs, h⟩ := Outcome.bind_eq_ok.mp h
  obtain ⟨key, hk, h⟩ := Outcome.bind_eq_ok.mp h
  obtain ⟨value, hv, h⟩ := Outcome.bind_eq_ok.mp h
  refine Outcome.bind_eq_ok.mpr ⟨timestamp, readU32At_append hts, ?_⟩
  refine Outcome.bind_eq_ok.mpr ⟨keySize, readU32At_append hks, ?_⟩
  refine Outcome.bind_eq_ok.mpr ⟨valueSize, readU32At_append hvs, ?_⟩
  refine Outcome.bind_eq_ok.mpr ⟨key, sliceAt_append hk, ?_⟩
  exact Outcome.bind_eq_ok.mpr ⟨value, sliceAt_append hv, h⟩

/-- **A torn record is out of range**: read with the rest of it, it would end where that ends. -/
theorem decodeFrom_torn {pre torn : List UInt8} {e : Entry Key} (htorn : torn <+: lib.bytes e)
    (hlt : torn.length < (lib.bytes e).length)
    (hfit : pre.length + (lib.bytes e).length < 2 ^ 32) :
    OutOfRange (decodeFrom (pre ++ torn) (UInt32.ofNat pre.length)) := by
  have hlen : (pre ++ torn).length < 2 ^ 32 := by
    rw [List.length_append]
    omega
  obtain hout | ⟨entry, traversed, hdecode, -, hend⟩ :=
    decodeFrom_cases hlen (UInt32.ofNat pre.length)
  · exact hout
  · obtain ⟨rest, hrest⟩ := htorn
    have hwhole := @decodeFrom_append _ rest _ _ hdecode
    rw [List.append_assoc, hrest, lib.decodeFrom_bytes (List.prefix_refl _) rfl hfit] at hwhole
    obtain ⟨-, rfl⟩ := Prod.mk.inj (Except.ok.inj hwhole)
    rw [toNat_ofNat_of_lt hfit, List.length_append] at hend
    omega

/-- The scan goes on where something is left. -/
theorem ofNat_lt_of_rest {pre rest : List UInt8} (hpos : rest ≠ [])
    (hlt : (pre ++ rest).length < 2 ^ 32) :
    UInt32.ofNat pre.length < UInt32.ofNat (pre ++ rest).length := by
  have hone := List.length_pos_of_ne_nil hpos
  rw [UInt32.lt_iff_toNat_lt, toNat_ofNat_of_lt hlt]
  rw [List.length_append] at hlt ⊢
  rw [toNat_ofNat_of_lt (by omega)]
  omega

/-- The rounds get to the torn record, and no further. -/
theorem decodeRounds_torn {pre torn : List UInt8} {log : List (Entry Key)} {e : Entry Key} {k : ℕ}
    (htorn : torn <+: lib.bytes e) (hpos : torn ≠ []) (hlt : torn.length < (lib.bytes e).length)
    (hfit : pre.length + (lib.file log).length + (lib.bytes e).length < 2 ^ 32) (hk : log.length < k) :
    OutOfRange (lib.decodeRounds (pre ++ (lib.file log ++ torn)) k (UInt32.ofNat pre.length)) := by
  have hlen : (pre ++ (lib.file log ++ torn)).length < 2 ^ 32 := by
    rw [List.length_append, List.length_append]
    omega
  have hgo := ofNat_lt_of_rest (List.append_ne_nil_of_right_ne_nil (lib.file log) hpos) hlen
  obtain ⟨k, rfl⟩ : ∃ j, k = j + 1 := ⟨k - 1, by omega⟩
  induction log generalizing pre k with
  | nil =>
    refine decodeRounds_of_outOfRange hgo ?_ k
    exact decodeFrom_torn htorn hlt (by rwa [KeyLib.file_nil] at hfit)
  | cons e' log ih =>
    obtain ⟨k, rfl⟩ : ∃ j, k = j + 1 := ⟨k - 1, by simp at hk; omega⟩
    rw [KeyLib.file_cons, List.length_append] at hfit
    have hsplit : pre ++ (lib.file (e' :: log) ++ torn)
        = (pre ++ lib.bytes e') ++ (lib.file log ++ torn) := by
      rw [KeyLib.file_cons, List.append_assoc, List.append_assoc]
    rw [hsplit] at hgo hlen ⊢
    rw [decodeRounds_of_ok hgo (lib.decodeFrom_bytes (List.prefix_append _ _) rfl (by omega)),
      ← List.length_append]
    refine OutOfRange.bind (ih (by rw [List.length_append]; omega) hlen ?_ k (by simpa using hk)) _
    exact ofNat_lt_of_rest (List.append_ne_nil_of_right_ne_nil (lib.file log) hpos) hlen

/-- **The scan of a log with a torn record at its end panics.** -/
theorem decodeMulti_torn {torn : List UInt8} {log : List (Entry Key)} {e : Entry Key}
    (htorn : torn <+: lib.bytes e) (hpos : torn ≠ []) (hlt : torn.length < (lib.bytes e).length)
    (hfit : (lib.file log).length + (lib.bytes e).length < 2 ^ 32) :
    OutOfRange (lib.decodeMulti (lib.file log ++ torn)) := by
  have hk := lib.length_le_length_file log
  refine @decodeRounds_torn _ lib [] torn log e _ htorn hpos hlt (by simpa using hfit) ?_
  rw [List.length_append]
  omega

end Torn

/-! ## Stopping -/

/-- What is done of an event that stops after `k` bytes. -/
def StoreEvent.part (k : ℕ) : StoreEvent → Option StoreEvent
  | .appended fileName offset bytes =>
    if k = 0 then none else some (.appended fileName offset (bytes.take k))
  | _ => none

/-- Events that stop after `n` of them, and `k` bytes of the next. -/
def stopAt (events : List StoreEvent) (n k : ℕ) : List StoreEvent :=
  events.take n ++ (events[n]?.bind (StoreEvent.part k)).toList

/-- **The stop tears a record**: some of its bytes are written, and not all. -/
def Torn (events : List StoreEvent) (n k : ℕ) : Prop :=
  ∃ fileName offset bytes, events[n]? = some (.appended fileName offset bytes)
    ∧ 0 < k ∧ k < bytes.length

/-- A stop that tears none is one between two events. -/
theorem stopAt_of_not_torn {events : List StoreEvent} {n k : ℕ} (h : ¬Torn events n k) :
    ∃ m, stopAt events n k = events.take m := by
  rcases hevent : events[n]? with _ | event
  · exact ⟨n, by rw [stopAt, hevent]; exact List.append_nil _⟩
  · rcases event with ⟨fileName, existed⟩ | ⟨fileName, offset, bytes⟩ | fileName
    · exact ⟨n, by rw [stopAt, hevent]; exact List.append_nil _⟩
    · by_cases hk : k = 0
      · exact ⟨n, by rw [stopAt, hevent, hk]; exact List.append_nil _⟩
      · have hle : bytes.length ≤ k := by
          by_contra hlt
          exact h ⟨fileName, offset, bytes, hevent, Nat.pos_of_ne_zero hk, Nat.lt_of_not_le hlt⟩
        refine ⟨n + 1, ?_⟩
        rw [stopAt, hevent, List.take_add_one, hevent, Option.bind_some, StoreEvent.part, if_neg hk,
          List.take_of_length_le hle]
    · exact ⟨n, by rw [stopAt, hevent]; exact List.append_nil _⟩

namespace KVStore

/-- What an operation that took the store from `s` to `s'` has noted. -/
def noted (s s' : KVStore Key) : List StoreEvent :=
  s'.segments.world.events.drop s.segments.world.events.length

/-- **The directory that is left of an operation from `s` to `s'`** when the process stops after `n` of
its events and `k` bytes of the next. -/
def crashed (s s' : KVStore Key) (n k : ℕ) : KVStore Key :=
  .closed
    { disk := replay s.segments.world.disk (stopAt (s.noted s') n k)
      calls := s'.segments.world.calls
      events := s.segments.world.events ++ stopAt (s.noted s') n k }

end KVStore

section Cut

variable {allowed : (ℕ → List (Entry Key)) → Effect Key → Prop} {s s' : KVStore Key} {n k : ℕ}
  {log log' : ℕ → List (Entry Key)}

theorem Does.noted (h : Does lib env allowed s.segments.world log s'.segments.world log') :
    Follows lib env allowed s'.segments.world.calls s.segments.world.disk log (s.noted s')
      s'.segments.world.disk log' := by
  obtain ⟨events, hevents, hfollows⟩ := h.follows
  rwa [KVStore.noted, hevents, List.drop_left]

/-- Logs stand as long as nothing is done. -/
theorem World.Holds.later {w : World} (h : w.Holds lib env log) {calls : ℕ} (hle : w.calls ≤ calls)
    (events : List StoreEvent) : World.Holds lib env ⟨w.disk, calls, events⟩ log where
  named hn := by
    obtain ⟨i, hi, hname⟩ := h.named hn
    exact ⟨i, hi.trans_le hle, hname⟩
  file := h.file

/-- **Between two effects the files hold logs**, the ones the effects have led to. -/
theorem crashed_of_not_torn (h : s.segments.world.Holds lib env log)
    (hdoes : Does lib env allowed s.segments.world log s'.segments.world log')
    (hcut : ¬Torn (s.noted s') n k) :
    ∃ log₁ d events, Follows lib env allowed s'.segments.world.calls s.segments.world.disk log events
        d log₁
      ∧ events ⊆ s.noted s' ∧ (s.crashed s' n k).segments.world.Holds lib env log₁ := by
  obtain ⟨m, hm⟩ := stopAt_of_not_torn hcut
  have hfollows := hdoes.noted
  rw [← List.take_append_drop m (s.noted s')] at hfollows
  obtain ⟨d, log₁, hfirst, -⟩ := hfollows.split
  refine ⟨log₁, d, _, hfirst, List.take_subset m _, ?_⟩
  have hholds := hfirst.holds (h.later hdoes.calls (s.segments.world.events ++ stopAt (s.noted s') n k))
  rwa [hfirst.replay_eq, ← hm] at hholds

/-- Where an event comes next, it is that of an effect. -/
theorem Follows.head {calls : ℕ} {d d' : Disk FileName} {event : StoreEvent} {events : List StoreEvent}
    (h : Follows lib env allowed calls d log (event :: events) d' log') :
    ∃ x : Effect Key, event = x.event lib log ∧ x.Possible env calls d := by
  cases h with
  | next hx _ _ => exact ⟨_, rfl, hx⟩

/-- **In the middle of an append the files hold logs, but for one**, which ends in a torn record. -/
theorem crashed_of_torn (h : s.segments.world.Holds lib env log)
    (hdoes : Does lib env allowed s.segments.world log s'.segments.world log')
    (hcut : Torn (s.noted s') n k) :
    ∃ (log₁ : ℕ → List (Entry Key)) (d : Disk FileName) (fileId node : ℕ) (e : Entry Key),
      World.Holds lib env ⟨d, s'.segments.world.calls, []⟩ log₁
      ∧ d.names.lookup (segmentName fileId) = some node ∧ 0 < k ∧ k < (lib.bytes e).length
      ∧ StoreEvent.appended (segmentName fileId) (lib.file (log₁ fileId)).length (lib.bytes e)
        ∈ s.noted s'
      ∧ (s.crashed s' n k).segments.world.disk
        = d.writeAt node (lib.file (log₁ fileId)).length ((lib.bytes e).take k) := by
  obtain ⟨fileName, offset, bytes, hevent, hpos, hlt⟩ := hcut
  have hfollows := hdoes.noted
  rw [← List.take_append_drop n (s.noted s')] at hfollows
  obtain ⟨d, log₁, hfirst, hrest⟩ := hfollows.split
  have hnext : (s.noted s').drop n
      = .appended fileName offset bytes :: (s.noted s').drop (n + 1) := by
    obtain ⟨hn, hget⟩ := List.getElem?_eq_some_iff.mp hevent
    rw [List.drop_eq_getElem_cons hn, hget]
  rw [hnext] at hrest
  obtain ⟨x, hx, hpossible⟩ := hrest.head
  rcases x with fileId | ⟨fileId, e⟩ | fileId
  · cases hx
  · obtain ⟨rfl, rfl, rfl⟩ := StoreEvent.appended.inj hx
    obtain ⟨node, hnode⟩ := Option.isSome_iff_exists.mp hpossible
    refine ⟨log₁, d, fileId, node, e, hfirst.holds (h.later hdoes.calls []), hnode, hpos, hlt,
      List.mem_of_getElem? hevent, ?_⟩
    change replay s.segments.world.disk (stopAt (s.noted s') n k) = _
    rw [stopAt, hevent, Option.bind_some, StoreEvent.part, if_neg hpos.ne', replay, List.foldl_append]
    change (StoreEvent.appended _ _ _).apply (replay s.segments.world.disk _) = _
    rw [← hfirst.replay_eq, apply_appended hnode]
  · cases hx

end Cut

/-! ## Opening what is left -/

section Opening

variable [DecidableEq Key]

omit [DecidableEq Key] in
/-- A file is made whatever the others hold. -/
theorem Segments.newSegment_of_unnamed (henv : env.Behaves) {s : Segments}
    (h : s.world.disk.names.lookup (segmentName (env.monotonicNow s.world.calls)) = none) :
    newSegment env s = (.ok (fresh env s.world), { s with world := s.world.grown env }) := by
  simp only [newSegment, onWorld, Op.zoom, Op.bind_apply, nextFileId, Segment.new, WasiStore.open,
    World.note_calls, World.note_disk, World.after_calls, World.after_disk, henv.complete, h,
    Disk.openFile_of_none h]
  rfl

namespace KVStore

/-- **Opening a directory reads every file in it.** -/
theorem readable_of_new (henv : env.Behaves) {s s' : KVStore Key}
    (hnamed : ∀ {name node}, s.segments.world.disk.names.lookup name = some node →
      ∃ i < s.segments.world.calls, name = segmentName (env.monotonicNow i))
    {config : Config} {order : SegmentOrder} (hrun : new lib env config order s = (.ok (), s'))
    {fileId node : ℕ}
    (hnode : s.segments.world.disk.names.lookup (segmentName fileId) = some node) :
    ∃ entries, lib.decodeMulti (s.segments.world.disk.content node) = .ok entries := by
  have hnew : s.segments.world.disk.names.lookup
      (segmentName (env.monotonicNow s.segments.world.calls)) = none := by
    rcases hlook : s.segments.world.disk.names.lookup
      (segmentName (env.monotonicNow s.segments.world.calls)) with _ | node'
    · rfl
    · obtain ⟨i, hi, hname⟩ := hnamed hlook
      have := henv.distinct (segmentName_injective hname)
      omega
  have hne : fileId ≠ env.monotonicNow s.segments.world.calls := by
    rintro rfl
    rw [hnew] at hnode
    cases hnode
  have hnode' : (s.segments.world.grown env).disk.names.lookup (segmentName fileId) = some node := by
    rw [World.grown, Disk.lookup_create_of_ne fun hname => hne (segmentName_injective hname), hnode]
  obtain ⟨segments, hsegments, hdisk, -, -, hlook⟩ := @reload_rounds env henv
    (WasiStore.getFiles (s.segments.world.grown env))
    { s.segments with
      world := s.segments.world.grown env
      activeSegment := fresh env s.segments.world
      inactiveSegments := ∅
      maxSegmentSizeBytes := config.maxSegmentSizeBytes } fun name hname => by
      obtain ⟨node', hnode'⟩ := Option.isSome_iff_exists.mp
        (AList.lookup_isSome.mpr (AList.mem_keys.mpr hname))
      by_cases heq : name = segmentName (env.monotonicNow s.segments.world.calls)
      · exact ⟨_, node', heq, hnode'⟩
      · obtain ⟨i, -, hi⟩ := hnamed ((Disk.lookup_create_of_ne heq).symm.trans hnode')
        exact ⟨_, node', hi, hnode'⟩
  have hmem : segmentName fileId ∈ WasiStore.getFiles (s.segments.world.grown env) :=
    AList.mem_keys.mp (AList.lookup_isSome.mp (Option.isSome_iff_exists.mpr ⟨node, hnode'⟩))
  have hreopened : segments.inactiveSegments.lookup fileId = some (reopened fileId node) := by
    rw [hlook, if_pos ⟨hmem, hne⟩]
    change Option.map _ ((s.segments.world.grown env).disk.names.lookup _) = _
    rw [hnode']
    rfl
  have hopen : newSegments env config.maxSegmentSizeBytes s.segments = (.ok (), segments) := by
    rw [newSegments, Op.bind_apply, newSegment_of_unnamed henv hnew]
    exact hsegments
  obtain ⟨_, s₁, hfirst, hrest⟩ := Op.bind_eq_ok.mp hrun
  obtain rfl := congrArg Prod.snd (hfirst.symm.trans (onSegments_of_ok hopen))
  obtain ⟨_, s₂, hset, hrest⟩ := Op.bind_eq_ok.mp hrest
  obtain rfl := Op.update_eq_ok.mp hset
  obtain ⟨s₃, s₄, hask, -⟩ := Op.bind_eq_ok.mp hrest
  obtain ⟨contents, hread, -⟩ := reload_eq_ok (Op.ask_eq_ok.mp hask).1
  obtain ⟨y, -, hy⟩ := Outcome.exists_right_of_forall₂ (Outcome.forall₂_of_mapM_eq_ok hread)
    (order.mem_iter.mpr (AList.mem_lookup_iff.mp hreopened))
  obtain ⟨entries, hfull, -⟩ := Outcome.bind_eq_ok.mp hy
  refine ⟨entries, ?_⟩
  change lib.decodeMulti (segments.world.disk.content node) = _ at hfull
  rwa [hdisk, World.grown, Disk.content_create_of_lt (s.segments.world.disk.linked hnode)] at hfull

/-- **A torn directory is not opened.** -/
theorem new_ne_ok_of_torn (henv : env.Behaves) {s : KVStore Key} {d : Disk FileName}
    {events : List StoreEvent} (hd : World.Holds lib env ⟨d, s.segments.world.calls, events⟩ log)
    {fileId node k : ℕ} (hnode : d.names.lookup (segmentName fileId) = some node) {e : Entry Key}
    (hpos : 0 < k) (hlt : k < (lib.bytes e).length)
    (hfit : (lib.file (log fileId)).length + (lib.bytes e).length < 2 ^ 32)
    (hdisk : s.segments.world.disk
      = d.writeAt node (lib.file (log fileId)).length ((lib.bytes e).take k))
    (config : Config) (order : SegmentOrder) (s' : KVStore Key) :
    new lib env config order s ≠ (.ok (), s') := by
  intro hrun
  have hcontent : s.segments.world.disk.content node
      = lib.file (log fileId) ++ (lib.bytes e).take k := by
    rw [hdisk, Disk.content_writeAt (d.linked hnode), hd.file_of_lookup hnode, overwrite_length]
  have htake : ((lib.bytes e).take k).length = k := by
    rw [List.length_take]
    omega
  obtain ⟨entries, hentries⟩ := readable_of_new henv (fun hn => hd.named (by rwa [hdisk] at hn)) hrun
    (by rw [hdisk]; exact hnode : s.segments.world.disk.names.lookup (segmentName fileId) = some node)
  have hout : OutOfRange (lib.decodeMulti (lib.file (log fileId) ++ (lib.bytes e).take k)) :=
    decodeMulti_torn (List.take_prefix _ _) (List.ne_nil_of_length_pos (by omega)) (by omega) hfit
  rw [hcontent, hout] at hentries
  cases hentries

/-- **A directory of logs is opened**, and a key is answered with a value that a record of it has. -/
theorem new_of_holds (henv : env.Behaves) {s : KVStore Key} (h : s.segments.world.Holds lib env log)
    (hfit : ∀ fileId, (lib.file (log fileId)).length < 2 ^ 32) (config : Config) (order : SegmentOrder) :
    ∃ s', new lib env config order s = (.ok (), s') ∧ ∀ key,
      (∀ value, s'.get key = .ok value → ∃ fileId, ∃ e ∈ log fileId, e.key = key ∧ e.value = value)
      ∧ ((∃ fileId, ∃ e ∈ log fileId, e.key = key) → ∃ value, s'.get key = .ok value) := by
  obtain ⟨segments, h', hactive, hdisk, hnew⟩ := new_eq henv h config
  have hlook : ∀ x ∈ order.iter segments.inactiveSegments.entries,
      segments.inactiveSegments.lookup x.1 = some x.2 := fun x hx =>
    AList.mem_lookup_iff.mpr (order.mem_iter.mp hx)
  refine ⟨_, (hnew order).trans (by rw [mapM_readSegment h' hfit hlook]), fun key => ?_⟩
  have hget := get_opened h' hfit config hlook key
  refine ⟨fun value hvalue => ?_, ?_⟩
  · rw [hget, Outcome.okOr_eq_ok, Option.map_eq_some_iff] at hvalue
    obtain ⟨x, hlast, rfl⟩ := hvalue
    obtain ⟨entries, hmem, hentry⟩ := exists_of_last_records hlast
    obtain ⟨y, -, hpair⟩ := List.mem_map.mp hmem
    obtain ⟨-, rfl⟩ := Prod.mk.inj hpair
    obtain ⟨hin, hkey⟩ := HashMap.key_of_last hentry
    obtain ⟨l, e, l', hl, hx⟩ := lib.exists_of_mem_layout hin
    refine ⟨y.1, e, by rw [hl]; exact List.mem_append_right _ List.mem_cons_self, ?_, ?_⟩
    · rw [← hkey, hx]
      rfl
    · rw [hx]
      rfl
  · rintro ⟨fileId, e, he, hkey⟩
    obtain ⟨r, hr, hrkey⟩ := lib.exists_layout_of_mem 0 he
    obtain ⟨g, hg⟩ : ∃ g, segments.segment? fileId = some g := by
      rcases hg : segments.segment? fileId with _ | g
      · rw [h'.world.log_of_none (h'.segment?_eq_none.mp hg)] at he
        cases he
      · exact ⟨g, rfl⟩
    have hne : fileId ≠ segments.activeSegment.fileId := by
      rintro rfl
      rw [hactive, h.log_of_none (h.lookup_of_le henv le_rfl)] at he
      cases he
    rw [segment?_of_ne hne] at hg
    have hin : (⟨fileId, g⟩ : Sigma fun _ : ℕ => Segment)
        ∈ order.iter segments.inactiveSegments.entries :=
      order.mem_iter.mpr (AList.mem_lookup_iff.mp hg)
    obtain ⟨entry, hentry⟩ := Option.isSome_iff_exists.mp
      (HashMap.isSome_last hr (hrkey.trans hkey))
    obtain ⟨x, hx⟩ := Option.isSome_iff_exists.mp
      (isSome_last_records
        (show (fileId, lib.layout 0 (log fileId)) ∈ logsIn lib log _ from
          List.mem_map.mpr ⟨_, hin, rfl⟩) hentry)
    refine ⟨x.2.value, ?_⟩
    rw [hget, hx]
    rfl

end KVStore

end Opening

/-! ## Lives -/

/-- No append among the events ends behind `2 ^ 32` bytes. -/
def Short (events : List StoreEvent) : Prop :=
  ∀ fileName offset bytes, .appended fileName offset bytes ∈ events →
    offset + bytes.length < 2 ^ 32

instance (events : List StoreEvent) : Decidable (Short events) :=
  decidable_of_iff (events.all (fun
    | .appended _ offset bytes => offset + bytes.length < 2 ^ 32
    | _ => true) = true) (by
      rw [List.all_eq_true]
      refine ⟨fun h fileName offset bytes hin => of_decide_eq_true (h _ hin), fun h event hin => ?_⟩
      rcases event with ⟨fileName, existed⟩ | ⟨fileName, offset, bytes⟩ | fileName
      · rfl
      · exact decide_eq_true (h fileName offset bytes hin)
      · rfl)

/-- **Short appends keep the files short.** -/
theorem Follows.file_lt {allowed : (ℕ → List (Entry Key)) → Effect Key → Prop} {calls : ℕ}
    {d d' : Disk FileName} {log log' : ℕ → List (Entry Key)} {events : List StoreEvent}
    (h : Follows lib env allowed calls d log events d' log') (hshort : Short events)
    (hfit : ∀ fileId, (lib.file (log fileId)).length < 2 ^ 32) (fileId : ℕ) :
    (lib.file (log' fileId)).length < 2 ^ 32 := by
  induction h with
  | done => exact hfit fileId
  | @next d d' log log' x events _ _ _ ih =>
    refine ih (fun fileName offset bytes hin => hshort _ _ _ (List.mem_cons_of_mem _ hin)) fun id => ?_
    rcases x with made | ⟨into, e⟩ | dropped
    · exact hfit id
    · rw [Effect.after]
      by_cases hid : id = into
      · rw [hid, Function.update_self, KeyLib.file_append, List.length_append, KeyLib.file_cons,
          KeyLib.file_nil, List.append_nil]
        exact hshort _ _ _ List.mem_cons_self
      · rw [Function.update_of_ne hid]
        exact hfit id
    · rw [Effect.after]
      by_cases hid : id = dropped
      · rw [hid, Function.update_self]
        exact Nat.two_pow_pos 32
      · rw [Function.update_of_ne hid]
        exact hfit id

/-- Where the files are short, a scan can address them. -/
theorem Segments.Holds.fits {s : Segments} {log : ℕ → List (Entry Key)} (h : s.Holds lib env log)
    (hfit : ∀ fileId, (lib.file (log fileId)).length < 2 ^ 32) : s.Fits := by
  intro fileId g hg
  have hnode := h.node fileId
  rw [hg, Option.map_some] at hnode
  rw [WasiStore.readFull, h.world.file_of_lookup hnode.symm]
  exact hfit fileId

/-- Whether the process runs. -/
inductive Process where
  | running
  | stopped

variable [DecidableEq Key]

/-- **A life of a directory**: operations that return `Ok`, and operations in the middle of which the
process stops, with all that were begun and all that returned.  Where the process has stopped it opens
the directory before it writes. -/
inductive Life (lib : KeyLib Key) (env : Env) :
    List (Step Key) → List (Step Key) → Process → KVStore Key → Prop
  | start : Life lib env [] [] .stopped (.closed .empty)
  | step {begun done : List (Step Key)} {process : Process} {s s' : KVStore Key} {x : Step Key} :
    Life lib env begun done process s → (x.Writes → process = .running) →
    x.run lib env s = (.ok (), s') → Short (s.noted s') →
      Life lib env (begun ++ [x]) (done ++ [x]) .running s'
  | crash {begun done : List (Step Key)} {process : Process} {s s' : KVStore Key} {x : Step Key}
    (n k : ℕ) : Life lib env begun done process s → (x.Writes → process = .running) →
    x.run lib env s = (.ok (), s') → Short (s.noted s') →
      Life lib env (begun ++ [x]) done .stopped (s.crashed s' n k)

namespace Step

/-- The store after some steps. -/
def runAll (lib : KeyLib Key) (env : Env) (s : KVStore Key) (xs : List (Step Key)) : KVStore Key :=
  xs.foldl (fun s x => (x.run lib env s).2) s

/-- **Each of the steps returns `Ok`**, and its appends are short. -/
def Go (lib : KeyLib Key) (env : Env) (s : KVStore Key) : List (Step Key) → Prop
  | [] => True
  | x :: xs => (x.run lib env s).1 = .ok () ∧ Short (s.noted (x.run lib env s).2)
    ∧ Go lib env (x.run lib env s).2 xs

instance Go.decidable (lib : KeyLib Key) (env : Env) (s : KVStore Key) :
    (xs : List (Step Key)) → Decidable (Go lib env s xs)
  | [] => .isTrue trivial
  | x :: xs =>
    have := Go.decidable lib env (x.run lib env s).2 xs
    inferInstanceAs (Decidable (_ ∧ _ ∧ _))

end Step

namespace Life

variable {begun done : List (Step Key)} {process : Process} {s : KVStore Key}

/-- A life in which the process runs goes on. -/
theorem runAll (h : Life lib env begun done .running s) {xs : List (Step Key)} (hgo : Step.Go lib env s xs) :
    Life lib env (begun ++ xs) (done ++ xs) .running (Step.runAll lib env s xs) := by
  induction xs generalizing begun done s with
  | nil =>
    rw [List.append_nil, List.append_nil]
    exact h
  | cons x xs ih =>
    obtain ⟨hok, hshort, hrest⟩ := hgo
    rw [List.append_cons begun, List.append_cons done]
    exact ih (h.step (fun _ => rfl) (Prod.ext hok rfl) hshort) hrest

/-- Wherever the process is, the directory is opened and written to. -/
theorem session (h : Life lib env begun done process s) {config : Config} {order : SegmentOrder}
    {l : List (Step Key)} (hgo : Step.Go lib env s (.reopen config order :: l)) :
    Life lib env (begun ++ .reopen config order :: l) (done ++ .reopen config order :: l) .running
      (Step.runAll lib env s (.reopen config order :: l)) := by
  obtain ⟨hok, hshort, hrest⟩ := hgo
  rw [List.append_cons begun, List.append_cons done]
  exact (h.step False.elim (Prod.ext hok rfl) hshort).runAll hrest

end Life

/-! ## What the files say of what was written -/

/-- **The logs say what was written**: each record has the key and the value of one that was begun, a
tombstone only for a key that was to be deleted; and a key that was written, and never to be deleted, has
a record. -/
structure Recorded (begun done : List (Step Key)) (log : ℕ → List (Entry Key)) : Prop where
  source : ∀ {fileId e}, e ∈ log fileId →
    ∃ x ∈ begun, ∃ e₀ ∈ x.entry, e₀.key = e.key ∧ e₀.value = e.value
  tombstone : ∀ {fileId e}, e ∈ log fileId → e.deleted = true → Step.delete e.key ∈ begun
  kept : ∀ {x e₀}, x ∈ done → e₀ ∈ x.entry → Step.delete e₀.key ∉ begun →
    ∃ fileId, ∃ e ∈ log fileId, e.key = e₀.key

namespace Recorded

variable {begun done : List (Step Key)} {log log₀ : ℕ → List (Entry Key)} {limit : UInt64}
  {x : Step Key}

omit [DecidableEq Key] in
/-- One more operation is begun. -/
theorem begin (h : Recorded begun done log) (x : Step Key) : Recorded (begun ++ [x]) done log where
  source he := by
    obtain ⟨y, hy, hrest⟩ := h.source he
    exact ⟨y, List.mem_append_left _ hy, hrest⟩
  tombstone he hdel := List.mem_append_left _ (h.tombstone he hdel)
  kept hx he hnone := h.kept hx he fun hin => hnone (List.mem_append_left _ hin)

omit [DecidableEq Key] in
/-- A record of an operation is a tombstone only if it deletes. -/
theorem eq_delete_of_entry {e₀ : Entry Key} (he : e₀ ∈ x.entry) (hdel : e₀.deleted = true) :
    x = .delete e₀.key := by
  rcases x with ⟨readOrder, writeOrder, key, value⟩ | key | ⟨config, order⟩
  · obtain rfl := Option.some.inj he
    simp [Entry.new, Entry.deleted] at hdel
  · obtain rfl := Option.some.inj he
    rfl
  · cases he

omit [DecidableEq Key] in
/-- **An effect that is allowed loses nothing.** -/
theorem after (h₀ : Recorded begun done log₀) (h : Recorded (begun ++ [x]) done log) {y : Effect Key}
    (hy : Allows lib limit x.entry log₀ log y) : Recorded (begun ++ [x]) done (y.after log) := by
  rcases y with fileId | ⟨fileId, e⟩ | fileId
  · exact h
  · have hcases : ∀ {id e'}, e' ∈ Effect.after log (.append fileId e) id → e' ∈ log id ∨ e' = e := by
      intro id e' he'
      by_cases hid : id = fileId
      · subst hid
        rw [Effect.after, Function.update_self, List.mem_append, List.mem_singleton] at he'
        exact he'
      · rw [Effect.after, Function.update_of_ne hid] at he'
        exact .inl he'
    have hnew : (∃ y ∈ begun ++ [x], ∃ e₀ ∈ y.entry, e₀.key = e.key ∧ e₀.value = e.value)
        ∧ (e.deleted = true → Step.delete e.key ∈ begun ++ [x]) := by
      obtain ⟨-, ⟨e₀, he₀, now, rfl⟩ | ⟨id, e₀, he₀, now, rfl⟩⟩ := hy
      · refine ⟨⟨x, List.mem_append_right _ List.mem_cons_self, e₀, he₀, rfl, rfl⟩, fun hdel => ?_⟩
        have hx := eq_delete_of_entry he₀ hdel
        exact List.mem_append_right _ (List.mem_singleton.mpr hx.symm)
      · obtain ⟨y, hy, hrest⟩ := h₀.source he₀
        refine ⟨⟨y, List.mem_append_left _ hy, hrest⟩, fun hdel => ?_⟩
        simp [Entry.copied, Entry.stamped, Entry.newPreservingTimestamp, Entry.deleted] at hdel
    refine ⟨fun he' => ?_, fun he' hdel => ?_, fun hz he' hnone => ?_⟩
    · obtain hold | rfl := hcases he'
      · exact h.source hold
      · exact hnew.1
    · obtain hold | rfl := hcases he'
      · exact h.tombstone hold hdel
      · exact hnew.2 hdel
    · obtain ⟨id, e', hmem, hkey⟩ := h.kept hz he' hnone
      exact ⟨id, e', (prefix_update fileId e id).subset hmem, hkey⟩
  · have hsub : ∀ {id e'}, e' ∈ Effect.after log (.drop fileId) id → e' ∈ log id := by
      intro id e' he'
      by_cases hid : id = fileId
      · subst hid
        rw [Effect.after, Function.update_self] at he'
        cases he'
      · rwa [Effect.after, Function.update_of_ne hid] at he'
    refine ⟨fun he' => h.source (hsub he'), fun he' => h.tombstone (hsub he'), fun hz he' hnone => ?_⟩
    obtain ⟨id, e', hmem, hkey⟩ := h.kept hz he' hnone
    by_cases hid : id = fileId
    · subst hid
      obtain ⟨id', hne, e'', hmem'', hkey''⟩ | ⟨id', e'', hmem'', hkey'', hdel⟩ := hy e' hmem
      · refine ⟨id', e'', ?_, hkey''.trans hkey⟩
        rwa [Effect.after, Function.update_of_ne hne]
      · have := h₀.tombstone hmem'' hdel
        rw [hkey'', hkey] at this
        exact absurd (List.mem_append_left _ this) hnone
    · refine ⟨id, e', ?_, hkey⟩
      rwa [Effect.after, Function.update_of_ne hid]

end Recorded

/-! ## How long a file gets -/

/-- **No file outgrows the limit by more than its last record.** -/
def Bounded (lib : KeyLib Key) (limit : UInt64) (log : ℕ → List (Entry Key)) : Prop :=
  ∀ fileId l e, log fileId = l ++ [e] →
    l = [] ∨ ((lib.file l).length : ℤ) < limit.toInt64.toInt

omit [DecidableEq Key] in
/-- An effect that is allowed keeps to the limit. -/
theorem Bounded.after {limit : UInt64} {own : Option (Entry Key)} {log₀ log : ℕ → List (Entry Key)}
    (h : Bounded lib limit log) {y : Effect Key} (hy : Allows lib limit own log₀ log y) :
    Bounded lib limit (y.after log) := by
  intro id l e hl
  rcases y with fileId | ⟨fileId, e'⟩ | fileId
  · exact h id l e hl
  · by_cases hid : id = fileId
    · subst hid
      rw [Effect.after, Function.update_self] at hl
      obtain ⟨rfl, -⟩ := List.append_inj' hl rfl
      exact hy.1
    · rw [Effect.after, Function.update_of_ne hid] at hl
      exact h id l e hl
  · by_cases hid : id = fileId
    · subst hid
      rw [Effect.after, Function.update_self] at hl
      exact absurd hl.symm (List.append_ne_nil_of_right_ne_nil l (List.cons_ne_nil e []))
    · rw [Effect.after, Function.update_of_ne hid] at hl
      exact h id l e hl

/-! ## What stands in a life -/

namespace Life

variable {begun done : List (Step Key)} {process : Process} {s s' : KVStore Key} {x : Step Key}
  {log : ℕ → List (Entry Key)}

/-- **What stands in a life**: the directory holds logs that say what was written, none too long, and
the store of a process that runs has them as its segments; where every session had the same limit, they
keep to it. -/
structure Standing (lib : KeyLib Key) (env : Env) (begun done : List (Step Key)) (process : Process)
    (s : KVStore Key) (log : ℕ → List (Entry Key)) : Prop where
  world : s.segments.world.Holds lib env log
  short : ∀ fileId, (lib.file (log fileId)).length < 2 ^ 32
  recorded : Recorded begun done log
  bounded : ∀ {limit}, (∀ config order, Step.reopen config order ∈ begun →
    config.maxSegmentSizeBytes = limit) → Bounded lib limit log
      ∧ (process = .running → s.segments.maxSegmentSizeBytes = limit)
  opened : process = .running → s.segments.Holds lib env log

/-- Where it stands, an operation does what it is allowed. -/
theorem Standing.does (henv : env.Behaves) (h : Standing lib env begun done process s log)
    (hx : x.Writes → process = .running) (hrun : x.run lib env s = (.ok (), s')) :
    ∃ log', s'.segments.Holds lib env log'
      ∧ (∀ e ∈ x.entry, ∃ fileId now, e.stamped now ∈ log' fileId)
      ∧ s'.segments.maxSegmentSizeBytes = x.limit s
      ∧ Does lib env (Allows lib (x.limit s) x.entry log)
        s.segments.world log s'.segments.world log' :=
  does_step henv h.world (fun hw => ⟨h.opened (hx hw), (h.opened (hx hw)).fits h.short⟩) hrun

omit [DecidableEq Key] in
/-- Where every session has the same limit, an operation has it too. -/
theorem Standing.limit_eq (h : Standing lib env begun done process s log)
    (hx : x.Writes → process = .running) {limit : UInt64}
    (hlimit : ∀ config order, Step.reopen config order ∈ begun ++ [x] →
      config.maxSegmentSizeBytes = limit) :
    x.limit s = limit ∧ Bounded lib limit log := by
  obtain ⟨hbounded, hmax⟩ := h.bounded fun config order hin =>
    hlimit config order (List.mem_append_left _ hin)
  refine ⟨?_, hbounded⟩
  rcases x with ⟨_, _, _, _⟩ | _ | ⟨config, order⟩
  · exact hmax (hx trivial)
  · exact hmax (hx trivial)
  · exact hlimit config order (List.mem_append_right _ List.mem_cons_self)

/-- **An operation that returns keeps it standing…** -/
theorem Standing.step (henv : env.Behaves) (h : Standing lib env begun done process s log)
    (hx : x.Writes → process = .running) (hrun : x.run lib env s = (.ok (), s'))
    (hshort : Short (s.noted s')) :
    ∃ log', Standing lib env (begun ++ [x]) (done ++ [x]) .running s' log' := by
  obtain ⟨log', h', hown, hmax, hdoes⟩ := h.does henv hx hrun
  have hkept := hdoes.noted.keeps (P := Recorded (begun ++ [x]) done)
    (fun hlog hy => h.recorded.after hlog hy) (h.recorded.begin x)
  refine ⟨log', h'.world, hdoes.noted.file_lt hshort h.short,
    ⟨hkept.source, hkept.tombstone, fun hy he hnone => ?_⟩, fun hlimit => ?_, fun _ => h'⟩
  · rcases List.mem_append.mp hy with hy | hy
    · exact hkept.kept hy he hnone
    · obtain rfl := List.mem_singleton.mp hy
      obtain ⟨fileId, now, hmem⟩ := hown _ he
      exact ⟨fileId, _, hmem, rfl⟩
  · obtain ⟨heq, hbounded⟩ := h.limit_eq hx hlimit
    rw [heq] at hmax hdoes
    exact ⟨hdoes.noted.keeps (fun hlog hy => Bounded.after hlog hy) hbounded, fun _ => hmax⟩

/-- **…and so does one in the middle of which the process stops**, between two effects. -/
theorem Standing.crash (henv : env.Behaves) (h : Standing lib env begun done process s log)
    (hx : x.Writes → process = .running) (hrun : x.run lib env s = (.ok (), s'))
    (hshort : Short (s.noted s')) {n k : ℕ} (hcut : ¬Torn (s.noted s') n k) :
    ∃ log', Standing lib env (begun ++ [x]) done .stopped (s.crashed s' n k) log' := by
  obtain ⟨log', -, -, -, hdoes⟩ := h.does henv hx hrun
  obtain ⟨log₁, d, events, hfollows, hshort₁, h₁⟩ := crashed_of_not_torn h.world hdoes hcut
  have hkept := hfollows.keeps (P := Recorded (begun ++ [x]) done)
    (fun hlog hy => h.recorded.after hlog hy) (h.recorded.begin x)
  refine ⟨log₁, h₁, hfollows.file_lt (fun _ _ _ hin => hshort _ _ _ (hshort₁ hin)) h.short, hkept,
    fun hlimit => ⟨?_, fun hp => by cases hp⟩, fun hp => by cases hp⟩
  obtain ⟨heq, hbounded⟩ := h.limit_eq hx hlimit
  rw [heq] at hfollows
  exact hfollows.keeps (fun hlog hy => Bounded.after hlog hy) hbounded

/-- Where a record was torn, the directory is not opened. -/
theorem Standing.new_ne_ok (henv : env.Behaves) (h : Standing lib env begun done process s log)
    (hx : x.Writes → process = .running) (hrun : x.run lib env s = (.ok (), s'))
    (hshort : Short (s.noted s')) {n k : ℕ} (hcut : Torn (s.noted s') n k) (config : Config)
    (order : SegmentOrder) (s'' : KVStore Key) :
    KVStore.new lib env config order (s.crashed s' n k) ≠ (.ok (), s'') := by
  obtain ⟨log', -, -, -, hdoes⟩ := h.does henv hx hrun
  obtain ⟨log₁, d, fileId, node, e, hd, hnode, hpos, hlt, hevent, hdisk⟩ :=
    crashed_of_torn h.world hdoes hcut
  exact KVStore.new_ne_ok_of_torn (s := s.crashed s' n k) henv hd hnode hpos hlt (hshort _ _ _ hevent) hdisk
    config order s''

/-- **Every life stands, or ends with a torn record**: then nothing opens the directory again. -/
theorem standing (henv : env.Behaves) (h : Life lib env begun done process s) :
    (∃ log, Standing lib env begun done process s log)
      ∨ process = .stopped ∧ ∀ config order s', KVStore.new lib env config order s ≠ (.ok (), s') := by
  induction h with
  | start =>
    refine .inl ⟨fun _ => [], Run.holds_empty, fun _ => Nat.two_pow_pos 32,
      ⟨fun he => ?_, fun he => ?_, fun hx => ?_⟩, fun _ => ⟨fun fileId l e hl => ?_, fun hp => by cases hp⟩,
      fun hp => by cases hp⟩
    · cases he
    · cases he
    · cases hx
    · exact absurd hl.symm (List.append_ne_nil_of_right_ne_nil l (List.cons_ne_nil e []))
  | @step begun done process s s' x _ hx hrun hshort ih =>
    obtain ⟨log, hlog⟩ | ⟨rfl, hdead⟩ := ih
    · exact .inl (hlog.step henv hx hrun hshort)
    · rcases x with ⟨_, _, _, _⟩ | _ | ⟨config, order⟩
      · cases hx trivial
      · cases hx trivial
      · exact absurd hrun (hdead config order _)
  | @crash begun done process s s' x n k _ hx hrun hshort ih =>
    obtain ⟨log, hlog⟩ | ⟨rfl, hdead⟩ := ih
    · by_cases hcut : Torn (s.noted s') n k
      · exact .inr ⟨rfl, hlog.new_ne_ok henv hx hrun hshort hcut⟩
      · exact .inl (hlog.crash henv hx hrun hshort hcut)
    · rcases x with ⟨_, _, _, _⟩ | _ | ⟨config, order⟩
      · cases hx trivial
      · cases hx trivial
      · exact absurd hrun (hdead config order _)

/-- An operation can only return where the directory stands. -/
theorem exists_standing (henv : env.Behaves) (h : Life lib env begun done process s)
    (hx : x.Writes → process = .running) (hrun : x.run lib env s = (.ok (), s')) :
    ∃ log, Standing lib env begun done process s log := by
  obtain hlog | ⟨rfl, hdead⟩ := h.standing henv
  · exact hlog
  · rcases x with ⟨_, _, _, _⟩ | _ | ⟨config, order⟩
    · cases hx trivial
    · cases hx trivial
    · exact absurd hrun (hdead config order _)

end Life

/-! ## Recovery -/

/-- A second value is written over the first. -/
def secondValue : Step (List UInt8) := .update .asKept .asKept [7] [2]

/-- The store when it returns. -/
def writtenOver : KVStore (List UInt8) := (secondValue.run byteKeys steady writtenOnce).2

theorem life_written : Life byteKeys steady
    [.reopen libraryConfig .asKept, .update .asKept .asKept [7] [1]]
    [.reopen libraryConfig .asKept, .update .asKept .asKept [7] [1]] .running writtenOnce :=
  Life.start.session (l := [.update .asKept .asKept [7] [1]]) (by decide +kernel)

/-- Two updates of a key, the second of which fills the segment, and a third… -/
def pairSteps : List (Step (List UInt8)) :=
  [.reopen pairSegments .asKept, .update .asKept .asKept [7] [1], .update .asKept .asKept [7] [2],
   .update .asKept .asKept [8] [3]]

def pairWritten : KVStore (List UInt8) := Step.runAll byteKeys steady (.closed .empty) pairSteps

/-- …and a fourth, that is stopped before its record; and the directory opened again. -/
def pairStopped : KVStore (List UInt8) :=
  ((Step.update .asKept .asKept [8] [4]).run byteKeys steady pairWritten).2

def pairReopened : KVStore (List UInt8) :=
  Step.runAll byteKeys steady (pairWritten.crashed pairStopped 0 0) [.reopen pairSegments .asKept]

/-- The six operations. -/
def pairBegun : List (Step (List UInt8)) :=
  pairSteps ++ [.update .asKept .asKept [8] [4]] ++ [.reopen pairSegments .asKept]

theorem life_pairReopened : Life byteKeys steady pairBegun (pairSteps ++ [.reopen pairSegments .asKept])
    .running pairReopened := by
  have hlife : Life byteKeys steady pairSteps pairSteps .running pairWritten :=
    Life.start.session (l := pairSteps.tail) (by decide +kernel)
  have hstopped : (Step.update .asKept .asKept [8] [4]).run byteKeys steady pairWritten
      = (.ok (), pairStopped) := Prod.ext (by decide +kernel) rfl
  exact (hlife.crash 0 0 (fun _ => rfl) hstopped (by decide +kernel)).session (by decide +kernel)

end Bitspend.Kv
