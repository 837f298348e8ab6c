import Bitspend.Kv.Serving
import Bitspend.Kv.Session

/-!
# Kv/Unseen — failures that no reader sees

An `open` or a `write` may fail at any call, a write after any number of bytes, and a call that fails
keeps what it had done by then.  None of that is where the key directory points: an update or a delete
that fails, and a merge that cannot be written back, leave every `get` as it was.  What is written later
is read as if nothing had happened (`failures_unseen`).

`begin_merge` passes over the error of its `write_back`, so what it leaves is looked at by itself.
-/

namespace Bitspend.Kv

open Segments

variable {Key : Type} [DecidableEq Key] {lib : KeyLib Key} {env : Env}

/-! ## Changing the directory -/

namespace Segments.Serves

variable {d d' : KeyDirectory Key} {s : Segments}

/-- Another directory, with every entry in its place. -/
theorem directory (h : Serves env d s)
    (hd : ∀ {key r}, d'.lookup key = some r → Placed env s r) : Serves env d' s :=
  ⟨h.named, h.node, h.own, h.apart, h.cursor, hd⟩

theorem insert (h : Serves env d s) {e : Entry Key} {r : AppendEntryResponse}
    (hr : Written lib s e r) (key : Key) : Serves env (AList.insert key r d) s := by
  refine h.directory fun {key' r'} hlook => ?_
  by_cases hkey : key' = key
  · subst hkey
    obtain rfl := Option.some.inj ((AList.lookup_insert _).symm.trans hlook)
    obtain ⟨fileId, hname, hdrawn⟩ := h.named _ (Option.isSome_iff_exists.mpr ⟨_, h.active⟩)
    rw [← segmentName_injective hname, ← hr.active] at hdrawn
    exact ⟨hdrawn, fun _ => hr.before⟩
  · exact h.placed ((AList.lookup_insert_ne hkey).symm.trans hlook)

theorem erase (h : Serves env d s) (key : Key) : Serves env (AList.erase key d) s := by
  refine h.directory fun {key' r'} hlook => ?_
  have hkey : key' ≠ key := by
    rintro rfl
    cases (AList.lookup_erase _ _).symm.trans hlook
  exact h.placed ((AList.lookup_erase_ne hkey).symm.trans hlook)

theorem bulkUpdate (h : Serves env d s) {responses : List (Key × AppendEntryResponse)}
    (hresponses : ∀ x ∈ responses, Elsewhere env s x.2.fileId) :
    Serves env (d.bulkUpdate responses) s := by
  refine h.directory fun {key r} hlook => ?_
  rcases KVStore.mem_of_lookup_bulkUpdate hlook with hmem | hold
  · exact ⟨(hresponses _ hmem).1, fun heq => absurd heq (hresponses _ hmem).2⟩
  · exact h.placed hold

end Segments.Serves

namespace KVStore

variable {s₀ s s' : KVStore Key}

/-- **The segments of the store serve its directory.** -/
def InService (env : Env) (s : KVStore Key) : Prop := Serves env s.keyDirectory s.segments

/-- **A store that shows what another one showed**, behind the same directory. -/
structure Unseen (env : Env) (s₀ s : KVStore Key) : Prop where
  directory : s.keyDirectory = s₀.keyDirectory
  serving : Serving env s₀.keyDirectory s₀.segments s.segments

theorem InService.unseen (h : s.InService env) : Unseen env s s := ⟨rfl, h.serving⟩

namespace Unseen

theorem inService (h : Unseen env s₀ s) : s.InService env := by
  rw [InService, h.directory]
  exact h.serving.serves

/-- **No reader sees the difference.** -/
theorem get (h : Unseen env s₀ s) (key : Key) : s.get key = s₀.get key :=
  get_eq_of_window (congrArg (AList.lookup key) h.directory) h.serving.same

end Unseen

/-! ## What the calls of a session do -/

theorem unseen_append (hids : Function.Injective env.monotonicNow) (e : Entry Key) :
    Op.Meets (Unseen env s₀) (onSegments (appendEntry lib env e))
      (fun r s => Unseen env s₀ s ∧ Written lib s.segments e r) (Unseen env s₀) :=
  (serving_appendEntry hids e).zoom (fun _ h => h.serving)
    (fun _ _ _ h ht => ⟨⟨h.directory, ht.1⟩, ht.2⟩) fun _ _ h ht => ⟨h.directory, ht⟩

/-- **A merge that cannot be written back is not seen**, wherever it stopped. -/
theorem unseen_writeBack (hids : Function.Injective env.monotonicNow) (fileIds : List ℕ)
    (changes : List (Key × MappedStoredEntry Key)) :
    Op.Meets (Unseen env s₀) (writeBack lib env fileIds changes) (fun _ => InService env)
      (Unseen env s₀) := by
  have hwrite : Op.Meets (Unseen env s₀) (onSegments (Segments.writeBack lib env changes))
      (fun responses s => Unseen env s₀ s ∧ ∀ x ∈ responses, Elsewhere env s.segments x.2.fileId)
      (Unseen env s₀) :=
    (serving_writeBack hids changes).zoom (fun _ h => h.serving)
      (fun _ _ _ h ht => ⟨⟨h.directory, ht.1⟩, ht.2⟩) fun _ _ h ht => ⟨h.directory, ht⟩
  refine hwrite.bind fun responses => Op.Meets.update ?_
  rintro s ⟨h, hresponses⟩
  exact Serves.remove (Serves.bulkUpdate h.inService hresponses) fileIds

theorem inService_mergeIfDue (hids : Function.Injective env.monotonicNow)
    (readOrder : SegmentOrder) (writeOrder : ChangeOrder Key) :
    Op.Keeps (InService env) (mergeIfDue lib env readOrder writeOrder) := by
  have hback : ∀ fileIds changes, Op.Keeps (InService env) (writeBack lib env fileIds changes) := by
    intro fileIds changes s h
    exact ((unseen_writeBack hids fileIds changes).post (fun _ _ h' => h')
      fun _ h' => h'.inService).snd h.unseen
  refine (Op.Keeps.ask _).bind fun due => ?_
  split_ifs
  · refine Op.Keeps.bind ((Op.Keeps.ask _).bind fun read => ?_) fun _ =>
      Op.Keeps.update fun _ h => h
    split_ifs
    · exact (hback _ _).attempt
    · exact Op.Keeps.pure _
  · exact Op.Keeps.pure _

/-- **What a session calls keeps the store in service**, however the call ends. -/
theorem inService_writes (hids : Function.Injective env.monotonicNow) {x : Step Key}
    (hx : x.Writes) : Op.Keeps (InService env) (x.run lib env) := by
  have happend : ∀ (e : Entry Key) (f : AppendEntryResponse → KVStore Key → KVStore Key),
      (∀ r s, s.InService env → Written lib s.segments e r → (f r s).InService env) →
        Op.Keeps (InService env) (onSegments (appendEntry lib env e) >>= fun r => Op.update (f r)) := by
    intro e f hf s h
    have hmeets : Op.Meets (Unseen env s) (onSegments (appendEntry lib env e)
        >>= fun r => Op.update (f r)) (fun _ => InService env) (InService env) :=
      ((unseen_append hids e).post (fun _ _ h' => h') fun _ h' => h'.inService).bind fun r =>
        Op.Meets.update fun s' h' => hf r s' h'.1.inService h'.2
    exact hmeets.snd h.unseen
  rcases x with ⟨readOrder, writeOrder, key, value⟩ | key | ⟨config, order⟩
  · exact (inService_mergeIfDue hids readOrder writeOrder).bind fun _ =>
      happend _ _ fun _ _ h hr => Serves.insert h hr key
  · exact happend _ _ fun _ _ h _ => Serves.erase h key
  · exact hx.elim

/-! ## Opening a store -/

/-- The directory that is read off the inactive segments has its entries in their places. -/
theorem inService_opened {segments : Segments} (h : Serves env (∅ : KeyDirectory Key) segments)
    {order : SegmentOrder} {contents : List (ℕ × List (MappedStoredEntry Key))}
    (hread : (order.iter segments.inactiveSegments.entries).mapM (readSegment lib segments.world)
      = .ok contents) (config : Config) : (opened config segments contents).InService env := by
  refine h.directory fun {key r} hlook => ?_
  rw [opened, HashMap.lookup_insertAll, AList.lookup_empty, Option.or_none,
    Option.map_eq_some_iff] at hlook
  obtain ⟨x, hx, rfl⟩ := hlook
  obtain ⟨g, -, hg, -⟩ := exists_of_mem_records hread (HashMap.key_of_last hx).1
  have hne := ne_active_of_inactive h.apart hg
  have hnode := h.node ((segment?_of_ne hne).trans hg)
  obtain ⟨fileId, hname, hdrawn⟩ := h.named _ (Option.isSome_iff_exists.mpr ⟨_, hnode⟩)
  rw [← segmentName_injective hname] at hdrawn
  exact ⟨hdrawn, fun heq => absurd heq hne⟩

/-- **Opening puts a store in service**, or leaves the files named. -/
theorem inService_new (hids : Function.Injective env.monotonicNow) (config : Config)
    (order : SegmentOrder) :
    Op.Meets (fun s : KVStore Key => Named env s.segments.world) (new lib env config order)
      (fun _ => InService env) (fun s => Named env s.segments.world) := by
  have hsegments : Op.Meets (fun s : KVStore Key => Named env s.segments.world)
      (onSegments (newSegments env config.maxSegmentSizeBytes))
      (fun _ s => Serves env (∅ : KeyDirectory Key) s.segments)
      (fun s => Named env s.segments.world) :=
    (serves_newSegments hids config.maxSegmentSizeBytes).zoom (fun _ h => h)
      (fun _ _ _ _ ht => ht) fun _ _ _ ht => ht
  refine hsegments.bind fun _ => Op.Meets.bind (Q := fun _ s => s = opened config s.segments []
    ∧ Serves env (∅ : KeyDirectory Key) s.segments) (Op.Meets.update fun s h => ⟨rfl, h⟩) fun _ => ?_
  refine Op.Meets.bind (Q := fun s' _ => s'.InService env)
    (Op.Meets.ask ?_ fun s h => h.2.named) fun s' => Op.Meets.update fun _ h => h
  rintro s' s ⟨hs, h⟩ hreload
  obtain ⟨contents, hread, rfl⟩ := reload_eq_ok hreload
  rw [hs]
  exact inService_opened h hread config

end KVStore

/-- **An open session is in service**, whatever calls have failed in it and before it. -/
theorem History.inService (hids : Function.Injective env.monotonicNow) {since : ℕ} {isOpen : Bool}
    {s : KVStore Key} (h : History lib env (fun _ _ _ => True) since isOpen s) :
    Named env s.segments.world ∧ (isOpen = true → s.InService env) := by
  induction h with
  | start =>
    refine ⟨fun name hname => ?_, fun hopen => by cases hopen⟩
    cases hname
  | @reopen since isOpen s config order _ _ ih =>
    have h := @KVStore.inService_new _ _ lib _ hids config order s ih.1
    rcases hrun : KVStore.new lib env config order s with ⟨e | _, s'⟩
    · rw [hrun] at h
      exact ⟨h, fun hopen => by cases hopen⟩
    · rw [hrun] at h
      exact ⟨h.named, fun _ => h⟩
  | @call since s x _ hx _ ih =>
    have hs' : (x.run lib env s).2.InService env := KVStore.inService_writes hids hx s (ih.2 rfl)
    exact ⟨hs'.named, fun _ => hs'⟩

/-! ## Failures -/

namespace KVStore

variable {s s' : KVStore Key} {readOrder : SegmentOrder} {writeOrder : ChangeOrder Key}

/-- What a merge does with the segments it has read. -/
def rewrite (lib : KeyLib Key) (env : Env) (writeOrder : ChangeOrder Key)
    (read : List (ℕ × List (MappedStoredEntry Key))) : Op Error (KVStore Key) Unit :=
  writeBack lib env (read.map Prod.fst)
    (changesIn writeOrder (MergedState.ofSegments (read.map Prod.snd)))

/-- **A merge is completed**: it reads two segments or more, and what it keeps is written back. -/
def Merges (lib : KeyLib Key) (env : Env) (readOrder : SegmentOrder) (writeOrder : ChangeOrder Key)
    (s : KVStore Key) : Prop :=
  ∃ read, segmentsToMerge lib readOrder s = .ok read ∧ 2 ≤ read.length
    ∧ (rewrite lib env writeOrder read s).1 = .ok ()

/-- **A merge that is not completed is not seen.** -/
theorem unseen_beginMerge (hids : Function.Injective env.monotonicNow) (h : s.InService env)
    (hno : ¬s.Merges lib env readOrder writeOrder) :
    Unseen env s (beginMerge lib env readOrder writeOrder s).2 := by
  rcases hread : segmentsToMerge lib readOrder s with e | read
  · rw [beginMerge, Op.ask_bind_of_error hread]
    exact h.unseen
  · by_cases hlen : 2 ≤ read.length
    · have hrewrite : Op.Meets (Unseen env s) (rewrite lib env writeOrder read)
          (fun _ => InService env) (Unseen env s) := unseen_writeBack hids _ _
      have hback := hrewrite s h.unseen
      rw [beginMerge, Op.ask_bind_of_ok hread, if_pos hlen, ← rewrite, Op.attempt]
      rcases hrun : rewrite lib env writeOrder read s with ⟨(_ | _) | _, s'⟩
      · rw [hrun] at hback
        exact hback
      · rw [hrun] at hback
        exact hback
      · exact absurd ⟨read, hread, hlen, congrArg Prod.fst hrun⟩ hno
    · rw [beginMerge_of_lt hread (Nat.lt_of_not_le hlen)]
      exact h.unseen

theorem unseen_mergeIfDue (hids : Function.Injective env.monotonicNow) (h : s.InService env)
    (hno : ¬(s.Due ∧ s.Merges lib env readOrder writeOrder)) :
    Unseen env s (mergeIfDue lib env readOrder writeOrder s).2 := by
  by_cases hdue : s.Due
  · have hmerge := unseen_beginMerge hids h fun hm => hno ⟨hdue, hm⟩
    rw [mergeIfDue_of_due hdue]
    refine Op.snd_bind (fun e s' hrun => ?_) fun _ s' hrun => ?_
    · rwa [hrun] at hmerge
    · rw [hrun] at hmerge
      exact ⟨hmerge.directory, hmerge.serving⟩
  · rw [mergeIfDue_of_not_due hdue]
    exact h.unseen

end KVStore

namespace Step

/-- The merge an update starts with is completed. -/
def CompletesMerge (lib : KeyLib Key) (env : Env) (s : KVStore Key) : Step Key → Prop
  | update readOrder writeOrder _ _ => s.Due ∧ s.Merges lib env readOrder writeOrder
  | _ => False

end Step

/-- **A failure**: an update or a delete that does not return, with no merge completed on the way; or a
merge that cannot be written back. -/
inductive Fails (lib : KeyLib Key) (env : Env) (s : KVStore Key) : KVStore Key → Prop
  | call {x : Step Key} {e : Fault Error} {s' : KVStore Key} : x.Writes →
    ¬x.CompletesMerge lib env s → x.run lib env s = (.error e, s') → Fails lib env s s'
  | merge {readOrder : SegmentOrder} {writeOrder : ChangeOrder Key}
    {read : List (ℕ × List (MappedStoredEntry Key))} {e : Fault Error} :
    KVStore.segmentsToMerge lib readOrder s = .ok read → 2 ≤ read.length →
    (KVStore.rewrite lib env writeOrder read s).1 = .error e →
      Fails lib env s (KVStore.beginMerge lib env readOrder writeOrder s).2

/-- **A failure is not seen.** -/
theorem Fails.unseen (hids : Function.Injective env.monotonicNow) {s s' : KVStore Key}
    (hs : s.InService env) (h : Fails lib env s s') : s.Unseen env s' := by
  -- An append that fails is not seen from where the merge before it has left the store.
  have happend : ∀ {s₁ : KVStore Key} {entry : Entry Key} {e : Fault Error}
      {f : AppendEntryResponse → KVStore Key → KVStore Key}, s.Unseen env s₁ →
      (KVStore.onSegments (appendEntry lib env entry) >>= fun r => Op.update (f r)) s₁
        = (.error e, s') → s.Unseen env s' := by
    intro s₁ entry e f h₁ hrun
    have hmeets := @KVStore.unseen_append _ _ lib _ s hids entry s₁ h₁
    rcases Op.bind_eq_error.mp hrun with herr | ⟨r, s₂, -, hup⟩
    · rwa [herr] at hmeets
    · cases hup
  cases h with
  | @call x e _ hx hno hrun =>
    rcases x with ⟨readOrder, writeOrder, key, value⟩ | key | ⟨config, order⟩
    · have hmerge := KVStore.unseen_mergeIfDue hids hs hno
      rcases Op.bind_eq_error.mp hrun with herr | ⟨_, s₁, hok, hrest⟩
      · rwa [herr] at hmerge
      · rw [hok] at hmerge
        exact happend hmerge hrest
    · exact happend hs.unseen hrun
    · exact hx.elim
  | merge hread hlen herr =>
    refine KVStore.unseen_beginMerge hids hs ?_
    rintro ⟨read', hread', -, hok⟩
    cases hread.symm.trans hread'
    cases herr.symm.trans hok

/-! ## Afterwards -/

namespace KVStore

variable {s s' : KVStore Key} {readOrder : SegmentOrder} {writeOrder : ChangeOrder Key} {key : Key}

/-- **An update that returns is read back…** -/
theorem get_of_update (hids : Function.Injective env.monotonicNow) (h : s.InService env)
    {value : List UInt8} (hlt : 12 + (lib.serialize key).length + (value.length + 1) < 2 ^ 32)
    (hrun : update lib env readOrder writeOrder key value s = (.ok (), s')) :
    s'.get key = .ok value := by
  obtain ⟨_, s₁, hmerge, hrun⟩ := Op.bind_eq_ok.mp hrun
  obtain ⟨r, s₂, happend, hrun⟩ := Op.bind_eq_ok.mp hrun
  obtain rfl := Op.update_eq_ok.mp hrun
  have h₁ := (inService_mergeIfDue hids readOrder writeOrder).of_eq h hmerge
  obtain ⟨-, hr⟩ := (unseen_append hids (Entry.new key value)).of_ok h₁.unseen happend
  obtain ⟨now, hlen, hwindow⟩ := hr.bytes
  have hshort : (lib.bytes ((Entry.new key value).stamped now)).length < 2 ^ 32 := by
    rw [lib.length_bytes]
    exact hlt
  have hwhole : s₂.segments.window r = some (lib.bytes ((Entry.new key value).stamped now)) := by
    rw [hwindow, hlen, KeyLib.encode, toNat_ofNat_of_lt hshort, List.take_length]
  rw [get_of_some (r := r) (AList.lookup_insert _), read_eq_window, hwhole]
  rw [Outcome.okOr, Outcome.ok_bind, lib.decode_bytes hshort]
  rfl

/-- **…and a key that was deleted is gone.** -/
theorem get_of_delete (hrun : delete lib env key s = (.ok (), s')) :
    s'.get key = Outcome.err .entryNotFound := by
  obtain ⟨r, s₂, -, hrun⟩ := Op.bind_eq_ok.mp hrun
  obtain rfl := Op.update_eq_ok.mp hrun
  exact get_of_none (AList.lookup_erase _ _)

/-- Another key reads as it did after the merge… -/
theorem get_of_update_ne (hids : Function.Injective env.monotonicNow) (h : s.InService env)
    {s₁ : KVStore Key} (hmerge : mergeIfDue lib env readOrder writeOrder s = (.ok (), s₁))
    {value : List UInt8} (hrun : update lib env readOrder writeOrder key value s = (.ok (), s'))
    {key' : Key} (hne : key' ≠ key) : s'.get key' = s₁.get key' := by
  obtain ⟨_, s₂, hmerge', hrun⟩ := Op.bind_eq_ok.mp hrun
  obtain rfl := congrArg Prod.snd (hmerge.symm.trans hmerge')
  obtain ⟨r, s₂, happend, hrun⟩ := Op.bind_eq_ok.mp hrun
  obtain rfl := Op.update_eq_ok.mp hrun
  have h₁ := (inService_mergeIfDue hids readOrder writeOrder).of_eq h hmerge
  obtain ⟨hunseen, -⟩ := (unseen_append hids (Entry.new key value)).of_ok h₁.unseen happend
  rw [← hunseen.get key']
  exact get_eq_of_window (AList.lookup_insert_ne hne) fun _ => rfl

/-- …and beside a deletion as before. -/
theorem get_of_delete_ne (hids : Function.Injective env.monotonicNow) (h : s.InService env)
    (hrun : delete lib env key s = (.ok (), s')) {key' : Key} (hne : key' ≠ key) :
    s'.get key' = s.get key' := by
  obtain ⟨r, s₂, happend, hrun⟩ := Op.bind_eq_ok.mp hrun
  obtain rfl := Op.update_eq_ok.mp hrun
  obtain ⟨hunseen, -⟩ := (unseen_append hids (Entry.newDeletedEntry key)).of_ok h.unseen happend
  rw [← hunseen.get key']
  exact get_eq_of_window (AList.lookup_erase_ne hne) fun _ => rfl

end KVStore

/-! ## A store that was reached -/

namespace Run

variable {allowed : KVStore Key → Step Key → Prop} {m : Key → Option (List UInt8)} {s : KVStore Key}

theorem inService (hids : Function.Injective env.monotonicNow) (h : Run lib env allowed m s) :
    s.InService env := by
  have hnew := @KVStore.inService_new _ _ lib _ hids
  induction h with
  | start hrun => exact (hnew _ _).of_ok (fun name hname => by cases hname) hrun
  | @step m s s' x _ _ hrun ih =>
    rcases x with ⟨readOrder, writeOrder, key, value⟩ | key | ⟨config, order⟩
    · exact (KVStore.inService_writes (x := .update readOrder writeOrder key value) hids trivial).of_eq
        ih hrun
    · exact (KVStore.inService_writes (x := .delete key) hids trivial).of_eq ih hrun
    · exact (hnew config order).of_ok ih.named hrun

/-- **A plain step after any sessions** returns, and does to what is read what it does to the map. -/
theorem get_of_plain (henv : env.Behaves) (h : Run lib env allowed m s) {x : Step Key}
    (hx : x.Plain lib s) (hfit : s.segments.Fits) :
    ∃ s', x.run lib env s = (.ok (), s')
      ∧ ∀ key, (s'.get key).toOption = x.expect (fun key => (s.get key).toOption) key := by
  obtain ⟨log, htidy⟩ := h.tidy henv
  have hserves := h.inService henv.distinct
  rcases x with ⟨readOrder, writeOrder, key, value⟩ | key | ⟨config, order⟩
  · obtain ⟨hlt, hfew⟩ := hx
    rcases @KVStore.mergeIfDue_of_few _ lib env _ s readOrder writeOrder hfew with
      ⟨n, hmerge⟩ | ⟨e, hread, -⟩
    · obtain ⟨segments, r, log', ts, hrun, -⟩ :=
        KVStore.put_ok henv hmerge htidy.holds key value
      refine ⟨_, hrun, fun key' => ?_⟩
      rw [Step.expect, Function.update_apply]
      split_ifs with hkey
      · rw [hkey, KVStore.get_of_update henv.distinct hserves hlt hrun]
        rfl
      · rw [KVStore.get_of_update_ne henv.distinct hserves hmerge hrun hkey]
        rfl
    · cases hread.symm.trans (KVStore.segmentsToMerge_of_fits htidy.holds hfit readOrder)
  · obtain ⟨segments, log', hrun, -⟩ := KVStore.delete_ok henv htidy.holds key
    refine ⟨_, hrun, fun key' => ?_⟩
    rw [Step.expect, Function.update_apply]
    split_ifs with hkey
    · rw [hkey, KVStore.get_of_delete hrun]
      rfl
    · rw [KVStore.get_of_delete_ne henv.distinct hserves hrun hkey]
  · exact hx.elim

end Run

/-- One store is left by a call of the session on the other, however the call ended. -/
def Called (lib : KeyLib Key) (env : Env) (s s' : KVStore Key) : Prop :=
  ∃ x : Step Key, x.Writes ∧ (x.run lib env s).2 = s'

theorem KVStore.InService.called (hids : Function.Injective env.monotonicNow) {s s' : KVStore Key}
    (h : s.InService env) (hcalls : Relation.ReflTransGen (Called lib env) s s') :
    s'.InService env := by
  induction hcalls with
  | refl => exact h
  | tail _ hcall ih =>
    obtain ⟨x, hx, rfl⟩ := hcall
    exact KVStore.inService_writes hids hx _ ih

/-- **Failures are not seen**: in an open session, after any calls and failures, a failed update or delete
without a completed merge and a merge that cannot be written back change no `get`; and whatever is called
from there, an update that returns is read back and a key that was deleted is gone. -/
theorem failures_unseen (hids : Function.Injective env.monotonicNow) {since : ℕ} {s s' : KVStore Key}
    (h : History lib env (fun _ _ _ => True) since true s) (hfail : Fails lib env s s') :
    (∀ key, s'.get key = s.get key)
      ∧ ∀ t, Relation.ReflTransGen (Called lib env) s' t →
        (∀ readOrder writeOrder key value t',
          12 + (lib.serialize key).length + (value.length + 1) < 2 ^ 32 →
          KVStore.update lib env readOrder writeOrder key value t = (.ok (), t') →
            t'.get key = .ok value)
        ∧ ∀ key t', KVStore.delete lib env key t = (.ok (), t') →
          t'.get key = Outcome.err .entryNotFound := by
  have hunseen := hfail.unseen hids ((h.inService hids).2 rfl)
  refine ⟨hunseen.get, fun t ht => ⟨fun _ _ _ _ _ hlt hrun => ?_, fun _ _ hrun => ?_⟩⟩
  · exact KVStore.get_of_update hids (hunseen.inService.called hids ht) hlt hrun
  · exact KVStore.get_of_delete hrun

/-! ## A write that stops half way -/

/-- The eighth call fails; if it is a write, after three bytes. -/
def failingOnce : Env := ⟨fun _ => 1000, id, fun i => if i = 7 then some 3 else none⟩

/-- A session that has written one key… -/
def beforeFailure : KVStore (List UInt8) :=
  (KVStore.update byteKeys failingOnce .asKept .asKept [7] [1]
    (KVStore.new byteKeys failingOnce smallSegments .asKept (.closed .empty)).2).2

/-- …and fails to write it again, after a rollover… -/
def afterFailure : KVStore (List UInt8) :=
  (KVStore.update byteKeys failingOnce .asKept .asKept [7] [2] beforeFailure).2

/-- …and then does. -/
def rewritten : KVStore (List UInt8) :=
  (KVStore.update byteKeys failingOnce .asKept .asKept [7] [3] afterFailure).2

/-- The statement across that failure: three bytes are in the new file, and nobody sees them. -/
theorem failures_unseen_halfWritten :
    afterFailure.segments.world.disk.file (segmentName 5)
        = some ((byteKeys.bytes ⟨[7], [2], 0, 1000⟩).take 3)
      ∧ afterFailure.get [7] = .ok [1] ∧ rewritten.get [7] = .ok [3] := by
  have hopened : History byteKeys failingOnce (fun _ _ _ => True) 0 true beforeFailure :=
    .call (x := .update .asKept .asKept [7] [1])
      (History.opened smallSegments .asKept .start (Prod.ext rfl rfl) trivial) trivial trivial
  have hfails : Fails byteKeys failingOnce beforeFailure afterFailure :=
    .call (x := .update .asKept .asKept [7] [2]) (e := .error .openFileError) trivial
      (fun hmerge => absurd hmerge.1 (by decide)) (Prod.ext rfl rfl)
  obtain ⟨hsame, hafter⟩ := failures_unseen Function.injective_id hopened hfails
  refine ⟨by decide +kernel, (hsame [7]).trans (by decide +kernel), ?_⟩
  exact (hafter afterFailure .refl).1 .asKept .asKept [7] [3] rewritten (by decide) (Prod.ext rfl rfl)

end Bitspend.Kv
