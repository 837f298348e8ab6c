import Bitspend.Kv.KVStore

/-!
# Kv/Survivor — what a merge keeps of one key

`MergedState` holds two maps, but what becomes of a key depends only on the records of that key, in the
order they are read.  `survivor` walks these alone: of the first segment it takes the last value and the
last tombstone; after that a record has to be strictly newer than the value that is held, and where none
is held, than the tombstone that was put aside, which is then forgotten; with nothing held and nothing
aside any record is taken, a tombstone too.  `lookup_ofSegments` says that this is what the merge keeps.
-/

namespace Bitspend.Kv

variable {Key : Type}

/-- What a merge remembers of one key: the record it holds, and the tombstone it has put aside. -/
structure Memory (Key : Type) where
  held : Option (MappedStoredEntry Key)
  aside : Option (MappedStoredEntry Key)

namespace Memory

/-- A record of the first segment. -/
def take (memory : Memory Key) (entry : MappedStoredEntry Key) : Memory Key :=
  if entry.deleted then { memory with aside := some entry } else { memory with held := some entry }

/-- A record of a later one. -/
def weigh (memory : Memory Key) (entry : MappedStoredEntry Key) : Memory Key :=
  match memory.held, memory.aside with
  | some x, _ =>
    if x.timestamp < entry.timestamp then
      { memory with held := if entry.deleted then none else some entry }
    else memory
  | none, some x =>
    ⟨if x.timestamp < entry.timestamp ∧ entry.deleted = false then some entry else none, none⟩
  | none, none => ⟨some entry, none⟩

end Memory

variable [DecidableEq Key]

/-- The records of a key. -/
def ofKey (key : Key) (entries : List (MappedStoredEntry Key)) : List (MappedStoredEntry Key) :=
  entries.filter fun entry => entry.key = key

/-- **The record of a key that survives the merge** of segments, in the order they are read. -/
def survivor (key : Key) : List (List (MappedStoredEntry Key)) → Option (MappedStoredEntry Key)
  | [] => none
  | first :: others =>
    ((ofKey key others.flatten).foldl Memory.weigh
      ((ofKey key first).foldl Memory.take ⟨none, none⟩)).held

namespace MergedState

/-- What the state holds of a key. -/
def view (state : MergedState Key) (key : Key) : Memory Key :=
  ⟨state.valueByKey.lookup key, state.deletedKeys.lookup key⟩

/-- The records in the two maps are under their own keys. -/
structure Keyed (state : MergedState Key) : Prop where
  value : ∀ {key entry}, state.valueByKey.lookup key = some entry → entry.key = key
  deleted : ∀ {key entry}, state.deletedKeys.lookup key = some entry → entry.key = key

variable {state : MergedState Key} {key : Key} {entry : MappedStoredEntry Key}

theorem lookup_insert_key {m : HashMap Key (MappedStoredEntry Key)} {key key' : Key}
    {entry entry' : MappedStoredEntry Key} (hentry : entry.key = key)
    (h : (m.insert key entry).lookup key' = some entry')
    (hm : ∀ {key entry}, m.lookup key = some entry → entry.key = key) : entry'.key = key' := by
  by_cases hkey : key' = key
  · subst hkey
    rw [AList.lookup_insert, Option.some.injEq] at h
    rw [← h, hentry]
  · rw [AList.lookup_insert_ne hkey] at h
    exact hm h

theorem lookup_erase_key {m : HashMap Key (MappedStoredEntry Key)} {key key' : Key}
    {entry' : MappedStoredEntry Key} (h : (m.erase key).lookup key' = some entry')
    (hm : ∀ {key entry}, m.lookup key = some entry → entry.key = key) : entry'.key = key' := by
  by_cases hkey : key' = key
  · subst hkey
    rw [AList.lookup_erase] at h
    cases h
  · rw [AList.lookup_erase_ne hkey] at h
    exact hm h

theorem Keyed.takeOne (h : state.Keyed) (entry : MappedStoredEntry Key) :
    (state.takeOne entry).Keyed := by
  rw [MergedState.takeOne]
  split
  · exact ⟨h.value, fun hl => lookup_insert_key rfl hl h.deleted⟩
  · exact ⟨fun hl => lookup_insert_key rfl hl h.value, h.deleted⟩

theorem Keyed.maybeUpdate (h : state.Keyed) {existing : MappedStoredEntry Key}
    (hkey : entry.key = existing.key) : (state.maybeUpdate existing entry).Keyed := by
  rw [MergedState.maybeUpdate]
  split_ifs
  · exact ⟨fun hl => lookup_erase_key hl h.value, h.deleted⟩
  · exact ⟨fun hl => lookup_insert_key hkey hl h.value, h.deleted⟩
  · exact h

theorem Keyed.mergeOne (h : state.Keyed) (entry : MappedStoredEntry Key) :
    (state.mergeOne entry).Keyed := by
  rw [MergedState.mergeOne]
  rcases hv : state.valueByKey.lookup entry.key with _ | existing
  · rcases hd : state.deletedKeys.lookup entry.key with _ | existing
    · exact ⟨fun hl => lookup_insert_key rfl hl h.value, h.deleted⟩
    · have h' : Keyed { state with deletedKeys := state.deletedKeys.erase entry.key } :=
        ⟨h.value, fun hl => lookup_erase_key hl h.deleted⟩
      exact h'.maybeUpdate (h.deleted hd).symm
  · exact h.maybeUpdate (h.value hv).symm

/-! ## One record, seen from one key -/

theorem view_takeOne (state : MergedState Key) (entry : MappedStoredEntry Key) (key : Key) :
    (state.takeOne entry).view key
      = if entry.key = key then (state.view key).take entry else state.view key := by
  rw [MergedState.takeOne]
  by_cases hkey : entry.key = key
  · subst hkey
    rw [if_pos rfl, Memory.take]
    split
    · exact congrArg (Memory.mk _) (AList.lookup_insert _)
    · exact congrArg (fun x => Memory.mk x _) (AList.lookup_insert _)
  · rw [if_neg hkey]
    split
    · exact congrArg (Memory.mk _) (AList.lookup_insert_ne (Ne.symm hkey))
    · exact congrArg (fun x => Memory.mk x _) (AList.lookup_insert_ne (Ne.symm hkey))

theorem view_maybeUpdate (state : MergedState Key) (existing entry : MappedStoredEntry Key)
    (key : Key) :
    (state.maybeUpdate existing entry).view key
      = if existing.key = key ∧ existing.timestamp < entry.timestamp then
          { state.view key with held := if entry.deleted then none else some entry }
        else state.view key := by
  by_cases hts : existing.timestamp < entry.timestamp
  · by_cases hkey : existing.key = key
    · subst hkey
      by_cases hdel : entry.deleted
      · simp [maybeUpdate, view, hts, hdel]
      · simp [maybeUpdate, view, hts, hdel]
    · have hkey' : key ≠ existing.key := Ne.symm hkey
      by_cases hdel : entry.deleted
      · simp [maybeUpdate, view, hts, hdel, hkey, hkey']
      · simp [maybeUpdate, view, hts, hdel, hkey, hkey']
  · simp [maybeUpdate, hts]

/-- **A later record changes what is held of its own key only, and as `Memory.weigh` says.** -/
theorem view_mergeOne (h : state.Keyed) (entry : MappedStoredEntry Key) (key : Key) :
    (state.mergeOne entry).view key
      = if entry.key = key then (state.view key).weigh entry else state.view key := by
  rw [MergedState.mergeOne]
  rcases hv : state.valueByKey.lookup entry.key with _ | existing
  · rcases hd : state.deletedKeys.lookup entry.key with _ | existing
    · by_cases hkey : entry.key = key
      · subst hkey
        simp [view, Memory.weigh, hv, hd]
      · have hkey' : key ≠ entry.key := Ne.symm hkey
        simp [view, hkey, hkey']
    · have hex := h.deleted hd
      by_cases hkey : entry.key = key
      · subst hkey
        rw [view_maybeUpdate, if_pos rfl]
        by_cases hts : existing.timestamp < entry.timestamp
        · by_cases hdel : entry.deleted
          · simp [view, Memory.weigh, hv, hd, hex, hts, hdel]
          · simp [view, Memory.weigh, hv, hd, hex, hts, hdel]
        · simp [view, Memory.weigh, hv, hd, hts]
      · have hkey' : key ≠ entry.key := Ne.symm hkey
        rw [view_maybeUpdate, if_neg hkey, hex]
        simp [view, hkey, hkey']
  · have hex := h.value hv
    rw [view_maybeUpdate, hex]
    by_cases hkey : entry.key = key
    · subst hkey
      by_cases hts : existing.timestamp < entry.timestamp
      · simp [view, Memory.weigh, hv, hts]
      · simp [view, Memory.weigh, hv, hts]
    · simp [hkey]

/-! ## Whole segments -/

theorem view_takeAll (state : MergedState Key) (entries : List (MappedStoredEntry Key))
    (key : Key) :
    (state.takeAll entries).view key = (ofKey key entries).foldl Memory.take (state.view key) := by
  induction entries generalizing state with
  | nil => rfl
  | cons entry entries ih =>
    change ((state.takeOne entry).takeAll entries).view key = _
    rw [ih, view_takeOne, ofKey, ofKey, List.filter_cons]
    by_cases hkey : entry.key = key
    · simp [hkey]
    · simp [hkey]

theorem Keyed.takeAll (h : state.Keyed) (entries : List (MappedStoredEntry Key)) :
    (state.takeAll entries).Keyed := by
  induction entries generalizing state with
  | nil => exact h
  | cons entry entries ih => exact ih (h.takeOne entry)

theorem view_foldl_mergeOne (h : state.Keyed) (entries : List (MappedStoredEntry Key)) (key : Key) :
    (entries.foldl mergeOne state).view key
      = (ofKey key entries).foldl Memory.weigh (state.view key) := by
  induction entries generalizing state with
  | nil => rfl
  | cons entry entries ih =>
    rw [List.foldl_cons, ih (h.mergeOne entry), view_mergeOne h, ofKey, ofKey, List.filter_cons]
    by_cases hkey : entry.key = key
    · simp [hkey]
    · simp [hkey]

theorem keyed_new : (new : MergedState Key).Keyed :=
  ⟨fun h => by simp [new] at h, fun h => by simp [new] at h⟩

/-- **The merge keeps the survivor of every key.** -/
theorem lookup_ofSegments (segments : List (List (MappedStoredEntry Key))) (key : Key) :
    (ofSegments segments).valueByKey.lookup key = survivor key segments := by
  rcases segments with _ | ⟨first, others⟩
  · rfl
  · have hfold : ofSegments (first :: others)
        = others.flatten.foldl mergeOne (new.takeAll first) := by
      rw [ofSegments, List.foldl_flatten]
      rfl
    have hview := view_foldl_mergeOne (keyed_new.takeAll first) others.flatten key
    rw [view_takeAll, ← hfold] at hview
    exact congrArg Memory.held hview

theorem mem_changesIn {order : ChangeOrder Key} {state : MergedState Key} {key : Key}
    {entry : MappedStoredEntry Key} :
    (key, entry) ∈ KVStore.changesIn order state ↔ state.valueByKey.lookup key = some entry := by
  rw [KVStore.changesIn, List.mem_map]
  constructor
  · rintro ⟨x, hx, hpair⟩
    obtain ⟨rfl, rfl⟩ := Prod.mk.inj hpair
    exact AList.mem_lookup_iff.mpr (order.mem_iter.mp hx)
  · intro h
    exact ⟨⟨key, entry⟩, order.mem_iter.mpr (AList.mem_lookup_iff.mp h), rfl⟩

end MergedState

/-! ## Where a survivor comes from -/

/-- What is remembered all satisfies `P`. -/
def Memory.All (P : MappedStoredEntry Key → Prop) (memory : Memory Key) : Prop :=
  (∀ entry ∈ memory.held, P entry) ∧ ∀ entry ∈ memory.aside, P entry

omit [DecidableEq Key] in
theorem Memory.All.take {P : MappedStoredEntry Key → Prop} {memory : Memory Key}
    (h : memory.All P) {entry : MappedStoredEntry Key} (hentry : P entry) :
    (memory.take entry).All P := by
  have hnew : ∀ e ∈ some entry, P e := by
    rintro e ⟨⟩
    exact hentry
  rw [Memory.take]
  split
  · exact ⟨h.1, hnew⟩
  · exact ⟨hnew, h.2⟩

omit [DecidableEq Key] in
theorem Memory.All.weigh {P : MappedStoredEntry Key → Prop} {memory : Memory Key}
    (h : memory.All P) {entry : MappedStoredEntry Key} (hentry : P entry) :
    (memory.weigh entry).All P := by
  have hnew : ∀ e ∈ some entry, P e := by
    rintro e ⟨⟩
    exact hentry
  have hnone : ∀ e ∈ (none : Option (MappedStoredEntry Key)), P e := by
    rintro e ⟨⟩
  rw [Memory.weigh]
  split
  · split_ifs
    · exact ⟨hnone, h.2⟩
    · exact ⟨hnew, h.2⟩
    · exact h
  · split_ifs
    · exact ⟨hnew, hnone⟩
    · exact ⟨hnone, hnone⟩
  · exact ⟨hnew, hnone⟩

omit [DecidableEq Key] in
/-- A loop over records that satisfy `P` remembers none that does not. -/
theorem Memory.All.foldl {P : MappedStoredEntry Key → Prop} {f : Memory Key →
      MappedStoredEntry Key → Memory Key}
    (hf : ∀ memory entry, memory.All P → P entry → (f memory entry).All P)
    {entries : List (MappedStoredEntry Key)} {memory : Memory Key} (h : memory.All P)
    (hentries : ∀ entry ∈ entries, P entry) : (entries.foldl f memory).All P := by
  induction entries generalizing memory with
  | nil => exact h
  | cons entry entries ih =>
    exact ih (hf memory entry h (hentries entry List.mem_cons_self))
      fun e he => hentries e (List.mem_cons_of_mem _ he)

/-- **A survivor is one of the records that were read**, and one of its key. -/
theorem mem_of_survivor {key : Key} {segments : List (List (MappedStoredEntry Key))}
    {entry : MappedStoredEntry Key} (h : survivor key segments = some entry) :
    (∃ entries ∈ segments, entry ∈ entries) ∧ entry.key = key := by
  rcases segments with _ | ⟨first, others⟩
  · cases h
  · have hfirst : ∀ e ∈ ofKey key first,
        (∃ entries ∈ first :: others, e ∈ entries) ∧ e.key = key := by
      intro e he
      obtain ⟨hmem, hkey⟩ := List.mem_filter.mp he
      exact ⟨⟨first, List.mem_cons_self, hmem⟩, of_decide_eq_true hkey⟩
    have hothers : ∀ e ∈ ofKey key others.flatten,
        (∃ entries ∈ first :: others, e ∈ entries) ∧ e.key = key := by
      intro e he
      obtain ⟨hmem, hkey⟩ := List.mem_filter.mp he
      obtain ⟨entries, hentries, hin⟩ := List.mem_flatten.mp hmem
      exact ⟨⟨entries, List.mem_cons_of_mem _ hentries, hin⟩, of_decide_eq_true hkey⟩
    have hstart : (⟨none, none⟩ : Memory Key).All
        fun e => (∃ entries ∈ first :: others, e ∈ entries) ∧ e.key = key :=
      ⟨(by rintro _ ⟨⟩), (by rintro _ ⟨⟩)⟩
    have hall := (hstart.foldl (fun _ _ hm he => hm.take he) hfirst).foldl
      (fun _ _ hm he => hm.weigh he) hothers
    exact hall.1 entry h

end Bitspend.Kv
