import Bitspend.Kv.Survivor
import Mathlib.Data.Set.Finite.Lemmas
import Mathlib.Data.Set.Finite.List

/-!
# Kv/LastWriter — when a merge keeps the last write

`MergedState` is meant to keep, of every key, the record with the greatest timestamp unless that is a
tombstone.  A live record that is the latest of its key is always kept.  A tombstone that is the
latest does not always prevail: the first segment keeps a value beside its own tombstone, a tombstone
forgotten once makes room for any older record, and a tombstone that meets nothing is itself kept as a
value.  `lastWriterWins_iff` says exactly when the records of such a key are used up.
-/

namespace Bitspend.Kv

variable {Key : Type}

/-! ## The intended result -/

/-- **The latest record of a key** in some segments. -/
structure IsLatest (key : Key) (segments : List (List (MappedStoredEntry Key)))
    (entry : MappedStoredEntry Key) : Prop where
  mem : entry ∈ segments.flatten
  key_eq : entry.key = key
  latest : ∀ e ∈ segments.flatten, e.key = key → e.timestamp ≤ entry.timestamp

/-- **Last writer wins**: a state holds, of every key, its latest record if that is not a tombstone,
and nothing else. -/
def LastWriterWins [DecidableEq Key] (segments : List (List (MappedStoredEntry Key)))
    (state : MergedState Key) : Prop :=
  ∀ key entry, state.valueByKey.lookup key = some entry
    ↔ IsLatest key segments entry ∧ entry.deleted = false

/-- Segments whose records carry usable times: each segment is written in the order of time, and no two
records of one key are of the same time. -/
structure Timed (segments : List (List (MappedStoredEntry Key))) : Prop where
  sorted : ∀ entries ∈ segments, entries.Pairwise fun a b => a.timestamp ≤ b.timestamp
  distinct : segments.flatten.Pairwise fun a b => a.key = b.key → a.timestamp ≠ b.timestamp

/-! ## Records that are used up

Seen from one key, a merge holds a record or none; `aside` is the tombstone of the first segment. -/

/-- A tombstone that ends the holding of `x`: newer than `x` and than every live record since. -/
def Unseats (x : MappedStoredEntry Key) (since : List (MappedStoredEntry Key))
    (t : MappedStoredEntry Key) : Prop :=
  t.deleted = true ∧ x.timestamp < t.timestamp
    ∧ ∀ e ∈ since, e.deleted = false → e.timestamp < t.timestamp

/-- …and is the first that does. -/
def FirstUnseats (x : MappedStoredEntry Key) (since : List (MappedStoredEntry Key))
    (t : MappedStoredEntry Key) : Prop :=
  Unseats x since t ∧ ∀ pre t' post, since = pre ++ t' :: post → ¬Unseats x pre t'

/-- **Records that are used up**, from where nothing is held.  With no tombstone aside, they come in
groups of a first record, whatever it is, up to the tombstone that unseats it; a tombstone aside
swallows one record before that, or is itself overtaken by a live one. -/
inductive UsedUp :
    Option (MappedStoredEntry Key) → List (MappedStoredEntry Key) → Prop
  | nil (aside) : UsedUp aside []
  | swallow {y e rest} (h : ¬(y.timestamp < e.timestamp ∧ e.deleted = false))
      (hrest : UsedUp none rest) : UsedUp (some y) (e :: rest)
  | overtake {y e since t rest} (hnew : y.timestamp < e.timestamp) (hlive : e.deleted = false)
      (h : FirstUnseats e since t) (hrest : UsedUp none rest) :
      UsedUp (some y) (e :: (since ++ t :: rest))
  | group {x since t rest} (h : FirstUnseats x since t) (hrest : UsedUp none rest) :
      UsedUp none (x :: (since ++ t :: rest))

/-- **The records of a key are used up by a merge** that reads `first` before `others`. -/
def UsedUpAfter (first others : List (MappedStoredEntry Key)) : Prop :=
  match (first.filter fun e => !e.deleted).getLast? with
  | none => UsedUp (first.filter fun e => e.deleted).getLast? others
  | some x => ∃ since t rest, others = since ++ t :: rest ∧ FirstUnseats x since t
    ∧ UsedUp (first.filter fun e => e.deleted).getLast? rest

/-! ## What is held in the end -/

section Held

variable {aside : Option (MappedStoredEntry Key)} {x e : MappedStoredEntry Key}
  {entries since rest : List (MappedStoredEntry Key)}

theorem weigh_of_held (aside : Option (MappedStoredEntry Key)) (x e : MappedStoredEntry Key) :
    (⟨some x, aside⟩ : Memory Key).weigh e
      = if x.timestamp < e.timestamp then ⟨if e.deleted then none else some e, aside⟩
        else ⟨some x, aside⟩ := rfl

theorem weigh_of_aside (y e : MappedStoredEntry Key) :
    (⟨none, some y⟩ : Memory Key).weigh e
      = ⟨if y.timestamp < e.timestamp ∧ e.deleted = false then some e else none, none⟩ := rfl

/-- A record that a held one ignores changes nothing about what unseats it… -/
theorem unseats_cons_of_le (h : ¬x.timestamp < e.timestamp) {t : MappedStoredEntry Key} :
    Unseats x (e :: since) t ↔ Unseats x since t := by
  refine and_congr_right fun _ => and_congr_right fun hlt => ?_
  rw [List.forall_mem_cons]
  refine and_iff_right fun _ => ?_
  exact UInt32.lt_of_le_of_lt (UInt32.not_lt.mp h) hlt

/-- …and one that replaces it stands for both. -/
theorem unseats_cons_of_lt (h : x.timestamp < e.timestamp) (hlive : e.deleted = false)
    {t : MappedStoredEntry Key} : Unseats x (e :: since) t ↔ Unseats e since t := by
  unfold Unseats
  rw [List.forall_mem_cons]
  constructor
  · rintro ⟨hdel, -, het, hall⟩
    exact ⟨hdel, het hlive, hall⟩
  · rintro ⟨hdel, het, hall⟩
    exact ⟨hdel, UInt32.lt_trans h het, fun _ => het, hall⟩

/-- The same of the first to unseat, where the record itself does not. -/
theorem firstUnseats_cons {z : MappedStoredEntry Key} (hhead : ¬Unseats x [] e)
    (hstep : ∀ since t, Unseats x (e :: since) t ↔ Unseats z since t)
    {t : MappedStoredEntry Key} : FirstUnseats x (e :: since) t ↔ FirstUnseats z since t := by
  refine and_congr (hstep since t) ⟨?_, ?_⟩
  · rintro hno pre t' post rfl hun
    exact hno (e :: pre) t' post rfl ((hstep pre t').mpr hun)
  · rintro hno pre t' post heq hun
    rcases pre with _ | ⟨e', pre⟩
    · obtain ⟨rfl, -⟩ := List.cons.inj heq
      exact hhead hun
    · obtain ⟨rfl, hsince⟩ := List.cons.inj heq
      exact hno pre t' post hsince ((hstep pre t').mp hun)

/-- …and so of where the holding ends. -/
theorem exists_firstUnseats_cons {z : MappedStoredEntry Key} (hhead : ¬Unseats x [] e)
    (hstep : ∀ since t, Unseats x (e :: since) t ↔ Unseats z since t)
    {Q : List (MappedStoredEntry Key) → Prop} :
    (∃ since t rest, entries = since ++ t :: rest ∧ FirstUnseats z since t ∧ Q rest)
      ↔ ∃ since t rest, e :: entries = since ++ t :: rest ∧ FirstUnseats x since t ∧ Q rest := by
  constructor
  · rintro ⟨since, t, rest, rfl, hfirst, hQ⟩
    exact ⟨e :: since, t, rest, rfl, (firstUnseats_cons hhead hstep).mpr hfirst, hQ⟩
  · rintro ⟨since, t, rest, heq, hfirst, hQ⟩
    rcases since with _ | ⟨e', since⟩
    · obtain ⟨rfl, -⟩ := List.cons.inj heq
      exact absurd hfirst.1 hhead
    · obtain ⟨rfl, hentries⟩ := List.cons.inj heq
      exact ⟨since, t, rest, hentries, (firstUnseats_cons hhead hstep).mp hfirst, hQ⟩

/-- **A held record is given up exactly at the first tombstone that unseats it.** -/
theorem held_eq_none_iff (entries : List (MappedStoredEntry Key)) :
    (entries.foldl Memory.weigh ⟨some x, aside⟩).held = none
      ↔ ∃ since t rest, entries = since ++ t :: rest ∧ FirstUnseats x since t
        ∧ (rest.foldl Memory.weigh ⟨none, aside⟩).held = none := by
  induction entries generalizing x with
  | nil =>
    refine iff_of_false (fun h => by cases h) ?_
    rintro ⟨since, t, rest, h, -⟩
    exact List.append_ne_nil_of_right_ne_nil since (List.cons_ne_nil t rest) h.symm
  | cons e entries ih =>
    rw [List.foldl_cons, weigh_of_held]
    by_cases hlt : x.timestamp < e.timestamp
    · rw [if_pos hlt]
      rcases hdel : e.deleted with _ | _
      · -- a newer live record takes the place of `x`
        have hhead : ¬Unseats x [] e := fun hun => by
          rw [hun.1] at hdel
          cases hdel
        rw [if_neg (Bool.false_ne_true), ih]
        exact exists_firstUnseats_cons hhead fun since t => unseats_cons_of_lt hlt hdel
      · -- a newer tombstone is the first to unseat it
        rw [if_pos rfl]
        have hun : Unseats x [] e := ⟨hdel, hlt, fun e' he' => by cases he'⟩
        constructor
        · intro h
          refine ⟨[], e, entries, rfl, ⟨hun, fun pre t' post heq => ?_⟩, h⟩
          exact absurd heq.symm (List.append_ne_nil_of_right_ne_nil pre (List.cons_ne_nil t' post))
        · rintro ⟨since, t, rest, heq, hfirst, h⟩
          rcases since with _ | ⟨e', since⟩
          · obtain ⟨rfl, rfl⟩ := List.cons.inj heq
            exact h
          · obtain ⟨rfl, -⟩ := List.cons.inj heq
            exact absurd hun (hfirst.2 [] e since rfl)
    · rw [if_neg hlt, ih]
      exact exists_firstUnseats_cons (fun hun => hlt hun.2.1) fun since t => unseats_cons_of_le hlt

/-- **Nothing is held in the end exactly when the records are used up.** -/
theorem usedUp_iff (aside : Option (MappedStoredEntry Key))
    (entries : List (MappedStoredEntry Key)) :
    (entries.foldl Memory.weigh ⟨none, aside⟩).held = none ↔ UsedUp aside entries := by
  -- a group is taken off at a time, so the induction is on the number of records
  induction hn : entries.length using Nat.strongRecOn generalizing aside entries with
  | ind n ih =>
  subst hn
  have hgroup : ∀ (e : MappedStoredEntry Key) rest, rest.length < entries.length →
      ((rest.foldl Memory.weigh ⟨some e, none⟩).held = none
        ↔ ∃ since t rest', rest = since ++ t :: rest' ∧ FirstUnseats e since t
          ∧ UsedUp none rest') := by
    intro e rest hlt
    rw [held_eq_none_iff]
    refine exists_congr fun since => exists_congr fun t => exists_congr fun rest' => ?_
    refine and_congr_right fun heq => and_congr_right fun _ => ih _ ?_ none rest' rfl
    have := congrArg List.length heq
    rw [List.length_append, List.length_cons] at this
    omega
  rcases entries with _ | ⟨e, rest⟩
  · exact iff_of_true rfl (.nil aside)
  rw [List.foldl_cons]
  rcases aside with _ | y
  · refine (hgroup e rest (Nat.lt_succ_self _)).trans ⟨?_, ?_⟩
    · rintro ⟨since, t, rest', rfl, hfirst, hrest⟩
      exact .group hfirst hrest
    · intro h
      cases h with
      | group hfirst hrest => exact ⟨_, _, _, rfl, hfirst, hrest⟩
  · rw [weigh_of_aside]
    by_cases hnew : y.timestamp < e.timestamp ∧ e.deleted = false
    · rw [if_pos hnew]
      refine (hgroup e rest (Nat.lt_succ_self _)).trans ⟨?_, ?_⟩
      · rintro ⟨since, t, rest', rfl, hfirst, hrest⟩
        exact .overtake hnew.1 hnew.2 hfirst hrest
      · intro h
        cases h with
        | swallow h _ => exact absurd hnew h
        | overtake _ _ hfirst hrest => exact ⟨_, _, _, rfl, hfirst, hrest⟩
    · rw [if_neg hnew, ih _ (Nat.lt_succ_self _) none rest rfl]
      refine ⟨.swallow hnew, ?_⟩
      intro h
      cases h with
      | swallow _ hrest => exact hrest
      | overtake hlt hlive _ _ => exact absurd ⟨hlt, hlive⟩ hnew

end Held

/-! ## The first segment -/

/-- What the first segment leaves: its last live record and its last tombstone. -/
theorem foldl_take (entries : List (MappedStoredEntry Key)) :
    entries.foldl Memory.take ⟨none, none⟩
      = ⟨(entries.filter fun e => !e.deleted).getLast?,
        (entries.filter fun e => e.deleted).getLast?⟩ := by
  induction entries using List.reverseRecOn with
  | nil => rfl
  | append_singleton entries e ih =>
    rw [List.foldl_append, ih, List.filter_append, List.filter_append, List.getLast?_append,
      List.getLast?_append]
    rcases hdel : e.deleted with _ | _
    · simp [Memory.take, hdel]
    · simp [Memory.take, hdel]

/-- **Nothing of a key is held after a merge exactly when its records are used up.** -/
theorem survivor_eq_none_iff [DecidableEq Key] (key : Key)
    (first : List (MappedStoredEntry Key)) (others : List (List (MappedStoredEntry Key))) :
    survivor key (first :: others) = none
      ↔ UsedUpAfter (ofKey key first) (ofKey key others.flatten) := by
  rw [survivor, foldl_take, UsedUpAfter]
  generalize ((ofKey key first).filter fun e => !e.deleted).getLast? = held
  rcases held with _ | x
  · exact usedUp_iff _ _
  · rw [held_eq_none_iff]
    simp only [usedUp_iff]

/-! ## A live record that is the latest -/

section Live

variable {L : MappedStoredEntry Key}

/-- A held record outlasts records that are not newer. -/
theorem held_of_le {entries : List (MappedStoredEntry Key)}
    (hle : ∀ e ∈ entries, e.timestamp ≤ L.timestamp) (aside : Option (MappedStoredEntry Key)) :
    (entries.foldl Memory.weigh ⟨some L, aside⟩).held = some L := by
  induction entries with
  | nil => rfl
  | cons e entries ih =>
    have hnot : ¬L.timestamp < e.timestamp := UInt32.not_lt.mpr (hle e List.mem_cons_self)
    rw [List.foldl_cons, weigh_of_held, if_neg hnot]
    exact ih fun e' he' => hle e' (List.mem_cons_of_mem _ he')

/-- A live record newer than all that is remembered is held. -/
theorem weigh_of_newer {memory : Memory Key} (hold : memory.All fun e => e.timestamp < L.timestamp)
    (hlive : L.deleted = false) : (memory.weigh L).held = some L := by
  rcases memory with ⟨_ | x, _ | y⟩
  · rfl
  · rw [weigh_of_aside, if_pos ⟨hold.2 y rfl, hlive⟩]
  · rw [weigh_of_held, if_pos (hold.1 x rfl), hlive]
    rfl
  · rw [weigh_of_held, if_pos (hold.1 x rfl), hlive]
    rfl

variable [DecidableEq Key] {key : Key} {first : List (MappedStoredEntry Key)}
  {others segments segments' : List (List (MappedStoredEntry Key))}

theorem ofKey_append (key : Key) (entries entries' : List (MappedStoredEntry Key)) :
    ofKey key (entries ++ entries') = ofKey key entries ++ ofKey key entries' :=
  List.filter_append ..

theorem mem_ofKey {key : Key} {entries : List (MappedStoredEntry Key)} {e : MappedStoredEntry Key} :
    e ∈ ofKey key entries ↔ e ∈ entries ∧ e.key = key := by
  rw [ofKey, List.mem_filter, decide_eq_true_iff]

/-- The records of one key have times of their own. -/
theorem Timed.ofKey (ht : Timed (first :: others)) (key : Key) :
    (Kv.ofKey key first ++ Kv.ofKey key others.flatten).Pairwise
      fun a b => a.timestamp ≠ b.timestamp := by
  rw [← ofKey_append, ← List.flatten_cons]
  refine (ht.distinct.filter _).imp_of_mem fun ha hb hne => ?_
  exact hne ((mem_ofKey.mp ha).2.trans (mem_ofKey.mp hb).2.symm)

theorem IsLatest.le (hL : IsLatest key (first :: others) L) {e : MappedStoredEntry Key}
    (he : e ∈ ofKey key first ++ ofKey key others.flatten) : e.timestamp ≤ L.timestamp := by
  rw [← ofKey_append, ← List.flatten_cons, mem_ofKey] at he
  exact hL.latest e he.1 he.2

/-- A live record of the first segment that is the latest of its key survives: none of the key is
behind it there… -/
theorem survivor_of_mem_first (ht : Timed (first :: others))
    (hle : ∀ e ∈ ofKey key first ++ ofKey key others.flatten, e.timestamp ≤ L.timestamp)
    (hin : L ∈ ofKey key first) (hlive : L.deleted = false) :
    survivor key (first :: others) = some L := by
  have hne := ht.ofKey key
  have hsorted := (ht.sorted first List.mem_cons_self).filter fun e => decide (e.key = key)
  change (ofKey key first).Pairwise _ at hsorted
  obtain ⟨before, after, hsplit⟩ := List.append_of_mem hin
  rw [survivor]
  rw [hsplit] at hsorted hne hle ⊢
  have hafter : after = [] := by
    refine List.eq_nil_iff_forall_not_mem.mpr fun e he => ?_
    have h₁ := (List.pairwise_cons.mp (List.pairwise_append.mp hsorted).2.1).1 e he
    have h₂ := (List.pairwise_cons.mp
      (List.pairwise_append.mp (List.pairwise_append.mp hne).1).2.1).1 e he
    exact h₂ (UInt32.le_antisymm h₁ (hle e (by simp [he])))
  have htake : ∀ memory : Memory Key, memory.take L = ⟨some L, memory.aside⟩ := by
    intro memory
    rw [Memory.take, hlive]
    rfl
  rw [hafter, List.foldl_append, List.foldl_cons, List.foldl_nil, htake]
  exact held_of_le (fun e he => hle e (List.mem_append_right _ he)) _

/-- …and so does one of the others: all that is in front of it is older. -/
theorem survivor_of_mem_others (ht : Timed (first :: others))
    (hle : ∀ e ∈ ofKey key first ++ ofKey key others.flatten, e.timestamp ≤ L.timestamp)
    (hin : L ∈ ofKey key others.flatten) (hlive : L.deleted = false) :
    survivor key (first :: others) = some L := by
  have hne := ht.ofKey key
  obtain ⟨before, after, hsplit⟩ := List.append_of_mem hin
  rw [survivor]
  rw [hsplit] at hne hle ⊢
  have hold : ∀ e ∈ ofKey key first ++ before, e.timestamp < L.timestamp := by
    intro e he
    rw [← List.append_assoc] at hne
    have h₁ := (List.pairwise_append.mp hne).2.2 e he L List.mem_cons_self
    refine UInt32.lt_of_le_of_ne (hle e ?_) h₁
    rcases List.mem_append.mp he with he | he
    · exact List.mem_append_left _ he
    · exact List.mem_append_right _ (List.mem_append_left _ he)
  have hstart : (⟨none, none⟩ : Memory Key).All fun e => e.timestamp < L.timestamp :=
    ⟨(by rintro _ ⟨⟩), (by rintro _ ⟨⟩)⟩
  have hall := (hstart.foldl (fun _ _ hm he => hm.take he)
    fun e he => hold e (List.mem_append_left _ he)).foldl (fun _ _ hm he => hm.weigh he)
    fun e he => hold e (List.mem_append_right _ he)
  have hheld := weigh_of_newer hall hlive
  rw [List.foldl_append, List.foldl_cons]
  generalize (before.foldl Memory.weigh _).weigh L = memory at hheld ⊢
  obtain ⟨held, aside⟩ := memory
  cases hheld
  refine held_of_le (fun e he => hle e ?_) aside
  exact List.mem_append_right _ (List.mem_append_right _ (List.mem_cons_of_mem _ he))

/-- **A live record that is the latest of its key survives**, whatever the order. -/
theorem survivor_of_live (ht : Timed (first :: others)) (hL : IsLatest key (first :: others) L)
    (hlive : L.deleted = false) : survivor key (first :: others) = some L := by
  have hmem : L ∈ ofKey key first ++ ofKey key others.flatten := by
    rw [← ofKey_append, ← List.flatten_cons]
    exact mem_ofKey.mpr ⟨hL.mem, hL.key_eq⟩
  rcases List.mem_append.mp hmem with hin | hin
  · exact survivor_of_mem_first ht (fun _ he => hL.le he) hin hlive
  · exact survivor_of_mem_others ht (fun _ he => hL.le he) hin hlive

end Live

/-! ## Last writer wins -/

section Wins

variable {key : Key} {segments segments' : List (List (MappedStoredEntry Key))}
  {e e' : MappedStoredEntry Key}

theorem Timed.perm (h : Timed segments) (hperm : segments'.Perm segments) : Timed segments' where
  sorted entries hmem := h.sorted entries (hperm.mem_iff.mp hmem)
  distinct := (hperm.flatten.pairwise_iff fun hab hkey heq => hab hkey.symm heq.symm).mpr h.distinct

theorem IsLatest.perm_iff (hperm : segments'.Perm segments) :
    IsLatest key segments' e ↔ IsLatest key segments e := by
  have hmem : ∀ a, a ∈ segments'.flatten ↔ a ∈ segments.flatten := fun _ => hperm.flatten.mem_iff
  constructor
  · rintro ⟨h₁, h₂, h₃⟩
    exact ⟨(hmem e).mp h₁, h₂, fun a ha => h₃ a ((hmem a).mpr ha)⟩
  · rintro ⟨h₁, h₂, h₃⟩
    exact ⟨(hmem e).mpr h₁, h₂, fun a ha => h₃ a ((hmem a).mp ha)⟩

/-- A key has one latest record at most… -/
theorem IsLatest.unique (ht : Timed segments) (h : IsLatest key segments e)
    (h' : IsLatest key segments e') : e = e' := by
  by_contra hne
  have : Std.Symm fun a b : MappedStoredEntry Key => a.key = b.key → a.timestamp ≠ b.timestamp :=
    ⟨fun a b hab hkey heq => hab hkey.symm heq.symm⟩
  refine ht.distinct.forall h.mem h'.mem hne (h.key_eq.trans h'.key_eq.symm) ?_
  exact UInt32.le_antisymm (h'.latest e h.mem h.key_eq) (h.latest e' h'.mem h'.key_eq)

/-- …and one if it has a record at all. -/
theorem exists_isLatest (hmem : e ∈ segments.flatten) (hkey : e.key = key) :
    ∃ L, IsLatest key segments L := by
  obtain ⟨L, hL, hmax⟩ := Set.exists_max_image {a | a ∈ segments.flatten ∧ a.key = key}
    (fun a => a.timestamp.toNat)
    ((List.finite_toSet segments.flatten).subset fun a ha => ha.1) ⟨e, hmem, hkey⟩
  exact ⟨L, hL.1, hL.2, fun a ha hk => UInt32.le_iff_toNat_le.mpr (hmax a ⟨ha, hk⟩)⟩

variable [DecidableEq Key]

/-- The records of a key are used up by a merge of segments in their order. -/
def AllUsedUp (key : Key) : List (List (MappedStoredEntry Key)) → Prop
  | [] => True
  | first :: others => UsedUpAfter (ofKey key first) (ofKey key others.flatten)

/-- **A merge in some order of the segments keeps exactly the last writes, exactly when** the records
of every key whose latest one is a tombstone are used up in that order. -/
theorem lastWriterWins_iff (ht : Timed segments) (hperm : segments'.Perm segments) :
    LastWriterWins segments (MergedState.ofSegments segments')
      ↔ ∀ key t, IsLatest key segments t → t.deleted = true → AllUsedUp key segments' := by
  have ht' := ht.perm hperm
  simp only [LastWriterWins, MergedState.lookup_ofSegments, ← IsLatest.perm_iff hperm]
  rcases segments' with _ | ⟨first, others⟩
  · refine iff_of_true (fun key entry => iff_of_false (fun h => by cases h) ?_) fun _ _ _ _ => trivial
    rintro ⟨h, -⟩
    cases h.mem
  constructor
  · intro hwins key t hlatest hdel
    refine (survivor_eq_none_iff key first others).mp (Option.eq_none_iff_forall_ne_some.mpr ?_)
    intro entry hentry
    obtain ⟨hlast, hlive⟩ := (hwins key entry).mp hentry
    rw [hlast.unique ht' hlatest, hdel] at hlive
    cases hlive
  · intro hused key entry
    constructor
    · intro hentry
      obtain ⟨⟨entries, hentries, hin⟩, hkey⟩ := mem_of_survivor hentry
      obtain ⟨L, hL⟩ := exists_isLatest (List.mem_flatten.mpr ⟨entries, hentries, hin⟩) hkey
      rcases hdel : L.deleted with _ | _
      · rw [survivor_of_live ht' hL hdel] at hentry
        cases hentry
        exact ⟨hL, hdel⟩
      · rw [(survivor_eq_none_iff key first others).mpr (hused key L hL hdel)] at hentry
        cases hentry
    · rintro ⟨hL, hlive⟩
      exact survivor_of_live ht' hL hlive

end Wins

/-! ## Two merges -/

/-- A record of a key, written or deleted at a time. -/
def recordAt (key : ℕ) (timestamp : UInt32) (deleted : Bool) : MappedStoredEntry ℕ :=
  { key, value := [], deleted, timestamp, keyOffset := 0, entryLength := 0 }

/-- A write and, in a later segment, its deletion: the records of the key are used up. -/
theorem lastWriterWins_iff_deleted :
    LastWriterWins [[recordAt 7 1 false], [recordAt 7 2 true]]
      (MergedState.ofSegments [[recordAt 7 1 false], [recordAt 7 2 true]]) := by
  refine (lastWriterWins_iff ⟨by decide, by decide⟩ .rfl).mpr fun key t hlatest _ => ?_
  have hkey : key = 7 := by
    rw [← hlatest.key_eq]
    rcases List.mem_cons.mp hlatest.mem with h | h
    · rw [h]
      rfl
    · rw [List.mem_singleton.mp h]
      rfl
  subst hkey
  -- the deletion is the first to unseat the write, and nothing comes after it
  refine ⟨[], recordAt 7 2 true, [], rfl, ⟨⟨rfl, by decide, fun e he => by cases he⟩, ?_⟩, .nil _⟩
  exact fun pre t' post h =>
    absurd h.symm (List.append_ne_nil_of_right_ne_nil pre (List.cons_ne_nil t' post))

/-- **A tombstone is kept as a value**: after a segment without the key, the deletion of `7` is read
before the write it deletes.  Read the other way round, both are gone. -/
theorem not_lastWriterWins :
    Timed [[recordAt 1 1 false], [recordAt 7 3 true], [recordAt 7 2 false]]
      ∧ (MergedState.ofSegments
          [[recordAt 1 1 false], [recordAt 7 3 true], [recordAt 7 2 false]]).valueByKey.lookup 7
        = some (recordAt 7 3 true)
      ∧ (MergedState.ofSegments
          [[recordAt 1 1 false], [recordAt 7 2 false], [recordAt 7 3 true]]).valueByKey.lookup 7
        = none
      ∧ ¬LastWriterWins [[recordAt 1 1 false], [recordAt 7 3 true], [recordAt 7 2 false]]
        (MergedState.ofSegments
          [[recordAt 1 1 false], [recordAt 7 3 true], [recordAt 7 2 false]]) := by
  refine ⟨⟨by decide, by decide⟩, by decide, by decide, fun h => ?_⟩
  have hlive := ((h 7 (recordAt 7 3 true)).mp (by decide)).2
  cases hlive

end Bitspend.Kv
