import Mathlib.Data.List.AList
import Mathlib.Data.List.Rotate

/-!
# Machinery/HashMap — hash maps, and the order they are iterated in

A `HashMap` is a finite map; what it promises of an iteration is that every entry comes once.  An
`IterOrder` is any order that keeps the promise, and what is proved of code that iterates is proved
for all of them.
-/

namespace Bitspend

/-- `HashMap<κ, ν>`. -/
abbrev HashMap (κ ν : Type) := AList fun _ : κ => ν

/-- **Some iteration order**: every entry once, in an order of its own. -/
structure IterOrder (α : Type) where
  iter : List α → List α
  perm : ∀ l, (iter l).Perm l

namespace IterOrder

variable {α : Type}

/-- The order the entries are kept in is one… -/
def asKept : IterOrder α := ⟨id, fun _ => .rfl⟩

/-- …and so is any other, turned round so that it starts somewhere else. -/
def rotated (n : ℕ) : IterOrder α := ⟨fun l => l.rotate n, fun l => l.rotate_perm n⟩

@[simp] theorem mem_iter (o : IterOrder α) {l : List α} {a : α} : a ∈ o.iter l ↔ a ∈ l :=
  (o.perm l).mem_iff

/-- **Any element can come last.** -/
theorem exists_last {l : List α} {a : α} (h : a ∈ l) :
    ∃ (o : IterOrder α) (pre : List α), o.iter l = pre ++ [a] := by
  obtain ⟨l₁, l₂, rfl⟩ := List.append_of_mem h
  refine ⟨rotated (l₁.length + 1), l₂ ++ l₁, ?_⟩
  have hsplit : l₁ ++ a :: l₂ = (l₁ ++ [a]) ++ l₂ := by simp
  have hlen : l₁.length + 1 = (l₁ ++ [a]).length := by simp
  change (l₁ ++ a :: l₂).rotate (l₁.length + 1) = _
  rw [hsplit, hlen, List.rotate_append_length_eq, List.append_assoc]

end IterOrder

namespace HashMap

variable {κ ν α : Type} [DecidableEq κ]

/-- The inserts of a loop, one after another. -/
def insertAll (key : α → κ) (val : α → ν) (m : HashMap κ ν) (l : List α) : HashMap κ ν :=
  l.foldl (fun m a => AList.insert (key a) (val a) m) m

variable {key : α → κ} {val : α → ν}

@[simp] theorem insertAll_nil (m : HashMap κ ν) : insertAll key val m [] = m := rfl

theorem insertAll_append (m : HashMap κ ν) (l l' : List α) :
    insertAll key val m (l ++ l') = insertAll key val (insertAll key val m l) l' :=
  List.foldl_append

theorem insertAll_concat (m : HashMap κ ν) (l : List α) (a : α) :
    insertAll key val m (l ++ [a])
      = (AList.insert (key a) (val a) (insertAll key val m l) : HashMap κ ν) :=
  insertAll_append m l [a]

/-- The last element under a key. -/
def last (key : α → κ) (k : κ) (l : List α) : Option α := (l.filter fun a => key a = k).getLast?

theorem last_append (k : κ) (l l' : List α) :
    last key k (l ++ l') = (last key k l').or (last key k l) := by
  rw [last, List.filter_append, List.getLast?_append]
  rfl

theorem last_singleton (k : κ) (a : α) : last key k [a] = if key a = k then some a else none := by
  by_cases h : key a = k
  · simp [last, h]
  · simp [last, h]

theorem key_of_last {k : κ} {l : List α} {a : α} (h : last key k l = some a) :
    a ∈ l ∧ key a = k := by
  have hmem := List.mem_of_getLast? h
  simpa using hmem

theorem isSome_last {k : κ} {l : List α} {a : α} (ha : a ∈ l) (hk : key a = k) :
    (last key k l).isSome := by
  rw [last, List.getLast?_isSome]
  exact List.ne_nil_of_mem (List.mem_filter.mpr ⟨ha, decide_eq_true hk⟩)

theorem last_eq_none {k : κ} {l : List α} (h : ∀ a ∈ l, key a ≠ k) : last key k l = none := by
  rcases hlast : last key k l with _ | a
  · rfl
  · obtain ⟨ha, hk⟩ := key_of_last hlast
    exact absurd hk (h a ha)

/-- **The last insert under a key is the one that is found.** -/
theorem lookup_insertAll (m : HashMap κ ν) (l : List α) (k : κ) :
    (insertAll key val m l).lookup k = ((last key k l).map val).or (m.lookup k) := by
  induction l using List.reverseRecOn with
  | nil => rfl
  | append_singleton l a ih =>
    rw [insertAll_concat, last_append, last_singleton]
    by_cases h : key a = k
    · subst h
      rw [AList.lookup_insert, if_pos rfl]
      rfl
    · rw [AList.lookup_insert_ne (Ne.symm h), if_neg h, ih]
      rfl

end HashMap

end Bitspend
