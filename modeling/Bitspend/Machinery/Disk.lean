import Bitspend.Machinery.HashMap
import Mathlib.Tactic.Common

/-!
# Machinery/Disk — a directory of files

A file is a node with bytes; a directory gives nodes names.  Opening a name makes an empty file where
there is none; a write goes over what is there and fills a gap with zeros; removing a name leaves the
node to those that hold it open.  `Disk` carries what keeps names and nodes straight: a name leads to
a node that exists, and no two names lead to the same one.
-/

namespace Bitspend

variable {Name : Type} [DecidableEq Name]

/-- What a file holds after `bytes` were written over it at `offset`. -/
def overwrite (file : List UInt8) (offset : ℕ) (bytes : List UInt8) : List UInt8 :=
  file.take offset ++ List.replicate (offset - file.length) 0 ++ bytes
    ++ file.drop (offset + bytes.length)

/-- **A write at the end extends the file.** -/
theorem overwrite_length (file bytes : List UInt8) :
    overwrite file file.length bytes = file ++ bytes := by
  have hdrop : file.drop (file.length + bytes.length) = [] := List.drop_eq_nil_of_le (by omega)
  simp [overwrite, hdrop]

/-- **What was written is read back…** -/
theorem take_drop_overwrite (file : List UInt8) (offset : ℕ) (bytes : List UInt8) :
    ((overwrite file offset bytes).drop offset).take bytes.length = bytes := by
  have hlen : (file.take offset ++ List.replicate (offset - file.length) 0).length = offset := by
    rw [List.length_append, List.length_take, List.length_replicate]
    omega
  rw [overwrite, List.append_assoc, List.drop_left' hlen, List.take_left]

/-- **…and what is before the offset stays.** -/
theorem take_drop_overwrite_of_le {file : List UInt8} {offset start n : ℕ} (bytes : List UInt8)
    (hle : start + n ≤ offset) (hin : start + n ≤ file.length) :
    ((overwrite file offset bytes).drop start).take n = (file.drop start).take n := by
  have htake : (overwrite file offset bytes).take (start + n) = file.take (start + n) := by
    rw [overwrite, List.append_assoc, List.append_assoc, List.take_append_of_le_length
      (by rw [List.length_take]; omega), List.take_take, Nat.min_eq_left hle]
  rw [List.take_drop, List.take_drop, htake]

/-- **A file does not shrink**, and reaches to the end of what was written. -/
theorem le_length_overwrite (file : List UInt8) (offset : ℕ) (bytes : List UInt8) :
    file.length ≤ (overwrite file offset bytes).length
      ∧ offset + bytes.length ≤ (overwrite file offset bytes).length := by
  simp only [overwrite, List.length_append, List.length_take, List.length_replicate,
    List.length_drop]
  omega

/-- A directory: the nodes ever made, and the names that lead to them. -/
structure Disk (Name : Type) [DecidableEq Name] where
  nodes : List (List UInt8)
  names : HashMap Name ℕ
  linked : ∀ {name node}, names.lookup name = some node → node < nodes.length
  apart : ∀ {a b node}, names.lookup a = some node → names.lookup b = some node → a = b

namespace Disk

/-- A directory with nothing in it. -/
def empty : Disk Name where
  nodes := []
  names := ∅
  linked h := by simp at h
  apart h := by simp at h

/-- What a node holds. -/
def content (d : Disk Name) (node : ℕ) : List UInt8 := d.nodes.getD node []

/-- What the file of a name holds. -/
def file (d : Disk Name) (name : Name) : Option (List UInt8) := (d.names.lookup name).map d.content

/-- A new, empty file. -/
def create (d : Disk Name) (name : Name) : Disk Name where
  nodes := d.nodes ++ [[]]
  names := d.names.insert name d.nodes.length
  linked {a node} h := by
    rw [List.length_append, List.length_singleton]
    by_cases ha : a = name
    · rw [ha, AList.lookup_insert, Option.some.injEq] at h
      omega
    · rw [AList.lookup_insert_ne ha] at h
      exact (d.linked h).trans (Nat.lt_succ_self _)
  apart {a b node} ha hb := by
    by_cases ha' : a = name
    · by_cases hb' : b = name
      · rw [ha', hb']
      · rw [ha', AList.lookup_insert, Option.some.injEq] at ha
        rw [AList.lookup_insert_ne hb'] at hb
        have := d.linked hb
        omega
    · rw [AList.lookup_insert_ne ha'] at ha
      by_cases hb' : b = name
      · rw [hb', AList.lookup_insert, Option.some.injEq] at hb
        have := d.linked ha
        omega
      · rw [AList.lookup_insert_ne hb'] at hb
        exact d.apart ha hb

/-- Opening a name: the node it leads to, a new one if there is none. -/
def openFile (d : Disk Name) (name : Name) : ℕ × Disk Name :=
  match d.names.lookup name with
  | some node => (node, d)
  | none => (d.nodes.length, d.create name)

/-- Writing to a node. -/
def writeAt (d : Disk Name) (node offset : ℕ) (bytes : List UInt8) : Disk Name where
  nodes := d.nodes.modify node fun file => overwrite file offset bytes
  names := d.names
  linked h := by
    rw [List.length_modify]
    exact d.linked h
  apart := d.apart

/-- Removing a name. -/
def unlink (d : Disk Name) (name : Name) : Disk Name where
  nodes := d.nodes
  names := d.names.erase name
  linked {a node} h := by
    by_cases ha : a = name
    · rw [ha, AList.lookup_erase] at h
      cases h
    · rw [AList.lookup_erase_ne ha] at h
      exact d.linked h
  apart {a b node} ha hb := by
    by_cases ha' : a = name
    · rw [ha', AList.lookup_erase] at ha
      cases ha
    · rw [AList.lookup_erase_ne ha'] at ha
      by_cases hb' : b = name
      · rw [hb', AList.lookup_erase] at hb
        cases hb
      · rw [AList.lookup_erase_ne hb'] at hb
        exact d.apart ha hb

/-! ## What a call changes -/

variable {d : Disk Name} {name : Name}

theorem openFile_of_none (h : d.names.lookup name = none) :
    d.openFile name = (d.nodes.length, d.create name) := by
  rw [openFile, h]

theorem openFile_of_some {node : ℕ} (h : d.names.lookup name = some node) :
    d.openFile name = (node, d) := by
  rw [openFile, h]

@[simp] theorem lookup_create : (d.create name).names.lookup name = some d.nodes.length :=
  AList.lookup_insert _

theorem lookup_create_of_ne {a : Name} (h : a ≠ name) :
    (d.create name).names.lookup a = d.names.lookup a :=
  AList.lookup_insert_ne h

@[simp] theorem names_writeAt (node offset : ℕ) (bytes : List UInt8) :
    (d.writeAt node offset bytes).names = d.names := rfl

@[simp] theorem lookup_unlink : (d.unlink name).names.lookup name = none :=
  AList.lookup_erase _ _

theorem lookup_unlink_of_ne {a : Name} (h : a ≠ name) :
    (d.unlink name).names.lookup a = d.names.lookup a :=
  AList.lookup_erase_ne h

theorem file_of_lookup {node : ℕ} (h : d.names.lookup name = some node) :
    d.file name = some (d.content node) := by
  rw [file, h]
  rfl

theorem file_eq_none : d.file name = none ↔ d.names.lookup name = none := by
  rw [file, Option.map_eq_none_iff]

/-- **A new node is empty, and the others hold what they held…** -/
theorem content_create : (d.create name).content d.nodes.length = [] := by
  simp [content, create]

theorem content_create_of_lt {node : ℕ} (h : node < d.nodes.length) :
    (d.create name).content node = d.content node := by
  simp [content, create, List.getD_eq_getElem?_getD, List.getElem?_append_left h]

/-- …and a write changes the node it goes to, and no other. -/
theorem content_writeAt {node offset : ℕ} {bytes : List UInt8} (h : node < d.nodes.length) :
    (d.writeAt node offset bytes).content node = overwrite (d.content node) offset bytes := by
  simp [content, writeAt, List.getD_eq_getElem?_getD, h]

theorem content_writeAt_of_ne {node node' offset : ℕ} {bytes : List UInt8} (h : node ≠ node') :
    (d.writeAt node offset bytes).content node' = d.content node' := by
  simp [content, writeAt, List.getD_eq_getElem?_getD, h]

/-- **A new file is empty, and no other file is touched.** -/
theorem file_create : (d.create name).file name = some [] := by
  rw [file_of_lookup lookup_create, content_create]

theorem file_create_of_ne {a : Name} (h : a ≠ name) : (d.create name).file a = d.file a := by
  rw [file, file, lookup_create_of_ne h]
  rcases ha : d.names.lookup a with _ | node
  · rfl
  · exact congrArg some (content_create_of_lt (d.linked ha))

/-- **A write changes the file it goes to, and no other.** -/
theorem file_writeAt {node offset : ℕ} {bytes : List UInt8} (h : d.names.lookup name = some node) :
    (d.writeAt node offset bytes).file name = some (overwrite (d.content node) offset bytes) := by
  rw [file, names_writeAt, h]
  exact congrArg some (content_writeAt (d.linked h))

theorem file_writeAt_of_ne {a : Name} {node offset : ℕ} {bytes : List UInt8}
    (h : d.names.lookup name = some node) (ha : a ≠ name) :
    (d.writeAt node offset bytes).file a = d.file a := by
  rw [file, file, names_writeAt]
  rcases ha' : d.names.lookup a with _ | node'
  · rfl
  · refine congrArg some (content_writeAt_of_ne ?_)
    rintro rfl
    exact ha (d.apart ha' h)

/-- **A name that is removed leads nowhere; the others lead where they led.** -/
theorem file_unlink : (d.unlink name).file name = none := by
  rw [file_eq_none, lookup_unlink]

theorem file_unlink_of_ne {a : Name} (h : a ≠ name) : (d.unlink name).file a = d.file a := by
  rw [file, file, lookup_unlink_of_ne h]
  rfl

end Disk

end Bitspend
