import Bitspend.Machinery.Bytes
import Bitspend.Machinery.Fault

/-!
# Kv/Entry — the records of a segment file

`entry.rs`.  A record is a header of three 32-bit words (timestamp, key size, value size), the key,
the value and a tombstone byte that counts as part of the value.  A segment file is a concatenation of
records; `decode_multi` walks it with 32-bit offsets, and `decodeMulti_file` says that on a file these
offsets can address it gives back the records, each where it stands.

`u32` arithmetic wraps; a slice out of range is a panic.
-/

namespace Bitspend.Kv

/-- `Error` of the store. -/
inductive Error where
  | openFileError
  | streamError
  | fileNotFound (fileId : ℕ)
  | invalidData
  | parseError
  | entryNotFound
  deriving Repr, DecidableEq

/-- **A `BitCaskKey` with its key mapper**, which undoes `serialize`. -/
structure KeyLib (Key : Type) where
  serialize : Key → List UInt8
  keyMapper : List UInt8 → Key
  keyMapper_serialize : ∀ key, keyMapper (serialize key) = key

def RESERVED_KEY_SIZE : UInt32 := 4
def RESERVED_VALUE_SIZE : UInt32 := 4
def RESERVED_TIMESTAMP_SIZE : UInt32 := 4
def TOMBSTONE_MARKER_SIZE : UInt32 := 1

/-- `Entry`, with its `ValueReference` spelled out. -/
structure Entry (Key : Type) where
  key : Key
  value : List UInt8
  tombstone : UInt8
  timestamp : UInt32
  deriving Repr, DecidableEq

/-- `StoredEntry`. -/
structure StoredEntry where
  key : List UInt8
  value : List UInt8
  deleted : Bool
  timestamp : UInt32
  deriving Repr, DecidableEq

/-- `MappedStoredEntry`. -/
structure MappedStoredEntry (Key : Type) where
  key : Key
  value : List UInt8
  deleted : Bool
  timestamp : UInt32
  keyOffset : UInt32
  entryLength : UInt32
  deriving Repr, DecidableEq

namespace Entry

variable {Key : Type}

/-- `Entry::new`. -/
def new (key : Key) (value : List UInt8) : Entry Key := ⟨key, value, 0, 0⟩

/-- `Entry::new_preserving_timestamp`. -/
def newPreservingTimestamp (key : Key) (value : List UInt8) (ts : UInt32) : Entry Key :=
  ⟨key, value, 0, ts⟩

/-- `Entry::new_deleted_entry`. -/
def newDeletedEntry (key : Key) : Entry Key := ⟨key, [], 1, 0⟩

/-- The tombstone byte, read. -/
def deleted (e : Entry Key) : Bool := e.tombstone &&& 1 = 1

/-- The entry with the timestamp it is written with. -/
def stamped (e : Entry Key) (now : UInt64) : Entry Key :=
  { e with timestamp := if e.timestamp = 0 then now.toUInt32 else e.timestamp }

end Entry

namespace KeyLib

variable {Key : Type} (lib : KeyLib Key)

/-- The bytes of a record. -/
def bytes (e : Entry Key) : List UInt8 :=
  u32LE e.timestamp ++ u32LE (UInt32.ofNat (lib.serialize e.key).length)
    ++ u32LE (UInt32.ofNat e.value.length + TOMBSTONE_MARKER_SIZE)
    ++ lib.serialize e.key ++ e.value ++ [e.tombstone]

/-- `Entry::encode`; an entry without a timestamp takes the clock's. -/
def encode (now : UInt64) (e : Entry Key) : List UInt8 := lib.bytes (e.stamped now)

end KeyLib

/-! ## Decoding -/

/-- `LittleEndian::read_u32(&content[offset as usize..])`. -/
def readU32At (content : List UInt8) (offset : UInt32) : Outcome Error UInt32 :=
  if offset.toNat + 4 ≤ content.length then
    .ok (UInt32.ofNat (ofLE ((content.drop offset.toNat).take 4)))
  else .error (.panic "range end index out of range for slice")

/-- `&content[start as usize..stop as usize]`. -/
def sliceAt (content : List UInt8) (start stop : UInt32) : Outcome Error (List UInt8) :=
  if start ≤ stop ∧ stop.toNat ≤ content.length then
    .ok ((content.drop start.toNat).take (stop.toNat - start.toNat))
  else .error (.panic "range end index out of range for slice")

/-- `decode_from`. -/
def decodeFrom (content : List UInt8) (offset : UInt32) : Outcome Error (StoredEntry × UInt32) := do
  let timestamp ← readU32At content offset
  let offset := offset + RESERVED_TIMESTAMP_SIZE
  let keySize ← readU32At content offset
  let offset := offset + RESERVED_KEY_SIZE
  let valueSize ← readU32At content offset
  let offset := offset + RESERVED_VALUE_SIZE
  let serializedKey ← sliceAt content offset (offset + keySize)
  let offset := offset + keySize
  let value ← sliceAt content offset (offset + valueSize)
  let offset := offset + valueSize
  let marker ← Outcome.expect "range end index out of range for slice" value.getLast?
  pure (⟨serializedKey, value.dropLast, marker &&& 1 = 1, timestamp⟩, offset)

/-- `decode`. -/
def decode (content : List UInt8) : Outcome Error StoredEntry := do
  let (entry, _) ← decodeFrom content 0
  pure entry

namespace KeyLib

variable {Key : Type} (lib : KeyLib Key)

/-- The rounds of `decode_multi`, at most so many. -/
def decodeRounds (content : List UInt8) :
    ℕ → UInt32 → Outcome Error (List (MappedStoredEntry Key))
  | 0, _ => .error (.panic "loop bound reached")
  | n + 1, offset =>
    if offset < UInt32.ofNat content.length then do
      let (entry, traversedOffset) ← decodeFrom content offset
      let entries ← decodeRounds content n traversedOffset
      pure (⟨lib.keyMapper entry.key, entry.value, entry.deleted, entry.timestamp, offset,
        traversedOffset - offset⟩ :: entries)
    else pure []

/-- `decode_multi`.  A round moves the offset, so there are no more rounds than bytes. -/
def decodeMulti (content : List UInt8) : Outcome Error (List (MappedStoredEntry Key)) :=
  lib.decodeRounds content (content.length + 1) 0

end KeyLib

/-! ## What can go wrong -/

theorem errless_readU32At (content : List UInt8) (offset : UInt32) :
    (readU32At content offset).Errless := by
  rw [readU32At]
  split
  · exact .ok _
  · exact .panic _

theorem errless_sliceAt (content : List UInt8) (start stop : UInt32) :
    (sliceAt content start stop).Errless := by
  rw [sliceAt]
  split
  · exact .ok _
  · exact .panic _

/-- **Decoding returns or panics**: there is no error it returns. -/
theorem errless_decode (content : List UInt8) : (decode content).Errless := by
  refine .bind ?_ fun _ => .ok _
  refine (errless_readU32At _ _).bind fun _ => (errless_readU32At _ _).bind fun _ => ?_
  refine (errless_readU32At _ _).bind fun _ => (errless_sliceAt _ _ _).bind fun _ => ?_
  exact (errless_sliceAt _ _ _).bind fun _ => (Outcome.Errless.expect _ _).bind fun _ => .ok _

/-! ## Reading back what was written -/

section Reading

variable {content pre : List UInt8} {n m : ℕ}

theorem toNat_ofNat_of_lt (h : n < 2 ^ 32) : (UInt32.ofNat n).toNat = n := by
  rw [UInt32.toNat_ofNat', Nat.mod_eq_of_lt h]

/-- **A word is read where it stands…** -/
theorem readU32At_of_prefix {w : UInt32} (h : pre ++ u32LE w <+: content) (hn : pre.length = n)
    (hlt : n < 2 ^ 32) : readU32At content (UInt32.ofNat n) = .ok w := by
  obtain ⟨post, rfl⟩ := h
  subst hn
  rw [readU32At, toNat_ofNat_of_lt hlt, if_pos (by simp), List.append_assoc, List.drop_left,
    List.take_left' (length_u32LE w), ofLE_u32LE]

/-- …and a slice is cut where it stands. -/
theorem sliceAt_of_prefix {x : List UInt8} (h : pre ++ x <+: content) (hn : pre.length = n)
    (hm : n + x.length = m) (hlt : m < 2 ^ 32) :
    sliceAt content (UInt32.ofNat n) (UInt32.ofNat m) = .ok x := by
  obtain ⟨post, rfl⟩ := h
  subst hn hm
  have hle : UInt32.ofNat pre.length ≤ UInt32.ofNat (pre.length + x.length) := by
    rw [UInt32.le_iff_toNat_le, toNat_ofNat_of_lt hlt, toNat_ofNat_of_lt (by omega)]
    omega
  have hlen : pre.length + x.length ≤ (pre ++ x ++ post).length := by simp
  rw [sliceAt, toNat_ofNat_of_lt hlt, toNat_ofNat_of_lt (by omega), if_pos ⟨hle, hlen⟩,
    List.append_assoc, List.drop_left, List.take_left' (by omega)]

/-- **A record laid out field by field is decoded**: each field from where the one before ended. -/
theorem decodeFrom_fields {ts : UInt32} {key value : List UInt8} {marker : UInt8}
    (hc : pre ++ u32LE ts ++ u32LE (UInt32.ofNat key.length)
      ++ u32LE (UInt32.ofNat value.length + TOMBSTONE_MARKER_SIZE) ++ key ++ (value ++ [marker])
        <+: content)
    (hn : pre.length = n) (hlt : n + 12 + key.length + (value.length + 1) < 2 ^ 32) :
    decodeFrom content (UInt32.ofNat n)
      = .ok (⟨key, value, marker &&& 1 = 1, ts⟩,
        UInt32.ofNat (n + 12 + key.length + (value.length + 1))) := by
  have hkey := (List.prefix_append _ _).trans hc
  have hvs := (List.prefix_append _ _).trans hkey
  have hks := (List.prefix_append _ _).trans hvs
  have hts := (List.prefix_append _ _).trans hks
  have o₁ : UInt32.ofNat n + RESERVED_TIMESTAMP_SIZE = UInt32.ofNat (n + 4) :=
    (UInt32.ofNat_add n 4).symm
  have o₂ : UInt32.ofNat (n + 4) + RESERVED_KEY_SIZE = UInt32.ofNat (n + 8) :=
    (UInt32.ofNat_add (n + 4) 4).symm
  have o₃ : UInt32.ofNat (n + 8) + RESERVED_VALUE_SIZE = UInt32.ofNat (n + 12) :=
    (UInt32.ofNat_add (n + 8) 4).symm
  have o₅ : UInt32.ofNat value.length + TOMBSTONE_MARKER_SIZE = UInt32.ofNat (value.length + 1) :=
    (UInt32.ofNat_add value.length 1).symm
  simp only [decodeFrom, o₁, o₂, o₃, Outcome.ok_bind, ← UInt32.ofNat_add,
    readU32At_of_prefix hts hn (by omega),
    readU32At_of_prefix (n := n + 4) hks (by simp [hn]) (by omega),
    readU32At_of_prefix (n := n + 8) hvs (by simp [hn]) (by omega), o₅,
    sliceAt_of_prefix (n := n + 12) hkey (by simp [hn]) rfl (by omega),
    sliceAt_of_prefix (n := n + 12 + key.length) (m := n + 12 + key.length + (value.length + 1)) hc
      (by simp [hn]; omega) (by simp) (by omega),
    List.getLast?_concat, List.dropLast_concat, Outcome.expect]
  rfl

end Reading

namespace KeyLib

variable {Key : Type} (lib : KeyLib Key)

theorem length_bytes (e : Entry Key) :
    (lib.bytes e).length = 12 + (lib.serialize e.key).length + (e.value.length + 1) := by
  simp [bytes]
  omega

/-- What decoding gives for a record. -/
def stored (e : Entry Key) : StoredEntry := ⟨lib.serialize e.key, e.value, e.deleted, e.timestamp⟩

/-- **A record is decoded where it stands**, whatever is around it. -/
theorem decodeFrom_bytes {e : Entry Key} {content pre : List UInt8} {n : ℕ}
    (hc : pre ++ lib.bytes e <+: content) (hn : pre.length = n)
    (hlt : n + (lib.bytes e).length < 2 ^ 32) :
    decodeFrom content (UInt32.ofNat n)
      = .ok (lib.stored e, UInt32.ofNat (n + (lib.bytes e).length)) := by
  have hlen : n + (lib.bytes e).length
      = n + 12 + (lib.serialize e.key).length + (e.value.length + 1) := by
    rw [length_bytes]
    omega
  rw [hlen] at hlt ⊢
  refine decodeFrom_fields ?_ hn hlt
  simpa only [bytes, List.append_assoc] using hc

/-- …and alone. -/
theorem decode_bytes {e : Entry Key} (hlt : (lib.bytes e).length < 2 ^ 32) :
    decode (lib.bytes e) = .ok (lib.stored e) := by
  have h := lib.decodeFrom_bytes (List.prefix_refl ([] ++ lib.bytes e)) rfl (by simpa using hlt)
  rw [decode, show (0 : UInt32) = UInt32.ofNat ([] : List UInt8).length from rfl]
  exact Outcome.bind_eq_ok.mpr ⟨_, h, rfl⟩

/-! ## Logs -/

/-- A log of records, as the bytes of a file. -/
def file (log : List (Entry Key)) : List UInt8 := log.flatMap lib.bytes

@[simp] theorem file_nil : lib.file [] = [] := rfl

@[simp] theorem file_append (log log' : List (Entry Key)) :
    lib.file (log ++ log') = lib.file log ++ lib.file log' :=
  List.flatMap_append

@[simp] theorem file_cons (e : Entry Key) (log : List (Entry Key)) :
    lib.file (e :: log) = lib.bytes e ++ lib.file log :=
  List.flatMap_cons

/-- A record as the scan reports it, from its offset. -/
def mapped (offset : ℕ) (e : Entry Key) : MappedStoredEntry Key :=
  ⟨e.key, e.value, e.deleted, e.timestamp, UInt32.ofNat offset, UInt32.ofNat (lib.bytes e).length⟩

/-- **The records of a log, each where it stands.** -/
def layout : ℕ → List (Entry Key) → List (MappedStoredEntry Key)
  | _, [] => []
  | offset, e :: log => lib.mapped offset e :: layout (offset + (lib.bytes e).length) log

/-- A record of the layout stands at the end of the records before it. -/
theorem exists_of_mem_layout {log : List (Entry Key)} {offset : ℕ} {r : MappedStoredEntry Key}
    (h : r ∈ lib.layout offset log) :
    ∃ l e l', log = l ++ e :: l' ∧ r = lib.mapped (offset + (lib.file l).length) e := by
  induction log generalizing offset with
  | nil => cases h
  | cons e log ih =>
    rcases List.mem_cons.mp h with rfl | h
    · exact ⟨[], e, log, rfl, rfl⟩
    · obtain ⟨l, e', l', rfl, rfl⟩ := ih h
      refine ⟨e :: l, e', l', rfl, ?_⟩
      rw [file_cons, List.length_append, Nat.add_assoc]

/-- One round of the scan per record… -/
theorem decodeRounds_file {content : List UInt8} {pre : List UInt8} {log : List (Entry Key)} {k : ℕ}
    (hc : content = pre ++ lib.file log) (hlt : content.length < 2 ^ 32) (hk : log.length < k) :
    lib.decodeRounds content k (UInt32.ofNat pre.length) = .ok (lib.layout pre.length log) := by
  induction log generalizing pre k with
  | nil =>
    obtain ⟨k, rfl⟩ : ∃ j, k = j + 1 := ⟨k - 1, by omega⟩
    rw [decodeRounds, if_neg (by simp [hc])]
    rfl
  | cons e log ih =>
    obtain ⟨k, rfl⟩ : ∃ j, k = j + 1 := ⟨k - 1, by omega⟩
    have hbytes := lib.length_bytes e
    have hlen : content.length = pre.length + (lib.bytes e).length + (lib.file log).length := by
      simp [hc, Nat.add_assoc]
    have hgo : UInt32.ofNat pre.length < UInt32.ofNat content.length := by
      rw [UInt32.lt_iff_toNat_lt, toNat_ofNat_of_lt hlt, toNat_ofNat_of_lt (by omega)]
      omega
    have hpre : pre ++ lib.bytes e <+: content := ⟨lib.file log, by simp [hc]⟩
    have hrest := @ih (pre ++ lib.bytes e) k (by simp [hc]) (by simpa using hk)
    have hsub : UInt32.ofNat (pre.length + (lib.bytes e).length) - UInt32.ofNat pre.length
        = UInt32.ofNat (lib.bytes e).length := by
      rw [UInt32.ofNat_add, UInt32.add_comm, UInt32.add_sub_cancel]
    rw [List.length_append] at hrest
    simp only [decodeRounds, if_pos hgo, lib.decodeFrom_bytes hpre rfl (by omega), hrest,
      Outcome.ok_bind, hsub, stored, lib.keyMapper_serialize]
    rfl

theorem length_le_length_file (log : List (Entry Key)) : log.length ≤ (lib.file log).length := by
  induction log with
  | nil => simp
  | cons e log ih =>
    rw [file_cons, List.length_append, List.length_cons, length_bytes]
    omega

/-- **The scan of a log gives its records, each where it stands.** -/
theorem decodeMulti_file {log : List (Entry Key)} (hlt : (lib.file log).length < 2 ^ 32) :
    lib.decodeMulti (lib.file log) = .ok (lib.layout 0 log) :=
  lib.decodeRounds_file (List.nil_append _).symm hlt
    (Nat.lt_succ_of_le (lib.length_le_length_file log))

end KeyLib

end Bitspend.Kv
