import Bitspend.Kv.Runs

/-!
# Kv/Scan — what the scan of a segment finds

Where a record stands is worked out twice: `Segment::append` answers with the write cursor of the
store, and `decode_multi` adds up the lengths it decodes.  The value length of a record counts the
tombstone byte, which the value does not have.  `scan_agrees`: on a segment of fewer than 2³² bytes
the two agree, whatever the sizes of keys and values.

The bytes of a segment may be anything, though, and the sizes in them are added to a 32-bit offset
that wraps.  `decodeMulti_tiles`: a range that wrapped is out of range, so the offset only ever moves
on, and the scan stops with a panic or has cut the bytes into records without a gap.
-/

namespace Bitspend.Kv

variable {Key : Type} {lib : KeyLib Key} {env : Env}

/-! ## Appending to one segment -/

/-- One successful append: the entry, the clock's reading, and the response. -/
structure AppendCall (Key : Type) where
  entry : Entry Key
  now : UInt64
  response : AppendEntryResponse

/-- The entry with the timestamp it was written with. -/
def AppendCall.stamped (a : AppendCall Key) : Entry Key := a.entry.stamped a.now

/-- **A run of appends to one segment**, from one state of the directory to another.  Between two
appends there can be any calls that leave the file of the segment as it is. -/
inductive Appends (lib : KeyLib Key) (env : Env) :
    Segment → World → List (AppendCall Key) → Segment → World → Prop
  | nil (g : Segment) (w : World) : Appends lib env g w [] g w
  | append {g g' g'' : Segment} {w w' w'' : World} {e : Entry Key} {r : AppendEntryResponse}
      {l : List (AppendCall Key)} : g.append lib env e w = (.ok (r, g'), w') →
      Appends lib env g' w' l g'' w'' →
      Appends lib env g w (⟨e, env.now w.calls, r⟩ :: l) g'' w''
  | other {g g' : Segment} {w w' w'' : World} {l : List (AppendCall Key)} :
      w'.disk.content g.store.fileDescriptor = w.disk.content g.store.fileDescriptor →
      w.disk.nodes.length ≤ w'.disk.nodes.length →
      Appends lib env g w' l g' w'' → Appends lib env g w l g' w''

/-- **The segment holds a log**, with its cursor at the end. -/
structure Filled (lib : KeyLib Key) (g : Segment) (w : World) (log : List (Entry Key)) : Prop where
  node : g.store.fileDescriptor < w.disk.nodes.length
  content : g.store.readFull w = lib.file log
  cursor : g.store.currentWriteOffset = (lib.file log).length

/-- A new segment holds the empty log. -/
theorem filled_new {fileId : ℕ} {w w' : World} {g : Segment}
    (hfresh : w.disk.names.lookup (segmentName fileId) = none)
    (hnew : Segment.new env fileId w = (.ok g, w')) : Filled lib g w' [] := by
  rw [Segment.new] at hnew
  obtain ⟨store, w₁, hopen, hpure⟩ := Op.bind_eq_ok.mp hnew
  cases hpure
  rw [WasiStore.open] at hopen
  rcases hfault : env.fault w.calls with _ | n
  · rw [hfault, Disk.openFile_of_none hfresh] at hopen
    cases hopen
    refine ⟨?_, Disk.content_create, rfl⟩
    simp [World.after, Disk.create]
  · rw [hfault] at hopen
    cases hopen

/-- **An append puts the stamped record at the end**, and answers with where that is. -/
theorem Filled.append {g g' : Segment} {w w' : World} {log : List (Entry Key)} {e : Entry Key}
    {r : AppendEntryResponse} (h : Filled lib g w log)
    (happend : g.append lib env e w = (.ok (r, g'), w')) :
    Filled lib g' w' (log ++ [e.stamped (env.now w.calls)])
      ∧ r = ⟨g.fileId, (lib.file log).length,
          UInt32.ofNat (lib.bytes (e.stamped (env.now w.calls))).length⟩ := by
  rw [Segment.append, Op.ask_ok_bind, Op.bind_apply, WasiStore.append] at happend
  rcases hfault : env.fault w.calls with _ | n
  · rw [hfault] at happend
    cases happend
    refine ⟨⟨?_, ?_, ?_⟩, by rw [h.cursor]; rfl⟩
    · simpa [World.after, World.note, Disk.writeAt] using h.node
    · have hcontent : w.disk.content g.store.fileDescriptor = lib.file log := h.content
      change (w.disk.writeAt _ _ _).content _ = _
      rw [Disk.content_writeAt h.node, hcontent, h.cursor, overwrite_length, KeyLib.file_append,
        KeyLib.file_cons, KeyLib.file_nil, List.append_nil]
      rfl
    · change g.store.currentWriteOffset + _ = _
      rw [h.cursor, KeyLib.file_append, KeyLib.file_cons, KeyLib.file_nil, List.append_nil,
        List.length_append]
      rfl
  · rw [hfault] at happend
    cases happend

/-- **A run of appends extends the log**, and every response is the place of its record. -/
theorem Appends.filled {g g' : Segment} {w w' : World} {l : List (AppendCall Key)}
    (h : Appends lib env g w l g' w') {log : List (Entry Key)} (hs : Filled lib g w log) :
    Filled lib g' w' (log ++ l.map AppendCall.stamped)
      ∧ ∀ l₁ a l₂, l = l₁ ++ a :: l₂ →
        a.response.offset = (lib.file (log ++ l₁.map AppendCall.stamped)).length
          ∧ a.response.entryLength = UInt32.ofNat (lib.bytes a.stamped).length := by
  induction h generalizing log with
  | nil g w =>
    refine ⟨by simpa using hs, fun l₁ a l₂ hl => ?_⟩
    simp at hl
  | append happend _ ih =>
    obtain ⟨hs', hr⟩ := hs.append happend
    obtain ⟨hend, hplaces⟩ := ih hs'
    refine ⟨by simpa [AppendCall.stamped] using hend, fun l₁ a l₂ hl => ?_⟩
    rcases l₁ with _ | ⟨b, l₁⟩
    · obtain ⟨rfl, rfl⟩ := List.cons.inj hl
      rw [List.map_nil, List.append_nil]
      exact ⟨congrArg AppendEntryResponse.offset hr, congrArg AppendEntryResponse.entryLength hr⟩
    · obtain ⟨rfl, rfl⟩ := List.cons.inj hl
      simpa [AppendCall.stamped] using hplaces l₁ a l₂ rfl
  | other hcontent hnodes _ ih =>
    exact ih ⟨hs.node.trans_le hnodes, hcontent.trans hs.content, hs.cursor⟩

/-! ## The scan -/

/-- **A result of the scan agrees with an append**: the entry, the timestamp it was written with,
the place, and what is read there. -/
structure Agrees (lib : KeyLib Key) (g : Segment) (w : World) (a : AppendCall Key)
    (r : MappedStoredEntry Key) : Prop where
  key : r.key = a.entry.key
  value : r.value = a.entry.value
  deleted : r.deleted = a.entry.deleted
  timestamp : r.timestamp = if a.entry.timestamp = 0 then a.now.toUInt32 else a.entry.timestamp
  place : (r.keyOffset.toNat, r.entryLength) = (a.response.offset, a.response.entryLength)
  decoded : g.read w a.response.offset a.response.entryLength
    = .ok ⟨lib.serialize r.key, r.value, r.deleted, r.timestamp⟩

/-- A layout, one record at a time. -/
theorem forall₂_layout {α : Type} {R : α → MappedStoredEntry Key → Prop} {f : α → Entry Key}
    {offset : ℕ} {l : List α}
    (h : ∀ l₁ a l₂, l = l₁ ++ a :: l₂ →
      R a (lib.mapped (offset + (lib.file (l₁.map f)).length) (f a))) :
    List.Forall₂ R l (lib.layout offset (l.map f)) := by
  induction l generalizing offset with
  | nil => exact .nil
  | cons a l ih =>
    refine .cons (h [] a l rfl) (ih fun l₁ b l₂ hl => ?_)
    have := h (a :: l₁) b l₂ (by rw [hl]; rfl)
    rwa [List.map_cons, KeyLib.file_cons, List.length_append, ← Nat.add_assoc] at this

/-- Stamping does not change how long a record is. -/
theorem length_file_stamped (l : List (AppendCall Key)) :
    (lib.file (l.map AppendCall.stamped)).length = (lib.file (l.map AppendCall.entry)).length := by
  induction l with
  | nil => rfl
  | cons a l ih =>
    simp only [List.map_cons, KeyLib.file_cons, List.length_append, ih, KeyLib.length_bytes,
      AppendCall.stamped, Entry.stamped]

/-- **What stands at the place of a record is the record.** -/
theorem Filled.read {g : Segment} {w : World} {log log' : List (Entry Key)} {e : Entry Key}
    (h : Filled lib g w (log ++ e :: log')) (hlt : (lib.bytes e).length < 2 ^ 32) :
    g.read w (lib.file log).length (UInt32.ofNat (lib.bytes e).length) = .ok (lib.stored e) := by
  have hcontent : w.disk.content g.store.fileDescriptor = lib.file (log ++ e :: log') := h.content
  rw [Segment.read, WasiStore.read, hcontent, KeyLib.file_append, KeyLib.file_cons, List.drop_left,
    toNat_ofNat_of_lt hlt, List.take_left]
  exact lib.decode_bytes hlt

/-- **Scan and append agree**: on a segment that was made new, reading the file back gives an entry
for each append, in order, under the place the append answered with. -/
theorem scan_agrees {fileId : ℕ} {w₀ w w' : World} {g g' : Segment} {l : List (AppendCall Key)}
    (hfresh : w₀.disk.names.lookup (segmentName fileId) = none)
    (hnew : Segment.new env fileId w₀ = (.ok g, w)) (hrun : Appends lib env g w l g' w')
    (hlen : (lib.file (l.map AppendCall.entry)).length < 2 ^ 32) :
    ∃ results, g'.readFull lib w' = .ok results ∧ List.Forall₂ (Agrees lib g' w') l results := by
  obtain ⟨hend, hplaces⟩ := hrun.filled (filled_new hfresh hnew)
  rw [List.nil_append] at hend
  have hlt : (lib.file (l.map AppendCall.stamped)).length < 2 ^ 32 :=
    (length_file_stamped l).trans_lt hlen
  refine ⟨lib.layout 0 (l.map AppendCall.stamped), ?_, forall₂_layout fun l₁ a l₂ hl => ?_⟩
  · rw [Segment.readFull, hend.content]
    exact lib.decodeMulti_file hlt
  · obtain ⟨hoffset, hlength⟩ := hplaces l₁ a l₂ hl
    rw [List.nil_append] at hoffset
    rw [hl, List.map_append, List.map_cons] at hend hlt
    have hbytes : (lib.bytes a.stamped).length < 2 ^ 32
        ∧ (lib.file (l₁.map AppendCall.stamped)).length < 2 ^ 32 := by
      rw [KeyLib.file_append, KeyLib.file_cons, List.length_append, List.length_append] at hlt
      omega
    refine ⟨rfl, rfl, rfl, rfl, ?_, ?_⟩
    · rw [hoffset, hlength, KeyLib.mapped, Nat.zero_add, toNat_ofNat_of_lt hbytes.2]
    · rw [hoffset, hlength]
      exact hend.read hbytes.1

/-- A put, an empty one that keeps its timestamp, and a tombstone. -/
def mixed : List (Entry (List UInt8)) :=
  [.new [7] [1], .newPreservingTimestamp [] [] 5, .newDeletedEntry [7]]

/-- The statement for these three, appended to the first file of an empty directory. -/
theorem scan_agrees_mixed : ∃ g w l results, l.map AppendCall.entry = mixed
    ∧ Segment.readFull byteKeys g w = .ok results
    ∧ List.Forall₂ (Agrees byteKeys g w) l results := by
  obtain ⟨results, hread, hagrees⟩ := @scan_agrees _ byteKeys steady 0 World.empty _ _ _ _ _ rfl
    (Op.eq_of_fst rfl) (.append (e := .new [7] [1]) (Op.eq_of_fst rfl)
      (.append (e := .newPreservingTimestamp [] [] 5) (Op.eq_of_fst rfl)
        (.append (e := .newDeletedEntry [7]) (Op.eq_of_fst rfl) (.nil _ _)))) (by decide +kernel)
  exact ⟨_, _, _, results, rfl, hread, hagrees⟩

/-! ## Any bytes -/

/-- A slice out of range. -/
def OutOfRange {ε α : Type} (x : Outcome ε α) : Prop :=
  x = .error (.panic "range end index out of range for slice")

theorem OutOfRange.bind {ε α β : Type} {x : Outcome ε α} (h : OutOfRange x) (f : α → Outcome ε β) :
    OutOfRange (x >>= f) := by
  rw [OutOfRange, h, Outcome.error_bind]

section Progress

variable {content : List UInt8} {offset : UInt32}

/-- **A word is read within the bytes**, or not at all… -/
theorem readU32At_cases (content : List UInt8) (offset : UInt32) :
    OutOfRange (readU32At content offset)
      ∨ offset.toNat + 4 ≤ content.length ∧ ∃ word, readU32At content offset = .ok word := by
  rw [readU32At]
  split
  · rename_i hle
    exact .inr ⟨hle, _, rfl⟩
  · exact .inl rfl

/-- …so the offset moves on by four without wrapping. -/
theorem toNat_add_four (hlt : content.length < 2 ^ 32) (hle : offset.toNat + 4 ≤ content.length) :
    (offset + 4).toNat = offset.toNat + 4 := by
  rw [UInt32.toNat_add]
  exact Nat.mod_eq_of_lt (by simpa using hle.trans_lt hlt)

/-- **A slice does not run backwards**, and is as long as its ends are apart. -/
theorem sliceAt_cases (content : List UInt8) (start stop : UInt32) :
    OutOfRange (sliceAt content start stop)
      ∨ start.toNat ≤ stop.toNat ∧ stop.toNat ≤ content.length
        ∧ ∃ slice, sliceAt content start stop = .ok slice
          ∧ slice.length = stop.toNat - start.toNat := by
  rw [sliceAt]
  split
  · rename_i h
    have hle : start.toNat ≤ stop.toNat := UInt32.le_iff_toNat_le.mp h.1
    refine .inr ⟨hle, h.2, _, rfl, ?_⟩
    rw [List.length_take, List.length_drop]
    omega
  · exact .inl rfl

/-- The last byte of a slice that has one. -/
theorem getLast?_cases (value : List UInt8) :
    OutOfRange (Outcome.expect "range end index out of range for slice" value.getLast?
        : Outcome Error UInt8)
      ∨ 0 < value.length ∧ ∃ marker, (Outcome.expect "range end index out of range for slice"
        value.getLast? : Outcome Error UInt8) = .ok marker := by
  rcases List.eq_nil_or_concat value with rfl | ⟨init, marker, rfl⟩
  · exact .inl rfl
  · refine .inr ⟨by simp, marker, ?_⟩
    rw [List.concat_eq_append, List.getLast?_concat, Outcome.expect]

/-- **A record ends behind where it starts**, by thirteen bytes at least, and within the bytes. -/
theorem decodeFrom_cases (hlt : content.length < 2 ^ 32) (offset : UInt32) :
    OutOfRange (decodeFrom content offset)
      ∨ ∃ entry traversed, decodeFrom content offset = .ok (entry, traversed)
        ∧ offset.toNat + 13 ≤ traversed.toNat ∧ traversed.toNat ≤ content.length := by
  dsimp only [decodeFrom, RESERVED_TIMESTAMP_SIZE, RESERVED_KEY_SIZE, RESERVED_VALUE_SIZE]
  obtain hout | ⟨hle₁, timestamp, hts⟩ := readU32At_cases content offset
  · exact .inl (hout.bind _)
  have h₁ := toNat_add_four hlt hle₁
  rw [hts, Outcome.ok_bind]
  obtain hout | ⟨hle₂, keySize, hks⟩ := readU32At_cases content (offset + 4)
  · exact .inl (hout.bind _)
  have h₂ := toNat_add_four hlt hle₂
  rw [hks, Outcome.ok_bind]
  obtain hout | ⟨hle₃, valueSize, hvs⟩ := readU32At_cases content (offset + 4 + 4)
  · exact .inl (hout.bind _)
  have h₃ := toNat_add_four hlt hle₃
  rw [hvs, Outcome.ok_bind]
  -- from here on the sizes are any two words: only the slices know where the ends are
  obtain hout | ⟨hkey, -, key, hk, -⟩ :=
    sliceAt_cases content (offset + 4 + 4 + 4) (offset + 4 + 4 + 4 + keySize)
  · exact .inl (hout.bind _)
  rw [hk, Outcome.ok_bind]
  obtain hout | ⟨hvalue, hend, value, hv, hlen⟩ := sliceAt_cases content
    (offset + 4 + 4 + 4 + keySize) (offset + 4 + 4 + 4 + keySize + valueSize)
  · exact .inl (hout.bind _)
  rw [hv, Outcome.ok_bind]
  obtain hout | ⟨hpos, marker, hm⟩ := getLast?_cases value
  · exact .inl (hout.bind _)
  rw [hm, Outcome.ok_bind]
  exact .inr ⟨_, _, rfl, by omega, hend⟩

end Progress

/-! ## Tilings -/

/-- **Records cut the bytes from `start` to `stop`**: each begins where the one before ended, and is
thirteen bytes long at least. -/
def TilesFrom (start stop : ℕ) : List (MappedStoredEntry Key) → Prop
  | [] => start = stop
  | r :: rs => r.keyOffset.toNat = start ∧ 13 ≤ r.entryLength.toNat
      ∧ TilesFrom (start + r.entryLength.toNat) stop rs

/-- **The records of a scan tile the bytes.** -/
structure Tiles (content : List UInt8) (entries : List (MappedStoredEntry Key)) : Prop where
  long : ∀ r ∈ entries, 13 ≤ r.entryLength.toNat
  starts : ∀ r, entries[0]? = some r → r.keyOffset = 0
  contiguous : ∀ (i : ℕ) r r', entries[i]? = some r → entries[i + 1]? = some r' →
    r'.keyOffset.toNat = r.keyOffset.toNat + r.entryLength.toNat
  sum : (entries.map fun r => r.entryLength.toNat).sum = content.length

namespace TilesFrom

variable {start stop : ℕ} {entries : List (MappedStoredEntry Key)}

theorem starts {r : MappedStoredEntry Key} (h : TilesFrom start stop entries)
    (hr : entries[0]? = some r) : r.keyOffset.toNat = start := by
  rcases entries with _ | ⟨r', entries⟩
  · cases hr
  · cases hr
    exact h.1

theorem long (h : TilesFrom start stop entries) : ∀ r ∈ entries, 13 ≤ r.entryLength.toNat := by
  induction entries generalizing start with
  | nil => exact fun _ hr => absurd hr List.not_mem_nil
  | cons r entries ih => exact List.forall_mem_cons.mpr ⟨h.2.1, ih h.2.2⟩

theorem contiguous (h : TilesFrom start stop entries) (i : ℕ) (r r' : MappedStoredEntry Key)
    (hr : entries[i]? = some r) (hr' : entries[i + 1]? = some r') :
    r'.keyOffset.toNat = r.keyOffset.toNat + r.entryLength.toNat := by
  induction entries generalizing start i with
  | nil => cases hr
  | cons r₀ entries ih =>
    rcases i with _ | i
    · cases hr
      rw [h.1]
      exact h.2.2.starts hr'
    · exact ih h.2.2 i hr hr'

theorem sum (h : TilesFrom start stop entries) :
    start + (entries.map fun r => r.entryLength.toNat).sum = stop := by
  induction entries generalizing start with
  | nil => exact h
  | cons r entries ih =>
    rw [List.map_cons, List.sum_cons, ← Nat.add_assoc]
    exact ih h.2.2

theorem tiles {content : List UInt8} (h : TilesFrom 0 content.length entries) :
    Tiles content entries where
  long := h.long
  starts _ hr := UInt32.toNat_inj.mp (h.starts hr)
  contiguous := h.contiguous
  sum := (Nat.zero_add _).symm.trans h.sum

end TilesFrom

/-! ## The rounds -/

section Rounds

variable {content : List UInt8} {offset : UInt32}

/-- **What a round does**: the last one stops, behind the bytes… -/
theorem decodeRounds_of_not_lt (h : ¬offset < UInt32.ofNat content.length) (k : ℕ) :
    lib.decodeRounds content (k + 1) offset = .ok [] := by
  rw [KeyLib.decodeRounds, if_neg h]
  rfl

/-- …one out of range panics… -/
theorem decodeRounds_of_outOfRange (h : offset < UInt32.ofNat content.length)
    (hout : OutOfRange (decodeFrom content offset)) (k : ℕ) :
    OutOfRange (lib.decodeRounds content (k + 1) offset) := by
  rw [KeyLib.decodeRounds, if_pos h]
  exact hout.bind _

/-- …and any other puts its record before those of the rounds that follow. -/
theorem decodeRounds_of_ok (h : offset < UInt32.ofNat content.length) {entry : StoredEntry}
    {traversed : UInt32} (hdecode : decodeFrom content offset = .ok (entry, traversed)) (k : ℕ) :
    lib.decodeRounds content (k + 1) offset
      = lib.decodeRounds content k traversed >>= fun entries =>
        .ok (⟨lib.keyMapper entry.key, entry.value, entry.deleted, entry.timestamp, offset,
          traversed - offset⟩ :: entries) := by
  rw [KeyLib.decodeRounds, if_pos h, hdecode]
  rfl

/-- **As long as there are more rounds than bytes left, how many makes no difference.** -/
theorem decodeRounds_congr (hlt : content.length < 2 ^ 32) {k k' : ℕ}
    (hk : content.length < offset.toNat + k) (hk' : content.length < offset.toNat + k')
    (hin : offset.toNat ≤ content.length) :
    lib.decodeRounds content k offset = lib.decodeRounds content k' offset := by
  induction k generalizing offset k' with
  | zero => omega
  | succ k ih =>
    obtain ⟨k', rfl⟩ : ∃ j, k' = j + 1 := ⟨k' - 1, by omega⟩
    by_cases hgo : offset < UInt32.ofNat content.length
    · obtain hout | ⟨entry, traversed, hdecode, hmoved, hend⟩ := decodeFrom_cases hlt offset
      · exact (decodeRounds_of_outOfRange hgo hout k).trans
          (decodeRounds_of_outOfRange hgo hout k').symm
      · rw [decodeRounds_of_ok hgo hdecode, decodeRounds_of_ok hgo hdecode,
          @ih traversed k' (by omega) (by omega) hend]
    · rw [decodeRounds_of_not_lt hgo, decodeRounds_of_not_lt hgo]

/-- **From an offset within the bytes** the rounds stop out of range, or cut the rest into records. -/
theorem decodeRounds_tiles (hlt : content.length < 2 ^ 32) {k : ℕ}
    (hk : content.length < offset.toNat + k) (hin : offset.toNat ≤ content.length) :
    OutOfRange (lib.decodeRounds content k offset)
      ∨ ∃ entries, lib.decodeRounds content k offset = .ok entries
        ∧ TilesFrom offset.toNat content.length entries := by
  induction k generalizing offset with
  | zero => omega
  | succ k ih =>
    by_cases hgo : offset < UInt32.ofNat content.length
    · obtain hout | ⟨entry, traversed, hdecode, hmoved, hend⟩ := decodeFrom_cases hlt offset
      · exact .inl (decodeRounds_of_outOfRange hgo hout k)
      · rw [decodeRounds_of_ok hgo hdecode]
        obtain hout | ⟨entries, hentries, htiles⟩ := ih (by omega) hend
        · exact .inl (hout.bind _)
        · have hlength : (traversed - offset).toNat = traversed.toNat - offset.toNat :=
            UInt32.toNat_sub_of_le _ _ (UInt32.le_iff_toNat_le.mpr (by omega))
          rw [hentries, Outcome.ok_bind]
          refine .inr ⟨_, rfl, rfl, ?_, ?_⟩
          · rw [hlength]
            omega
          · rwa [hlength, Nat.add_sub_cancel' (by omega)]
    · have hat : offset.toNat = content.length := by
        rw [UInt32.lt_iff_toNat_lt, toNat_ofNat_of_lt hlt] at hgo
        omega
      exact .inr ⟨[], decodeRounds_of_not_lt hgo k, hat⟩

end Rounds

/-- **The scan terminates and tiles its bytes**: more rounds would not change what it gives, and it
stops at a slice out of range or returns records that tile the bytes. -/
theorem decodeMulti_tiles (lib : KeyLib Key) {content : List UInt8}
    (hlt : content.length < 2 ^ 32) :
    (∀ k > content.length, lib.decodeRounds content k 0 = lib.decodeMulti content)
      ∧ (OutOfRange (lib.decodeMulti content)
        ∨ ∃ entries, lib.decodeMulti content = .ok entries ∧ Tiles content entries) := by
  have hzero : (0 : UInt32).toNat = 0 := rfl
  refine ⟨fun k hk => decodeRounds_congr hlt (by omega) (by omega) (by omega), ?_⟩
  obtain hout | ⟨entries, hentries, htiles⟩ :=
    @decodeRounds_tiles _ lib content 0 hlt (content.length + 1) (by omega) (by omega)
  · exact .inl hout
  · exact .inr ⟨entries, hentries, htiles.tiles⟩

/-- A record whose key would end before it starts. -/
def wrapping : List UInt8 := u32LE 1 ++ u32LE 0xfffffffc ++ u32LE 5 ++ [0]

/-- The statement for it; the scan stops there. -/
theorem decodeMulti_tiles_wrapping :
    ((∀ k > wrapping.length, byteKeys.decodeRounds wrapping k 0 = byteKeys.decodeMulti wrapping)
      ∧ (OutOfRange (byteKeys.decodeMulti wrapping)
        ∨ ∃ entries, byteKeys.decodeMulti wrapping = .ok entries ∧ Tiles wrapping entries))
    ∧ OutOfRange (byteKeys.decodeMulti wrapping) :=
  ⟨decodeMulti_tiles byteKeys (by decide), by rw [OutOfRange]; decide +kernel⟩

end Bitspend.Kv
