import Bitspend.Machinery.ByteOrder
import Bitspend.Machinery.Slice
import Bitspend.Wire.Payload

/-!
# Wire/Validation — which headers pass validation

`BlockHeader::validate` and `Hash256`'s `Ord` (`messages/block_header.rs`, `util/hash256.rs`).  A
header is checked against the headers before it and against the hash it is announced under: its
timestamp against the median of the last eleven, the hash against the target its `bits` encode.  The
rules themselves are about numbers: `Later` compares two of them and `Worked` bounds the hash, read
as one 256-bit number, by a mantissa times a power of 256.
-/

namespace Bitspend.Wire

namespace Hash256

/-- `Ord::cmp` for `Hash256`: from the last byte to the first. -/
def cmp (a b : Hash256) : Ordering := compareBelow a.toList b.toList 32

/-- **Hashes are ordered as the numbers they denote.** -/
theorem cmp_eq (a b : Hash256) : cmp a b = compare (ofLE a.toList) (ofLE b.toList) := by
  have h := @compareBelow_eq a.toList b.toList 32 a.2.ge b.2.ge
  rwa [List.take_of_length_le a.2.le, List.take_of_length_le b.2.le] at h

end Hash256

namespace BlockHeader

/-! ## What the code does -/

/-- `BlockHeader::difficulty_target`. -/
def difficultyTarget (h : BlockHeader) : Outcome Error Hash256 := do
  let exp := (h.bits >>> 24).toNat
  if ¬(3 ≤ exp ∧ exp ≤ 32) then
    Outcome.err (.badArgument s!"Difficulty exponent out of range: {h.bits}")
  else
    let difficulty ← (Bytes.zero 32).assign (exp - 1) ((h.bits >>> 16) &&& 0xff).toUInt8
    let difficulty ← difficulty.assign (exp - 2) ((h.bits >>> 8) &&& 0xff).toUInt8
    difficulty.assign (exp - 3) (h.bits &&& 0xff).toUInt8

/-- The timestamps of the last eleven headers, or of all where there are fewer. -/
def recent (prevHeaders : List BlockHeader) : List UInt32 :=
  (prevHeaders.drop (prevHeaders.length - min prevHeaders.length 11)).map timestamp

/-- The first half of `validate`: the timestamp. -/
def validateTimestamp (h : BlockHeader) (prevHeaders : List BlockHeader) : Outcome Error Unit :=
  if prevHeaders = [] then pure ()
  else do
    let timestamps := (recent prevHeaders).insertionSort (· ≤ ·)
    let median ← Outcome.expect "index out of bounds" timestamps[timestamps.length / 2]?
    if h.timestamp < median then
      Outcome.err (.badData s!"Timestamp is too old: {h.timestamp}")
    else pure ()

/-- The second half: the proof of work. -/
def validateWork (h : BlockHeader) (hash : Hash256) : Outcome Error Unit := do
  let target ← h.difficultyTarget
  if Hash256.cmp hash target = .gt then Outcome.err (.badData "Invalid POW")
  else pure ()

/-- `BlockHeader::validate`. -/
def validate (h : BlockHeader) (hash : Hash256) (prevHeaders : List BlockHeader) :
    Outcome Error Unit := do
  h.validateTimestamp prevHeaders
  h.validateWork hash

/-! ## The rules -/

/-- **The timestamp rule**: later than the median of the last eleven. -/
def Later (h : BlockHeader) (prevHeaders : List BlockHeader) : Prop :=
  prevHeaders = [] ∨ ∃ m, IsMedian m (recent prevHeaders) ∧ m < h.timestamp

/-- **The work rule**: `bits` encodes a target, and the hash is at most that. -/
def Worked (h : BlockHeader) (hash : Hash256) : Prop :=
  (3 ≤ (h.bits >>> 24).toNat ∧ (h.bits >>> 24).toNat ≤ 32)
    ∧ ofLE hash.toList ≤ (h.bits &&& 0xffffff).toNat * 256 ^ ((h.bits >>> 24).toNat - 3)

/-- The timestamp is the median. -/
def AtMedian (h : BlockHeader) (prevHeaders : List BlockHeader) : Prop :=
  prevHeaders ≠ [] ∧ IsMedian h.timestamp (recent prevHeaders)

/-! ## The target -/

theorem toNat_lowByte (n : UInt32) : (n &&& 0xff).toUInt8.toNat = n.toNat % 256 := by
  have hand : (n &&& 0xff).toNat = n.toNat % 256 :=
    (UInt32.toNat_and n 0xff).trans (Nat.and_two_pow_sub_one_eq_mod n.toNat 8)
  rw [UInt32.toNat_toUInt8, hand]
  exact Nat.mod_mod _ _

/-- The three low bytes of `bits`, as one number. -/
theorem toNat_mantissa (bits : UInt32) :
    (bits &&& 0xffffff).toNat
      = (bits &&& 0xff).toUInt8.toNat + 256 * ((bits >>> 8) &&& 0xff).toUInt8.toNat
        + 256 ^ 2 * ((bits >>> 16) &&& 0xff).toUInt8.toNat := by
  have hand : (bits &&& 0xffffff).toNat = bits.toNat % 2 ^ 24 :=
    (UInt32.toNat_and bits 0xffffff).trans (Nat.and_two_pow_sub_one_eq_mod bits.toNat 24)
  have h8 : (bits >>> 8).toNat = bits.toNat / 2 ^ 8 :=
    (UInt32.toNat_shiftRight bits 8).trans (Nat.shiftRight_eq_div_pow _ 8)
  have h16 : (bits >>> 16).toNat = bits.toNat / 2 ^ 16 :=
    (UInt32.toNat_shiftRight bits 16).trans (Nat.shiftRight_eq_div_pow _ 16)
  rw [toNat_lowByte, toNat_lowByte, toNat_lowByte, hand, h8, h16]
  omega

/-- **The target is the mantissa times a power of 256**, at every exponent in range. -/
theorem exists_difficultyTarget {h : BlockHeader}
    (hexp : 3 ≤ (h.bits >>> 24).toNat ∧ (h.bits >>> 24).toNat ≤ 32) :
    ∃ target, h.difficultyTarget = .ok target
      ∧ ofLE target.toList
        = (h.bits &&& 0xffffff).toNat * 256 ^ ((h.bits >>> 24).toNat - 3) := by
  obtain ⟨k, hk⟩ : ∃ k, (h.bits >>> 24).toNat = k + 3 := ⟨_, (Nat.sub_add_cancel hexp.1).symm⟩
  have hk32 : k + 3 ≤ 32 := hk ▸ hexp.2
  have hzero : ∀ j, (Bytes.zero 32).toList.getD j 0 = 0 := Bytes.getD_zero
  obtain ⟨d₁, ha₁, hv₁, ho₁⟩ := Bytes.exists_assign (ε := Error) (i := k + 2) (by omega)
    (hzero _) ((h.bits >>> 16) &&& 0xff).toUInt8
  obtain ⟨d₂, ha₂, hv₂, ho₂⟩ := Bytes.exists_assign (ε := Error) (a := d₁) (i := k + 1) (by omega)
    ((ho₁ _ (by omega)).trans (hzero _)) ((h.bits >>> 8) &&& 0xff).toUInt8
  obtain ⟨d₃, ha₃, hv₃, -⟩ := Bytes.exists_assign (ε := Error) (a := d₂) (i := k) (by omega)
    ((ho₂ _ (by omega)).trans ((ho₁ _ (by omega)).trans (hzero _))) (h.bits &&& 0xff).toUInt8
  refine ⟨d₃, ?_, ?_⟩
  · rw [difficultyTarget, if_neg (not_not_intro hexp), hk]
    exact Outcome.bind_eq_ok.mpr ⟨d₁, ha₁, Outcome.bind_eq_ok.mpr ⟨d₂, ha₂, ha₃⟩⟩
  · have hz : ofLE (Bytes.zero 32).toList = 0 := ofLE_replicate_zero 32
    rw [hv₃, hv₂, hv₁, hz, toNat_mantissa, hk, Nat.add_sub_cancel, pow_succ _ (k + 1), pow_succ]
    ring

/-- …and outside the range there is none. -/
theorem difficultyTarget_of_not {h : BlockHeader}
    (hexp : ¬(3 ≤ (h.bits >>> 24).toNat ∧ (h.bits >>> 24).toNat ≤ 32)) :
    h.difficultyTarget
      = .error (.error (.badArgument s!"Difficulty exponent out of range: {h.bits}")) :=
  if_pos hexp

/-! ## The two halves -/

/-- **The work half decides the work rule.** -/
theorem validateWork_eq_ok {h : BlockHeader} {hash : Hash256} :
    h.validateWork hash = .ok () ↔ h.Worked hash := by
  by_cases hexp : 3 ≤ (h.bits >>> 24).toNat ∧ (h.bits >>> 24).toNat ≤ 32
  · obtain ⟨target, htarget, hvalue⟩ := exists_difficultyTarget hexp
    rw [validateWork, htarget, Outcome.ok_bind, Worked, and_iff_right hexp, ← hvalue,
      Hash256.cmp_eq, ← Nat.compare_ne_gt]
    split_ifs with hgt
    · exact iff_of_false (fun h => by cases h) (not_not_intro hgt)
    · exact iff_of_true rfl hgt
  · rw [validateWork, difficultyTarget_of_not hexp]
    exact iff_of_false (fun h => by cases h) fun hworked => hexp hworked.1

theorem recent_ne_nil {prevHeaders : List BlockHeader} (h : prevHeaders ≠ []) :
    recent prevHeaders ≠ [] := by
  have hpos := List.length_pos_iff.mpr h
  refine List.ne_nil_of_length_pos ?_
  rw [recent, List.length_map, List.length_drop]
  omega

/-- There is a median, and **the timestamp half rejects exactly what is before it**. -/
theorem exists_median {h : BlockHeader} {prevHeaders : List BlockHeader} (hprev : prevHeaders ≠ []) :
    ∃ m, IsMedian m (recent prevHeaders)
      ∧ (h.validateTimestamp prevHeaders = .ok () ↔ ¬h.timestamp < m) := by
  have hpos := List.length_pos_iff.mpr (recent_ne_nil hprev)
  have hlen := List.length_insertionSort (· ≤ ·) (recent prevHeaders)
  have hin : ((recent prevHeaders).insertionSort (· ≤ ·)).length / 2
      < ((recent prevHeaders).insertionSort (· ≤ ·)).length := by omega
  obtain ⟨m, hm⟩ : ∃ m, ((recent prevHeaders).insertionSort (· ≤ ·))[
      ((recent prevHeaders).insertionSort (· ≤ ·)).length / 2]? = some m :=
    ⟨_, List.getElem?_eq_getElem hin⟩
  refine ⟨m, isMedian_insertionSort (by rw [← hm, hlen]), ?_⟩
  rw [validateTimestamp, if_neg hprev]
  dsimp only
  rw [Outcome.expect_eq_ok.mpr hm, Outcome.ok_bind]
  split_ifs with hlt
  · exact iff_of_false (fun h => by cases h) (not_not_intro hlt)
  · exact iff_of_true rfl hlt

/-- A header passes the timestamp half when it is later than the median, **or at it**. -/
theorem validateTimestamp_eq_ok {h : BlockHeader} {prevHeaders : List BlockHeader} :
    h.validateTimestamp prevHeaders = .ok () ↔ h.Later prevHeaders ∨ h.AtMedian prevHeaders := by
  by_cases hprev : prevHeaders = []
  · rw [validateTimestamp, if_pos hprev]
    exact iff_of_true rfl (.inl (.inl hprev))
  · obtain ⟨m, hm, hiff⟩ := @exists_median h prevHeaders hprev
    rw [hiff, UInt32.not_lt]
    constructor
    · intro hle
      rcases UInt32.lt_or_eq_of_le hle with hlt | heq
      · exact .inl (.inr ⟨m, hm, hlt⟩)
      · exact .inr ⟨hprev, heq ▸ hm⟩
    · rintro ((hnil | ⟨m', hm', hlt⟩) | ⟨-, hat⟩)
      · exact absurd hnil hprev
      · exact UInt32.le_of_lt (hm.unique hm' ▸ hlt)
      · exact UInt32.le_of_eq (hm.unique hat)

/-- The two cases exclude each other. -/
theorem AtMedian.not_later {h : BlockHeader} {prevHeaders : List BlockHeader}
    (hat : h.AtMedian prevHeaders) : ¬h.Later prevHeaders := by
  rintro (hnil | ⟨m, hm, hlt⟩)
  · exact hat.1 hnil
  · exact UInt32.lt_irrefl _ (hm.unique hat.2 ▸ hlt)

/-! ## The whole -/

theorem validate_eq_ok {h : BlockHeader} {hash : Hash256} {prevHeaders : List BlockHeader} :
    h.validate hash prevHeaders = .ok ()
      ↔ (h.Later prevHeaders ∨ h.AtMedian prevHeaders) ∧ h.Worked hash := by
  rw [validate, Outcome.bind_eq_ok, ← validateTimestamp_eq_ok, ← validateWork_eq_ok]
  exact ⟨fun ⟨_, ht, hw⟩ => ⟨ht, hw⟩, fun ⟨ht, hw⟩ => ⟨(), ht, hw⟩⟩

/-- **Validation decides the two rules except at the median**: what has enough work and the median
as its timestamp is let through. -/
theorem validate_ok_iff_rules (h : BlockHeader) (hash : Hash256) (prevHeaders : List BlockHeader) :
    (h.validate hash prevHeaders = .ok () ↔ h.Later prevHeaders ∧ h.Worked hash)
      ↔ prevHeaders = [] ∨ ¬IsMedian h.timestamp (recent prevHeaders) ∨ ¬h.Worked hash := by
  rw [validate_eq_ok]
  constructor
  · intro hiff
    by_contra hnot
    simp only [not_or, not_not] at hnot
    obtain ⟨hne, hmed, hworked⟩ := hnot
    have hat : h.AtMedian prevHeaders := ⟨hne, hmed⟩
    exact hat.not_later (hiff.mp ⟨.inr hat, hworked⟩).1
  · rintro hcond
    constructor
    · rintro ⟨hlater | hat, hworked⟩
      · exact ⟨hlater, hworked⟩
      · rcases hcond with hnil | hmed | hno
        · exact absurd hnil hat.1
        · exact absurd hat.2 hmed
        · exact absurd hworked hno
    · exact fun ⟨hlater, hworked⟩ => ⟨.inl hlater, hworked⟩

/-- A header at second 7, with the largest target there is. -/
def atSeven : BlockHeader := { (default : BlockHeader) with timestamp := 7, bits := 0x20ffffff }

/-- **A second header of the same second passes**, though it is not later than the median. -/
theorem not_validate_ok_iff_rules :
    atSeven.validate (Bytes.zero 32) [atSeven] = .ok ()
      ∧ ¬(atSeven.Later [atSeven] ∧ atSeven.Worked (Bytes.zero 32)) := by
  have hmed : IsMedian atSeven.timestamp (recent [atSeven]) :=
    ⟨[7], List.Perm.refl _, List.pairwise_singleton _ _, rfl⟩
  refine ⟨by decide +kernel, fun hrules => ?_⟩
  exact AtMedian.not_later ⟨List.cons_ne_nil _ _, hmed⟩ hrules.1

end BlockHeader

end Bitspend.Wire
