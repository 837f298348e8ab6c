import Bitspend.Machinery.Canonical
import Bitspend.Machinery.Sha256
import Bitspend.Wire.Truncation

/-!
# Wire/Canonical — the bytes and the hash that stand for a transaction

Two questions about one serialization.  A decoder should accept one spelling of a transaction only:
every field has one, except the counts, of which `var_int::read` takes any of four forms; so a
transaction or a block is written back as the bytes it was read from exactly when each count is in
its shortest form.  And a transaction is to be known by an id that its signatures do not change:
`Tx::hash` goes through `Tx::write`, which writes the witnesses whenever there are any, so it is the
id exactly for transactions without them.
-/

namespace Bitspend.Wire

/-! ## Counts in their shortest form -/

namespace VarInt

/-- `var_int::read`, refusing an integer in a longer form than `var_int::write` gives it. -/
def readMinimal : Decoder Error UInt64 := fun s =>
  match VarInt.read s with
  | .ok (n, rest) =>
    if s.length = VarInt.size n + rest.length then .ok (n, rest)
    else .error (.error (.badData "non-canonical var int"))
  | .error e => .error e

/-- An integer of nine bytes is written as its marker and eight… -/
theorem write_of_size_nine {n : UInt64} (h : VarInt.size n = 9) :
    emitted (VarInt.write n) = 0xff :: u64LE n := by
  unfold VarInt.size at h
  split_ifs at h with h₁ h₂ h₃
  · omega
  · omega
  · omega
  · rw [VarInt.write, if_neg h₁, if_neg h₂, if_neg h₃]
    rfl

/-- …of five, as its marker and four… -/
theorem write_of_size_five {n : UInt64} (h : VarInt.size n = 5) :
    emitted (VarInt.write n) = 0xfe :: u32LE n.toUInt32 := by
  unfold VarInt.size at h
  split_ifs at h with h₁ h₂ h₃
  · omega
  · omega
  · rw [VarInt.write, if_neg h₁, if_neg h₂, if_pos h₃]
    rfl
  · omega

/-- …of three, as its marker and two… -/
theorem write_of_size_three {n : UInt64} (h : VarInt.size n = 3) :
    emitted (VarInt.write n) = 0xfd :: u16LE n.toUInt16 := by
  unfold VarInt.size at h
  split_ifs at h with h₁ h₂
  · omega
  · rw [VarInt.write, if_neg h₁, if_pos h₂]
    rfl
  · omega
  · omega

/-- …and of one, as itself. -/
theorem write_of_size_one {n : UInt64} (h : VarInt.size n = 1) :
    emitted (VarInt.write n) = [n.toUInt8] := by
  unfold VarInt.size at h
  split_ifs at h with h₁
  · rw [VarInt.write, if_pos h₁]
    rfl
  · omega
  · omega
  · omega

/-- What follows a first byte, and that a form as short as the size is the one written. -/
theorem readRest_spelled {n0 : UInt8} {n : UInt64} {s rest : List UInt8}
    (h : VarInt.readRest n0 s = .ok (n, rest)) :
    ∃ tail, s = tail ++ rest
      ∧ (VarInt.size n = 1 + tail.length → emitted (VarInt.write n) = n0 :: tail) := by
  unfold VarInt.readRest at h
  split_ifs at h with h1 h2 h3
  · obtain ⟨tail, rfl, rfl⟩ := Spells.readU64.of_eq_ok Takes.readU64 h
    refine ⟨_, rfl, fun hsize => ?_⟩
    rw [length_u64LE] at hsize
    rw [write_of_size_nine hsize, h1]
  · obtain ⟨m, s₁, hm, h⟩ := Decoder.bind_eq_ok.mp h
    cases h
    obtain ⟨tail, rfl, rfl⟩ := Spells.readU32.of_eq_ok Takes.readU32 hm
    refine ⟨_, rfl, fun hsize => ?_⟩
    rw [length_u32LE] at hsize
    rw [write_of_size_five hsize, h2, UInt32.toUInt32_toUInt64]
  · obtain ⟨m, s₁, hm, h⟩ := Decoder.bind_eq_ok.mp h
    cases h
    obtain ⟨tail, rfl, rfl⟩ := Spells.readU16.of_eq_ok Takes.readU16 hm
    refine ⟨_, rfl, fun hsize => ?_⟩
    rw [length_u16LE] at hsize
    rw [write_of_size_three hsize, h3, UInt16.toUInt16_toUInt64]
  · cases h
    refine ⟨[], rfl, fun hsize => ?_⟩
    rw [write_of_size_one hsize, UInt8.toUInt8_toUInt64]

/-- **An integer has one spelling of its size**; the others are longer. -/
theorem canon : Canon VarInt.read readMinimal fun e n => e = emitted (VarInt.write n) := by
  intro s n rest h
  obtain ⟨n0, s₁, hn0, hrest⟩ := Decoder.bind_eq_ok.mp h
  obtain rfl := readU8_eq_ok.mp hn0
  obtain ⟨tail, rfl, hshort⟩ := readRest_spelled hrest
  obtain ⟨used, hused, hle, -⟩ := VarInt.whole _ n rest h
  obtain rfl : n0 :: tail = used := List.append_cancel_right hused
  refine ⟨n0 :: tail, _, rfl, rfl, ?_⟩
  rw [VarInt.length_write]
  rw [List.length_cons] at hle ⊢
  have hmin : readMinimal (n0 :: (tail ++ rest))
      = if (n0 :: (tail ++ rest)).length = VarInt.size n + rest.length then .ok (n, rest)
        else .error (.error (.badData "non-canonical var int")) := by
    rw [readMinimal, h]
  rw [List.length_cons, List.length_append] at hmin
  rcases Nat.lt_or_ge (VarInt.size n) (tail.length + 1) with hlt | hge
  · refine .inr ⟨hlt, fun x hx => ?_⟩
    rw [hmin, if_neg (by omega)] at hx
    cases hx
  · refine .inl ⟨(hshort (by omega)).symm, ?_⟩
    rw [hmin, if_pos (by omega)]

end VarInt

/-- The count of a list that was read with it. -/
theorem writeLen_eq {α : Type} {as : List α} {n : UInt64} (h : as.length = n.toNat) :
    VarInt.writeLen as = VarInt.write n := by
  rw [VarInt.writeLen, h, UInt64.ofNat_toNat]

/-! ## The readers, over a reader of counts -/

section ReadWith

variable (varInt : Decoder Error UInt64)

/-- `TxIn::read`, with its count read by `varInt`. -/
def TxIn.readWith : Decoder Error TxIn := do
  let prevOutput ← OutPoint.read
  let scriptLen ← varInt
  let unlockScript ← readMany scriptLen.toNat readU8
  let sequence ← readU32
  pure { prevOutput, unlockScript, sequence }

/-- `TxOut::read`, with its count read by `varInt`. -/
def TxOut.readWith : Decoder Error TxOut := do
  let satoshis ← readI64
  let scriptLen ← varInt
  let lockScript ← readMany scriptLen.toNat readU8
  pure { satoshis, lockScript }

/-- `TxWitnessData::read`, with its count read by `varInt`. -/
def TxWitnessData.readWith : Decoder Error TxWitnessData := do
  let witnessLen ← varInt
  let witnessData ← readMany witnessLen.toNat readU8
  pure { witnessData }

/-- `TxWitness::read`, with its counts read by `varInt`. -/
def TxWitness.readWith : Decoder Error TxWitness := do
  let witnessLen ← varInt
  let witness ← readMany witnessLen.toNat (TxWitnessData.readWith varInt)
  pure { witness }

/-- The segwit branch of `Tx::read`, with its counts read by `varInt`. -/
def Tx.readSegwitWith (version : UInt32) : Decoder Error Tx := do
  let segwitFlag ← readU8
  if segwitFlag = 1 then do
    let nInputs ← varInt
    let inputs ← readMany nInputs.toNat (TxIn.readWith varInt)
    let nOutputs ← varInt
    let outputs ← readMany nOutputs.toNat (TxOut.readWith varInt)
    let witnesses ← readMany nInputs.toNat (TxWitness.readWith varInt)
    let lockTime ← readU32
    pure { version, inputs, flag := some segwitFlag, outputs, lockTime,
           witnesses := some witnesses }
  else Decoder.panicWith "cant flag this"

/-- The other branch of `Tx::read`, with its counts read by `varInt`. -/
def Tx.readLegacyWith (version : UInt32) (nInputs : UInt64) : Decoder Error Tx := do
  let inputs ← readMany nInputs.toNat (TxIn.readWith varInt)
  let nOutputs ← varInt
  let outputs ← readMany nOutputs.toNat (TxOut.readWith varInt)
  let lockTime ← readU32
  pure { version, inputs, outputs, lockTime, witnesses := none, flag := none }

/-- `Tx::read`, with its counts read by `varInt`. -/
def Tx.readWith : Decoder Error Tx := do
  let version ← readI32
  let nInputs ← varInt
  if nInputs = 0 then Tx.readSegwitWith varInt version.toUInt32
  else Tx.readLegacyWith varInt version.toUInt32 nInputs

/-- `Block::read`, with its counts read by `varInt`. -/
def Block.readWith : Decoder Error Block := do
  let header ← BlockHeader.read
  let txnCount ← varInt
  let txns ← readMany txnCount.toNat (Tx.readWith varInt)
  pure { header, txns }

end ReadWith

theorem Tx.read_eq_readWith : Tx.read = Tx.readWith VarInt.read := rfl

theorem Block.read_eq_readWith : Block.read = Block.readWith VarInt.read := rfl

/-! ## Canonical decoding -/

theorem canon_countedBytes (n : ℕ) : Canon (readMany n (readU8 : Decoder Error UInt8))
    (readMany n readU8) fun e bs => bs.length = n ∧ e = bs := by
  have hbyte : Canon (readU8 : Decoder Error UInt8) readU8 fun e b => e = [b] :=
    Canon.of_takes Takes.readU8 Spells.readU8
  refine (hbyte.readMany n).mono fun e bs h => ⟨h.1, ?_⟩
  rw [h.2, List.flatMap_singleton']

theorem OutPoint.spells :
    Spells OutPoint.read (32 + (4 + 0)) fun u o => u = emitted o.write := by
  refine Spells.bind (Spells.readSome 32) fun hash u hu => ?_
  refine Spells.bind Spells.readU32 fun index v hv => Spells.pure ?_
  simp [OutPoint.write, Hash256.write, hu, hv]

theorem OutPoint.canon : Canon OutPoint.read OutPoint.read fun e o => e = emitted o.write :=
  Canon.of_takes OutPoint.takes OutPoint.spells

theorem BlockHeader.spells : Spells BlockHeader.read (4 + (32 + (32 + (4 + (4 + (4 + 0))))))
    fun u h => u = emitted h.write := by
  refine Spells.bind Spells.readU32 fun version a ha => ?_
  refine Spells.bind (Spells.readSome 32) fun prevHash b hb => ?_
  refine Spells.bind (Spells.readSome 32) fun merkleRoot c hc => ?_
  refine Spells.bind Spells.readU32 fun timestamp d hd => ?_
  refine Spells.bind Spells.readU32 fun bits e he => ?_
  refine Spells.bind Spells.readU32 fun nonce f hf => Spells.pure ?_
  simp [BlockHeader.write, Hash256.write, ha, hb, hc, hd, he, hf]

theorem BlockHeader.canon :
    Canon BlockHeader.read BlockHeader.read fun e h => e = emitted h.write :=
  Canon.of_takes BlockHeader.takes BlockHeader.spells

theorem TxIn.canon : Canon (TxIn.readWith VarInt.read) (TxIn.readWith VarInt.readMinimal)
    fun e t => e = emitted t.write := by
  refine OutPoint.canon.bind fun prevOutput a ha => VarInt.canon.bind fun n b hb => ?_
  refine (canon_countedBytes n.toNat).bind fun script c hc => ?_
  refine Canon.bind (Canon.of_takes Takes.readU32 Spells.readU32) fun sequence d hd => Canon.pure ?_
  simp [TxIn.write, writeLen_eq hc.1, ha, hb, hc.2, hd]

theorem TxOut.canon : Canon (TxOut.readWith VarInt.read) (TxOut.readWith VarInt.readMinimal)
    fun e t => e = emitted t.write := by
  refine Canon.bind (Canon.of_takes Takes.readI64 Spells.readI64) fun satoshis a ha => ?_
  refine VarInt.canon.bind fun n b hb => ?_
  refine (canon_countedBytes n.toNat).bind fun script c hc => Canon.pure ?_
  simp [TxOut.write, writeLen_eq hc.1, ha, hb, hc.2]

theorem TxWitnessData.canon : Canon (TxWitnessData.readWith VarInt.read)
    (TxWitnessData.readWith VarInt.readMinimal) fun e d => e = emitted d.write := by
  refine VarInt.canon.bind fun n b hb => ?_
  refine (canon_countedBytes n.toNat).bind fun data c hc => Canon.pure ?_
  simp [TxWitnessData.write, writeLen_eq hc.1, hb, hc.2]

theorem TxWitness.canon : Canon (TxWitness.readWith VarInt.read)
    (TxWitness.readWith VarInt.readMinimal) fun e w => e = emitted w.write := by
  refine VarInt.canon.bind fun n b hb => ?_
  refine (TxWitnessData.canon.readMany n.toNat).bind fun witness c hc => Canon.pure ?_
  simp [TxWitness.write, writeLen_eq hc.1, hb, hc.2]

namespace Tx

theorem canon_readLegacy (version : UInt32) (n : UInt64) :
    Canon (readLegacyWith VarInt.read version n) (readLegacyWith VarInt.readMinimal version n)
      fun e t => u32LE version ++ emitted (VarInt.write n) ++ e = emitted t.write := by
  refine (TxIn.canon.readMany n.toNat).bind fun inputs a ha => ?_
  refine VarInt.canon.bind fun m b hb => ?_
  refine (TxOut.canon.readMany m.toNat).bind fun outputs c hc => ?_
  refine Canon.bind (Canon.of_takes Takes.readU32 Spells.readU32) fun lockTime d hd => Canon.pure ?_
  simp [Tx.write, writeInputsOutputs, writeLen_eq ha.1, writeLen_eq hc.1, ha.2, hb, hc.2, hd]

theorem canon_readSegwit (version : UInt32) :
    Canon (readSegwitWith VarInt.read version) (readSegwitWith VarInt.readMinimal version)
      fun e t => u32LE version ++ [0] ++ e = emitted t.write := by
  refine Canon.bind (Canon.of_takes Takes.readU8 Spells.readU8) fun flag y hy => ?_
  split_ifs with hflag
  · refine VarInt.canon.bind fun n z hz => ?_
    refine (TxIn.canon.readMany n.toNat).bind fun inputs a ha => ?_
    refine VarInt.canon.bind fun m b hb => ?_
    refine (TxOut.canon.readMany m.toNat).bind fun outputs c hc => ?_
    refine (TxWitness.canon.readMany n.toNat).bind fun witnesses d hd => ?_
    refine Canon.bind (Canon.of_takes Takes.readU32 Spells.readU32) fun lockTime e he =>
      Canon.pure ?_
    simp [Tx.write, writeInputsOutputs, writeLen_eq ha.1, writeLen_eq hc.1, ha.2, hb, hc.2, hd.2,
      he, hy, hz, hflag]
  · exact Canon.panicWith _

theorem canon : Canon (Tx.readWith VarInt.read) (Tx.readWith VarInt.readMinimal)
    fun e t => e = emitted t.write := by
  refine Canon.bind (Canon.of_takes Takes.readI32 Spells.readI32) fun version a ha => ?_
  refine VarInt.canon.bind fun n b hb => ?_
  split_ifs with hn
  · -- a zero count is the marker
    refine (canon_readSegwit _).mono fun e t he => ?_
    rw [← he, ha, hb, hn]
    simp [i32LE, VarInt.write]
  · refine (canon_readLegacy _ n).mono fun e t he => ?_
    rw [← he, ha, hb]
    simp [i32LE]

end Tx

theorem Block.canon : Canon (Block.readWith VarInt.read) (Block.readWith VarInt.readMinimal)
    fun e b => e = emitted b.write := by
  refine BlockHeader.canon.bind fun header a ha => VarInt.canon.bind fun n b hb => ?_
  refine (Tx.canon.readMany n.toNat).bind fun txns c hc => Canon.pure ?_
  simp [Block.write, writeLen_eq hc.1, ha, hb, hc.2]

/-- **The counts of a transaction, and of a block, are in their shortest form.** -/
def Tx.Shortest (b : List UInt8) : Prop := ∃ x, Tx.readWith VarInt.readMinimal b = .ok x

@[inherit_doc Tx.Shortest]
def Block.Shortest (b : List UInt8) : Prop := ∃ x, Block.readWith VarInt.readMinimal b = .ok x

/-- **A transaction or a block is written back as the bytes it was read from exactly when these have
their counts in the shortest form.**  Then no other such bytes are read as the same value, and the
hash of a transaction without witnesses is that of the bytes. -/
theorem read_canonical (b : List UInt8) :
    (∀ t rest, Tx.read b = .ok (t, rest) →
      (b = emitted t.write ++ rest ↔ Tx.Shortest b)
      ∧ (Tx.Shortest b →
        (∀ b' rest', Tx.read b' = .ok (t, rest') → Tx.Shortest b' →
          ∃ c, b = c ++ rest ∧ b' = c ++ rest')
        ∧ (t.witnesses = none → ∀ sha256, ∃ c, b = c ++ rest ∧ t.hash sha256 = sha256d sha256 c)))
    ∧ ∀ v rest, Block.read b = .ok (v, rest) →
      (b = emitted v.write ++ rest ↔ Block.Shortest b)
      ∧ (Block.Shortest b → ∀ b' rest', Block.read b' = .ok (v, rest') → Block.Shortest b' →
        ∃ c, b = c ++ rest ∧ b' = c ++ rest') := by
  have htx : ∀ b t rest, Tx.read b = .ok (t, rest) →
      (b = emitted t.write ++ rest ↔ Tx.Shortest b) :=
    fun b t rest h => Tx.canon.iff_of_eq_ok h
  have hblock : ∀ b v rest, Block.read b = .ok (v, rest) →
      (b = emitted v.write ++ rest ↔ Block.Shortest b) :=
    fun b v rest h => Block.canon.iff_of_eq_ok h
  refine ⟨fun t rest h => ⟨htx b t rest h, fun hshort => ⟨fun b' rest' h' hshort' => ?_, ?_⟩⟩,
    fun v rest h => ⟨hblock b v rest h, fun hshort b' rest' h' hshort' => ?_⟩⟩
  · exact ⟨_, (htx b t rest h).mpr hshort, (htx b' t rest' h').mpr hshort'⟩
  · exact fun _ sha256 => ⟨_, (htx b t rest h).mpr hshort, rfl⟩
  · exact ⟨_, (hblock b v rest h).mpr hshort, (hblock b' v rest' h').mpr hshort'⟩

/-- A transaction that spends the first output of the zero hash. -/
def bareTx : Tx :=
  { version := 2, flag := none, inputs := [default], outputs := [], witnesses := none, lockTime := 0 }

/-- Its bytes, with the number of outputs in three bytes. -/
def longTx : List UInt8 :=
  u32LE 2 ++ [1] ++ emitted (default : TxIn).write ++ [0xfd, 0, 0] ++ u32LE 0

/-- A block of no transactions, with their number in three bytes. -/
def longBlock : List UInt8 := emitted (default : BlockHeader).write ++ [0xfd, 0, 0]

/-- **Two byte strings for one transaction**, and two for one block: a count in three bytes is read
as the same count in one, and written back in one. -/
theorem not_read_canonical :
    ¬ (∀ b t rest, Tx.read b = .ok (t, rest) → b = emitted t.write ++ rest)
    ∧ ¬ (∀ b v rest, Block.read b = .ok (v, rest) → b = emitted v.write ++ rest)
    ∧ Tx.read longTx = .ok (bareTx, []) ∧ Tx.read (emitted bareTx.write) = .ok (bareTx, [])
    ∧ longTx ≠ emitted bareTx.write := by
  have hlong : Tx.read longTx = .ok (bareTx, []) := by decide +kernel
  have hblock : Block.read longBlock = .ok (⟨default, []⟩, []) := by decide +kernel
  have hne : longTx ≠ emitted bareTx.write := by decide +kernel
  refine ⟨fun h => hne ?_, fun h => ?_, hlong, by decide +kernel, hne⟩
  · simpa using h longTx bareTx [] hlong
  · have := h longBlock _ _ hblock
    revert this
    decide +kernel

/-- The bytes in the shortest form are the ones written. -/
theorem read_canonical_bareTx :
    Tx.read (emitted bareTx.write) = .ok (bareTx, [])
      ∧ (emitted bareTx.write = emitted bareTx.write ++ [] ↔ Tx.Shortest (emitted bareTx.write))
      ∧ Block.read (emitted (Block.mk default [bareTx]).write) = .ok (⟨default, [bareTx]⟩, [])
      ∧ Block.Shortest (emitted (Block.mk default [bareTx]).write) := by
  have htx : Tx.read (emitted bareTx.write) = .ok (bareTx, []) := by decide +kernel
  have hblock : Block.read (emitted (Block.mk default [bareTx]).write)
      = .ok (⟨default, [bareTx]⟩, []) := by decide +kernel
  refine ⟨htx, ((read_canonical _).1 bareTx [] htx).1, hblock, ?_⟩
  exact ((read_canonical _).2 _ [] hblock).1.mp (List.append_nil _).symm

/-! ## The id of a transaction -/

namespace Tx

/-- The transaction without marker, flag and witnesses. -/
def stripped (t : Tx) : Tx := { t with flag := none, witnesses := none }

/-- **The id of a transaction**: the double SHA-256 of its serialization without witnesses. -/
def txid (sha256 : List UInt8 → Bytes 32) (t : Tx) : Hash256 :=
  sha256d sha256 (emitted t.stripped.write)

/-- The witnesses as they are written, if there are any. -/
def witnessBytes (t : Tx) : Option (List UInt8) :=
  t.witnesses.map fun ws => ws.flatMap fun w => emitted w.write

/-- What `write` emits around the inputs and outputs. -/
theorem emitted_write (t : Tx) :
    emitted t.write = match t.witnessBytes with
      | some ws => u32LE t.version ++ [0, 1] ++ emitted t.writeInputsOutputs ++ ws ++ u32LE t.lockTime
      | none => u32LE t.version ++ emitted t.writeInputsOutputs ++ u32LE t.lockTime := by
  unfold write witnessBytes
  cases t.witnesses with
  | none => simp
  | some ws => simp

/-- **Transactions that differ only in flag and witnesses are written alike exactly when their
witnesses are.** -/
theorem emitted_write_eq_iff {t t' : Tx} (h : t.stripped = t'.stripped) :
    emitted t.write = emitted t'.write ↔ t.witnessBytes = t'.witnessBytes := by
  obtain ⟨version, flag, inputs, outputs, witnesses, lockTime⟩ := t
  obtain ⟨version', flag', inputs', outputs', witnesses', lockTime'⟩ := t'
  simp only [stripped, mk.injEq, true_and] at h
  obtain ⟨rfl, rfl, rfl, rfl⟩ := h
  rw [emitted_write, emitted_write]
  constructor
  · intro heq
    have hlen := congrArg List.length heq
    cases hw : witnessBytes ⟨version, flag, inputs, outputs, witnesses, lockTime⟩ with
    | none =>
      cases hw' : witnessBytes ⟨version, flag', inputs, outputs, witnesses', lockTime⟩ with
      | none => rfl
      | some ws' =>
        rw [hw, hw'] at hlen
        simp [writeInputsOutputs] at hlen
        omega
    | some ws =>
      cases hw' : witnessBytes ⟨version, flag', inputs, outputs, witnesses', lockTime⟩ with
      | none =>
        rw [hw, hw'] at hlen
        simp [writeInputsOutputs] at hlen
        omega
      | some ws' =>
        rw [hw, hw'] at heq
        exact congrArg some (List.append_cancel_left (List.append_cancel_right heq))
  · intro heq
    rw [heq]
    rfl

/-- **`Tx::hash` is the id exactly when there are no witnesses**, among byte strings on which the hash
has no collision; and of transactions that differ only in flag and witnesses it is the same exactly
when these are written alike. -/
theorem hash_eq_txid_iff {sha256 : List UInt8 → Bytes 32} {S : Set (List UInt8)}
    (hsha : Set.InjOn (sha256d sha256) S) {t : Tx} (ht : emitted t.write ∈ S)
    (hs : emitted t.stripped.write ∈ S) :
    (t.hash sha256 = t.txid sha256 ↔ t.witnesses = none)
    ∧ ∀ t' : Tx, t.stripped = t'.stripped → emitted t'.write ∈ S →
      (t.hash sha256 = t'.hash sha256 ↔ t.witnessBytes = t'.witnessBytes) := by
  constructor
  · calc t.hash sha256 = t.txid sha256
        ↔ emitted t.write = emitted t.stripped.write := hsha.eq_iff ht hs
      _ ↔ t.witnessBytes = t.stripped.witnessBytes := emitted_write_eq_iff rfl
      _ ↔ t.witnesses = none := Option.map_eq_none_iff
  · intro t' heq ht'
    exact (hsha.eq_iff ht ht').trans (emitted_write_eq_iff heq)

/-- The transaction above, signed. -/
def signedTx : Tx := { bareTx with flag := some 1, witnesses := some [⟨[⟨[0x30, 0x44]⟩]⟩] }

/-- **A signed transaction is not known by its id**: its hash is neither the id nor the hash it had
without its witnesses. -/
theorem not_hash_eq_txid :
    ¬ (∀ t : Tx, t.hash sha256 = t.txid sha256)
    ∧ signedTx.stripped = bareTx ∧ signedTx.hash sha256 ≠ bareTx.hash sha256 := by
  have hne : signedTx.hash sha256 ≠ signedTx.txid sha256 := by decide +kernel
  exact ⟨fun h => hne (h signedTx), rfl, hne⟩

/-- The signed transaction and the one without witnesses, under the real hash. -/
theorem hash_eq_txid_iff_signedTx :
    (signedTx.hash sha256 = signedTx.txid sha256 ↔ signedTx.witnesses = none)
      ∧ (signedTx.hash sha256 = bareTx.hash sha256 ↔ signedTx.witnessBytes = bareTx.witnessBytes)
      ∧ bareTx.hash sha256 = bareTx.txid sha256 := by
  have hne : sha256d sha256 (emitted signedTx.write) ≠ sha256d sha256 (emitted bareTx.write) := by
    decide +kernel
  have hinj : Set.InjOn (sha256d sha256) {emitted signedTx.write, emitted bareTx.write} := by
    rintro a (rfl | rfl) b (rfl | rfl) hab
    · rfl
    · exact absurd hab hne
    · exact absurd hab.symm hne
    · rfl
  have h := hash_eq_txid_iff hinj (t := signedTx) (.inl rfl) (.inr rfl)
  exact ⟨h.1, h.2 bareTx rfl (.inr rfl), (hash_eq_txid_iff hinj (.inr rfl) (.inr rfl)).1.mpr rfl⟩

end Tx

end Bitspend.Wire
