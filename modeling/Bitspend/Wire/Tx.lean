import Bitspend.Wire.Basic

/-!
# Wire/Tx — transactions, and that reading undoes writing

`messages/{out_point, tx_in, tx_out, witness, tx}.rs`.  A transaction with witnesses is written with
a marker — a zero where the input count stands — and a flag; without witnesses the count comes
first.  A reader tells the two apart by that zero alone, so a transaction with no inputs and no
witnesses is not recoverable: `Tx.WellFormed` is exactly what `Tx.read` can have produced.  The readers
here and in the next two modules allot what they are asked to; `Wire/Capacity` has them with the size of
each buffer checked.
-/

namespace Bitspend.Wire

/-! ## Outpoints, inputs, outputs -/

/-- `OutPoint`: a reference to a transaction output. -/
structure OutPoint where
  hash : Hash256
  index : UInt32
  deriving Repr, DecidableEq, Inhabited

namespace OutPoint

/-- `OutPoint::SIZE`. -/
def SIZE : ℕ := 36

/-- `OutPoint::read`. -/
def read : Decoder Error OutPoint := do
  let hash ← Hash256.read
  let index ← readU32
  pure { hash, index }

/-- `OutPoint::write`. -/
def write (o : OutPoint) : List WriteCall := o.hash.write ++ [.writeAll (u32LE o.index)]

@[simp] theorem length_write (o : OutPoint) : (emitted o.write).length = SIZE := by
  simp [write, SIZE]

theorem decodes (o : OutPoint) : Decodes read (emitted o.write) o :=
  (o.hash.decodes.bind ((Decodes.readU32 o.index).map fun i => OutPoint.mk o.hash i)).congr
    (by simp [write])

end OutPoint

/-- `TxIn`: a transaction input. -/
structure TxIn where
  prevOutput : OutPoint
  unlockScript : List UInt8
  sequence : UInt32
  deriving Repr, DecidableEq, Inhabited

namespace TxIn

/-- `TxIn::size`. -/
def size (t : TxIn) : ℕ :=
  OutPoint.SIZE + VarInt.sizeLen t.unlockScript + t.unlockScript.length + 4

/-- `TxIn::read`. -/
def read : Decoder Error TxIn := do
  let prevOutput ← OutPoint.read
  let scriptLen ← VarInt.read
  let unlockScript ← readMany scriptLen.toNat readU8
  let sequence ← readU32
  pure { prevOutput, unlockScript, sequence }

/-- `TxIn::write`. -/
def write (t : TxIn) : List WriteCall :=
  t.prevOutput.write ++ VarInt.writeLen t.unlockScript
    ++ t.unlockScript.map (fun b => .writeAll [b]) ++ [.writeAll (u32LE t.sequence)]

end TxIn

/-- Bytes pushed one `write_u8` at a time. -/
@[simp] theorem emitted_map_writeAll (bs : List UInt8) :
    emitted (bs.map fun b => WriteCall.writeAll [b]) = bs := by
  induction bs with
  | nil => rfl
  | cons b bs ih => simp [ih]

namespace TxIn

@[simp] theorem length_write (t : TxIn) : (emitted t.write).length = t.size := by
  simp [write, size, VarInt.writeLen, VarInt.sizeLen]
  omega

theorem one_le_size (t : TxIn) : 1 ≤ t.size := by
  simp only [size]
  omega

theorem decodes {t : TxIn} (h : t.size < 2 ^ 64) : Decodes read (emitted t.write) t := by
  have hlen : t.unlockScript.length < 2 ^ 64 := by
    simp only [size] at h
    omega
  have hseq := (Decodes.readU32 (ε := Error) t.sequence).map
    fun s => TxIn.mk t.prevOutput t.unlockScript s
  exact (t.prevOutput.decodes.bind ((VarInt.decodes _).bind
    ((decodes_countedBytes hlen).bind hseq))).congr (by simp [write, VarInt.writeLen])

end TxIn

/-- `TxOut`: a transaction output. -/
structure TxOut where
  satoshis : Int64
  lockScript : List UInt8
  deriving DecidableEq, Inhabited

namespace TxOut

/-- `TxOut::size`. -/
def size (t : TxOut) : ℕ := 8 + VarInt.sizeLen t.lockScript + t.lockScript.length

/-- `TxOut::read`. -/
def read : Decoder Error TxOut := do
  let satoshis ← readI64
  let scriptLen ← VarInt.read
  let lockScript ← readMany scriptLen.toNat readU8
  pure { satoshis, lockScript }

/-- `TxOut::write`. -/
def write (t : TxOut) : List WriteCall :=
  [.writeAll (i64LE t.satoshis)] ++ VarInt.writeLen t.lockScript
    ++ t.lockScript.map (fun b => .writeAll [b])

@[simp] theorem length_write (t : TxOut) : (emitted t.write).length = t.size := by
  simp [write, size, VarInt.writeLen, VarInt.sizeLen]
  omega

theorem one_le_size (t : TxOut) : 1 ≤ t.size := by
  simp only [size]
  omega

theorem decodes {t : TxOut} (h : t.size < 2 ^ 64) : Decodes read (emitted t.write) t := by
  have hlen : t.lockScript.length < 2 ^ 64 := by
    simp only [size] at h
    omega
  have hscript := (decodes_countedBytes hlen).map fun s => TxOut.mk t.satoshis s
  exact ((Decodes.readI64 t.satoshis).bind ((VarInt.decodes _).bind hscript)).congr
    (by simp [write, VarInt.writeLen])

end TxOut

/-! ## Witnesses -/

/-- `TxWitnessData`: one item of a witness stack. -/
structure TxWitnessData where
  witnessData : List UInt8
  deriving Repr, DecidableEq, Inhabited

namespace TxWitnessData

/-- `TxWitnessData::size`. -/
def size (d : TxWitnessData) : ℕ := VarInt.sizeLen d.witnessData + d.witnessData.length

/-- `TxWitnessData::read`. -/
def read : Decoder Error TxWitnessData := do
  let witnessLen ← VarInt.read
  let witnessData ← readMany witnessLen.toNat readU8
  pure { witnessData }

/-- `TxWitnessData::write`. -/
def write (d : TxWitnessData) : List WriteCall :=
  VarInt.writeLen d.witnessData ++ d.witnessData.map (fun b => .writeAll [b])

instance : Payload TxWitnessData := ⟨write, size⟩

@[simp] theorem length_write (d : TxWitnessData) : (emitted d.write).length = d.size := by
  simp [write, size, VarInt.writeLen, VarInt.sizeLen]

theorem one_le_size (d : TxWitnessData) : 1 ≤ d.size :=
  le_add_right (VarInt.one_le_size _)

theorem decodes {d : TxWitnessData} (h : d.size < 2 ^ 64) : Decodes read (emitted d.write) d := by
  have hlen : d.witnessData.length < 2 ^ 64 := by
    simp only [size] at h
    omega
  exact ((VarInt.decodes _).bind ((decodes_countedBytes hlen).map TxWitnessData.mk)).congr
    (by simp [write, VarInt.writeLen])

end TxWitnessData

/-- `TxWitness`: the witness stack of one input. -/
structure TxWitness where
  witness : List TxWitnessData
  deriving Repr, DecidableEq, Inhabited

namespace TxWitness

/-- `TxWitness::size`. -/
def size (w : TxWitness) : ℕ := VarInt.sizeLen w.witness + (w.witness.map TxWitnessData.size).sum

/-- `TxWitness::read`. -/
def read : Decoder Error TxWitness := do
  let witnessLen ← VarInt.read
  let witness ← readMany witnessLen.toNat TxWitnessData.read
  pure { witness }

/-- `TxWitness::write`. -/
def write (w : TxWitness) : List WriteCall :=
  VarInt.writeLen w.witness ++ w.witness.flatMap TxWitnessData.write

instance : Payload TxWitness := ⟨write, size⟩

@[simp] theorem length_write (w : TxWitness) : (emitted w.write).length = w.size := by
  rw [write, emitted_append, emitted_flatMap, List.length_append,
    length_flatMap_eq_sum fun d _ => TxWitnessData.length_write d, VarInt.writeLen,
    VarInt.length_write]
  rfl

theorem one_le_size (w : TxWitness) : 1 ≤ w.size :=
  le_add_right (VarInt.one_le_size _)

theorem decodes {w : TxWitness} (h : w.size < 2 ^ 64) : Decodes read (emitted w.write) w := by
  have hsum : (w.witness.map TxWitnessData.size).sum < 2 ^ 64 := by
    simp only [size] at h
    omega
  have hitems := decodes_counted_of_sum (fun d _ => d.one_le_size) hsum
    fun d _ hd => TxWitnessData.decodes hd
  exact ((VarInt.decodes _).bind (hitems.map TxWitness.mk)).congr (by simp [write, VarInt.writeLen])

end TxWitness

/-! ## Transactions -/

/-- `Tx`: a transaction.  `flag` and `witnesses` are present for a segwit serialization. -/
structure Tx where
  version : UInt32
  flag : Option UInt8
  inputs : List TxIn
  outputs : List TxOut
  witnesses : Option (List TxWitness)
  lockTime : UInt32
  deriving DecidableEq, Inhabited

namespace Tx

/-- The segwit branch of `Tx::read`, behind the marker: a flag other than one panics. -/
def readSegwit (version : UInt32) : Decoder Error Tx := do
  let segwitFlag ← readU8
  if segwitFlag = 1 then do
    let nInputs ← VarInt.read
    let inputs ← readMany nInputs.toNat TxIn.read
    let nOutputs ← VarInt.read
    let outputs ← readMany nOutputs.toNat TxOut.read
    let witnesses ← readMany nInputs.toNat TxWitness.read
    let lockTime ← readU32
    pure { version, inputs, flag := some segwitFlag, outputs, lockTime,
           witnesses := some witnesses }
  else Decoder.panicWith "cant flag this"

/-- The other branch of `Tx::read`, behind the input count. -/
def readLegacy (version : UInt32) (nInputs : UInt64) : Decoder Error Tx := do
  let inputs ← readMany nInputs.toNat TxIn.read
  let nOutputs ← VarInt.read
  let outputs ← readMany nOutputs.toNat TxOut.read
  let lockTime ← readU32
  pure { version, inputs, outputs, lockTime, witnesses := none, flag := none }

/-- `Tx::read`: a zero input count is the segwit marker.  The capacities of the vectors, which follow the
counts, are checked in `Tx.readChecked`. -/
def read : Decoder Error Tx := do
  let version ← readI32
  let nInputs ← VarInt.read
  if nInputs = 0 then readSegwit version.toUInt32 else readLegacy version.toUInt32 nInputs

/-- The inputs and outputs, each list behind its count. -/
def writeInputsOutputs (t : Tx) : List WriteCall :=
  VarInt.writeLen t.inputs ++ t.inputs.flatMap TxIn.write
    ++ VarInt.writeLen t.outputs ++ t.outputs.flatMap TxOut.write

/-- `Tx::write`.  The marker and the flag are constants: the stored `flag` is not consulted. -/
def write (t : Tx) : List WriteCall :=
  match t.witnesses with
  | some witnesses =>
    [.writeAll (u32LE t.version), .writeAll [0], .writeAll [1]] ++ t.writeInputsOutputs
      ++ witnesses.flatMap TxWitness.write ++ [.writeAll (u32LE t.lockTime)]
  | none =>
    [.writeAll (u32LE t.version)] ++ t.writeInputsOutputs ++ [.writeAll (u32LE t.lockTime)]

/-- `Tx::size`. -/
def size (t : Tx) : ℕ :=
  8 + (match t.witnesses with
      | some witnesses => 2 + (witnesses.map TxWitness.size).sum
      | none => 0)
    + VarInt.sizeLen t.inputs + (t.inputs.map TxIn.size).sum
    + VarInt.sizeLen t.outputs + (t.outputs.map TxOut.size).sum

instance : Payload Tx := ⟨write, size⟩

/-- `Tx::hash`: the double SHA-256 of everything `write` emits. -/
def hash (sha256 : List UInt8 → Bytes 32) (t : Tx) : Hash256 := sha256d sha256 (emitted t.write)

/-- What `Tx.read` can return: a legacy transaction has an input, a segwit one has flag one and one
witness per input. -/
def WellFormed (t : Tx) : Prop :=
  (t.witnesses = none ∧ t.flag = none ∧ t.inputs ≠ []) ∨
    (t.flag = some 1 ∧ ∃ ws, t.witnesses = some ws ∧ ws.length = t.inputs.length)

instance (t : Tx) : Decidable t.WellFormed :=
  match hw : t.witnesses with
  | none => decidable_of_iff (t.flag = none ∧ t.inputs ≠ []) (by simp [WellFormed, hw])
  | some ws => decidable_of_iff (t.flag = some 1 ∧ ws.length = t.inputs.length)
      (by simp [WellFormed, hw])

theorem length_writeInputsOutputs (t : Tx) :
    (emitted t.writeInputsOutputs).length =
      VarInt.sizeLen t.inputs + (t.inputs.map TxIn.size).sum
        + VarInt.sizeLen t.outputs + (t.outputs.map TxOut.size).sum := by
  simp only [writeInputsOutputs, emitted_append, emitted_flatMap, List.length_append,
    VarInt.writeLen, VarInt.sizeLen, VarInt.length_write]
  rw [length_flatMap_eq_sum fun i _ => TxIn.length_write i,
    length_flatMap_eq_sum fun o _ => TxOut.length_write o]

@[simp] theorem length_write (t : Tx) : (emitted t.write).length = t.size := by
  have hio := length_writeInputsOutputs t
  unfold write size
  cases t.witnesses with
  | none =>
    simp [hio]
    omega
  | some ws =>
    have hws : (ws.flatMap fun w => emitted w.write).length = (ws.map TxWitness.size).sum :=
      length_flatMap_eq_sum fun w _ => TxWitness.length_write w
    simp only [emitted_append, emitted_flatMap, List.length_append, hio, hws]
    simp
    omega

theorem one_le_size (t : Tx) : 1 ≤ t.size := by
  simp only [size]
  omega

/-- The legacy branch, read back behind its own input count. -/
theorem decodes_readLegacy {t : Tx} (hw : t.witnesses = none) (hf : t.flag = none)
    (hin : (t.inputs.map TxIn.size).sum < 2 ^ 64) (hout : (t.outputs.map TxOut.size).sum < 2 ^ 64) :
    Decodes (readLegacy t.version (UInt64.ofNat t.inputs.length))
      (t.inputs.flatMap (fun i => emitted i.write) ++ (emitted (VarInt.writeLen t.outputs)
        ++ (t.outputs.flatMap (fun o => emitted o.write) ++ u32LE t.lockTime))) t := by
  obtain ⟨version, flag, inputs, outputs, witnesses, lockTime⟩ := t
  subst hw hf
  have hins := decodes_counted_of_sum (fun i _ => i.one_le_size) hin fun i _ hi => TxIn.decodes hi
  have houts := decodes_counted_of_sum (fun o _ => o.one_le_size) hout
    fun o _ ho => TxOut.decodes ho
  exact hins.bind ((VarInt.decodes _).bind (houts.bind ((Decodes.readU32 lockTime).map _)))

/-- The segwit branch, read back behind the marker. -/
theorem decodes_readSegwit {t : Tx} {ws : List TxWitness} (hw : t.witnesses = some ws)
    (hf : t.flag = some 1) (hlen : ws.length = t.inputs.length)
    (hin : (t.inputs.map TxIn.size).sum < 2 ^ 64) (hout : (t.outputs.map TxOut.size).sum < 2 ^ 64)
    (hwit : (ws.map TxWitness.size).sum < 2 ^ 64) :
    Decodes (readSegwit t.version)
      ([1] ++ (emitted (VarInt.writeLen t.inputs) ++ (t.inputs.flatMap (fun i => emitted i.write)
        ++ (emitted (VarInt.writeLen t.outputs) ++ (t.outputs.flatMap (fun o => emitted o.write)
          ++ (ws.flatMap (fun w => emitted w.write) ++ u32LE t.lockTime)))))) t := by
  obtain ⟨version, flag, inputs, outputs, witnesses, lockTime⟩ := t
  subst hw hf
  have hins := decodes_counted_of_sum (fun i _ => i.one_le_size) hin fun i _ hi => TxIn.decodes hi
  have houts := decodes_counted_of_sum (fun o _ => o.one_le_size) hout
    fun o _ ho => TxOut.decodes ho
  have hws := decodes_counted_of_sum (fun w _ => w.one_le_size) hwit
    fun w _ h => TxWitness.decodes h
  rw [hlen] at hws
  refine (Decodes.readU8 1).bind ?_
  rw [if_pos rfl]
  exact (VarInt.decodes _).bind (hins.bind ((VarInt.decodes _).bind
    (houts.bind (hws.bind ((Decodes.readU32 lockTime).map _)))))

/-- **A well-formed transaction is read back.**  The two shapes part at the count that follows the
version: zero is the marker, and a legacy transaction has an input. -/
theorem decodes {t : Tx} (hwf : t.WellFormed) (h : t.size < 2 ^ 64) :
    Decodes read (emitted t.write) t := by
  have hversion : t.version.toInt32.toUInt32 = t.version := by simp
  have hin : (t.inputs.map TxIn.size).sum < 2 ^ 64 := by
    simp only [size] at h
    omega
  have hout : (t.outputs.map TxOut.size).sum < 2 ^ 64 := by
    simp only [size] at h
    omega
  obtain ⟨hw, hf, hne⟩ | ⟨hf, ws, hw, hlen⟩ := hwf
  · -- the count is the number of inputs, hence not the marker
    have hcount : t.inputs.length < 2 ^ 64 := by
      have := List.length_le_sum_of_one_le (t.inputs.map TxIn.size)
        (by simpa using fun i _ => TxIn.one_le_size i)
      simp only [List.length_map] at this
      omega
    have hpos : UInt64.ofNat t.inputs.length ≠ 0 := by
      intro h0
      have := congrArg UInt64.toNat h0
      rw [UInt64.toNat_ofNat_of_lt' hcount] at this
      exact hne (List.length_eq_zero_iff.mp (by simpa using this))
    have hbody := decodes_readLegacy hw hf hin hout
    rw [← hversion, ← if_neg (t := readSegwit t.version.toInt32.toUInt32)
      (e := readLegacy t.version.toInt32.toUInt32 (UInt64.ofNat t.inputs.length)) hpos] at hbody
    exact ((Decodes.readI32 t.version.toInt32).bind ((VarInt.decodes _).bind hbody)).congr
      (by simp [write, hw, writeInputsOutputs, VarInt.writeLen, i32LE])
  · have hwit : (ws.map TxWitness.size).sum < 2 ^ 64 := by
      simp only [size, hw] at h
      omega
    have hbody := decodes_readSegwit hw hf hlen hin hout hwit
    exact ((Decodes.readI32 t.version.toInt32).bind ((VarInt.decodes 0).bind
      (f := fun n => if n = 0 then readSegwit _ else readLegacy _ n) hbody)).congr
      (by simp [write, hw, writeInputsOutputs, i32LE, VarInt.write])

end Tx

end Bitspend.Wire
