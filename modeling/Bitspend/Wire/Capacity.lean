import Bitspend.Wire.Message

/-!
# Wire/Capacity — the decoders with their allocations checked

`Vec::with_capacity(n)` and `vec![0; n]` compute the size of a buffer before they ask for memory, and
panic where it is over `isize::MAX`.  `MessageHeader::payload` and the readers of transactions, blocks,
versions and rejects make such buffers for sizes and counts that a peer announced.  Here they are again
with that computation; where it goes through, they are the functions of `Wire/Tx`, `Wire/Payload` and
`Wire/Message` (`Message.unless_read`).  The memory of vectors that grow with the bytes read is not
counted.
-/

namespace Bitspend.Wire

/-! ## Capacities -/

/-- `isize::MAX` on wasm32. -/
def ISIZE_MAX : ℕ := 2 ^ 31 - 1

/-- So many elements of so many bytes are more than a buffer can hold. -/
def Oversized (elemSize n : ℕ) : Prop := ISIZE_MAX < elemSize * n

instance (elemSize n : ℕ) : Decidable (Oversized elemSize n) :=
  inferInstanceAs (Decidable (ISIZE_MAX < elemSize * n))

/-- What a buffer larger than that panics with. -/
def CAPACITY_OVERFLOW : String := "capacity overflow"

/-- `Vec::with_capacity(n)`, also `vec![0; n]`, for elements of `elemSize` bytes. -/
def withCapacity (elemSize n : ℕ) : Outcome Error Unit :=
  if Oversized elemSize n then .error (.panic CAPACITY_OVERFLOW) else .ok ()

theorem withCapacity_cases (elemSize n : ℕ) :
    withCapacity elemSize n = .ok () ∨ withCapacity elemSize n = .error (.panic CAPACITY_OVERFLOW) := by
  unfold withCapacity
  split_ifs
  · exact .inr rfl
  · exact .inl rfl

/-- `size_of::<TxIn>()`: an outpoint, a vector and four bytes. -/
def TxIn.SIZE_OF : ℕ := 52

/-- `size_of::<TxOut>()`: eight bytes and a vector, aligned to eight. -/
def TxOut.SIZE_OF : ℕ := 24

/-- `size_of::<Tx>()`: three vectors, two words and an optional byte, aligned to four. -/
def Tx.SIZE_OF : ℕ := 48

/-! ## The functions -/

namespace Tx

/-- The segwit branch of `Tx::read`: its vector of inputs is made before their count is read, for the
marker's zero, and only the one of outputs has a capacity. -/
def readSegwitChecked (version : UInt32) : Decoder Error Tx := do
  let segwitFlag ← readU8
  if segwitFlag = 1 then do
    let nInputs ← VarInt.read
    let inputs ← readMany nInputs.toNat TxIn.read
    let nOutputs ← VarInt.read
    Decoder.lift (withCapacity TxOut.SIZE_OF (asUsize nOutputs))
    let outputs ← readMany nOutputs.toNat TxOut.read
    let witnesses ← readMany nInputs.toNat TxWitness.read
    let lockTime ← readU32
    pure { version, inputs, flag := some segwitFlag, outputs, lockTime,
           witnesses := some witnesses }
  else Decoder.panicWith "cant flag this"

/-- The other branch of `Tx::read`. -/
def readLegacyChecked (version : UInt32) (nInputs : UInt64) : Decoder Error Tx := do
  Decoder.lift (withCapacity TxIn.SIZE_OF (asUsize nInputs))
  let inputs ← readMany nInputs.toNat TxIn.read
  let nOutputs ← VarInt.read
  Decoder.lift (withCapacity TxOut.SIZE_OF (asUsize nOutputs))
  let outputs ← readMany nOutputs.toNat TxOut.read
  let lockTime ← readU32
  pure { version, inputs, outputs, lockTime, witnesses := none, flag := none }

/-- `Tx::read`. -/
def readChecked : Decoder Error Tx := do
  let version ← readI32
  let nInputs ← VarInt.read
  if nInputs = 0 then readSegwitChecked version.toUInt32
  else readLegacyChecked version.toUInt32 nInputs

end Tx

/-- `Block::read`. -/
def Block.readChecked : Decoder Error Block := do
  let header ← BlockHeader.read
  let txnCount ← VarInt.read
  Decoder.lift (withCapacity Tx.SIZE_OF (asUsize txnCount))
  let txns ← readMany txnCount.toNat Tx.readChecked
  pure { header, txns }

/-- A string behind its length, read into a buffer of that length. -/
def readStringChecked : Decoder Error String := do
  let n ← VarInt.read
  Decoder.lift (withCapacity 1 (asUsize n))
  let bytes ← readSome (asUsize n)
  Decoder.lift (fromUtf8 bytes.toList)

/-- `Reject::read`. -/
def Reject.readChecked : Decoder Error Reject := do
  let message ← readStringChecked
  let code ← readU8
  let reason ← readStringChecked
  if Reject.carriesHash message then do
    let data ← readSome 32
    pure { message, code, reason, data := data.toList }
  else pure { message, code, reason, data := [] }

/-- `Version::read`. -/
def Version.readChecked : Decoder Error Version := do
  let version ← readU32
  let services ← readU64
  let timestamp ← readI64
  let recvAddr ← NodeAddr.read
  let txAddr ← NodeAddr.read
  let nonce ← readU64
  let userAgent ← readStringChecked
  let startHeight ← readI32
  let relay ← readU8
  pure { version, services, timestamp, recvAddr, txAddr, nonce, userAgent, startHeight,
         relay := relay == 0x01 }

namespace Message

variable {σ : Type} [Source σ] (sha256 : List UInt8 → Bytes 32)

/-- `MessageHeader::payload`: the buffer is made before anything is read into it. -/
def payloadChecked (header : MessageHeader) : StreamM σ (List UInt8) := do
  Op.lift (withCapacity 1 header.payloadSize.toNat)
  header.payload sha256

/-- A message with a payload. -/
def readPayloadChecked {α : Type} (header : MessageHeader) (p : Decoder Error α) : StreamM σ α := do
  let payload ← payloadChecked sha256 header
  let v ← Op.lift (p payload)
  pure v.1

/-- The branch of `read_partial` for a kind. -/
def readKindChecked (now : UInt32) (header : MessageHeader) : Kind → StreamM σ Message
  | .block => block <$> readPayloadChecked sha256 header Block.readChecked
  | .getAddr => readEmpty header .getAddr
  | .getData => getData <$> readPayloadChecked sha256 header Inv.read
  | .headers => headers <$> readPayloadChecked sha256 header Headers.read
  | .cFilters => cFilters <$> readPayloadChecked sha256 header CompactFilter.read
  | .cfHeaders => cfHeaders <$> readPayloadChecked sha256 header CompactFilterHeader.read
  | .inv => inv <$> readPayloadChecked sha256 header Inv.read
  | .mempool => readEmpty header .mempool
  | .notFound => notFound <$> readPayloadChecked sha256 header Inv.read
  | .ping => ping <$> readPayloadChecked sha256 header Ping.read
  | .pong => pong <$> readPayloadChecked sha256 header Ping.read
  | .reject => reject <$> readPayloadChecked sha256 header Reject.readChecked
  | .sendHeaders => readEmpty header .sendHeaders
  | .tx => tx <$> readPayloadChecked sha256 header Tx.readChecked
  | .version => do
    let v ← readPayloadChecked sha256 header Version.readChecked
    Op.lift (v.validate now)
    pure (.version v)
  | .verack => readEmpty header .verack

/-- `Message::read_partial`. -/
def readPartialChecked (now : UInt32) (header : MessageHeader) : StreamM σ Message :=
  match Kind.ofCommand header.command with
  | some k => readKindChecked sha256 now header k
  | none => do
    if header.payloadSize > 0 then
      let _ ← payloadChecked sha256 header
    pure (.other (unknownCommand header.command))

/-- `Message::read`. -/
def readChecked (now : UInt32) : StreamM σ (Message × MessageHeader) := do
  let header ← MessageHeader.read
  fun s =>
    match readPartialChecked sha256 now header s with
    | (.ok msg, s') => (.ok (msg, header), s')
    | (.error (.error (.ioError e)), s') =>
      if e.kind = .timedOut ∨ e.kind = .wouldBlock then (.ok (.partialRead header, header), s')
      else (.error (.error (.ioError e)), s')
    | (.error f, s') => (.error f, s')

end Message

/-! ## The same functions where no capacity overflows -/

theorem Tx.unless_read : Unless CAPACITY_OVERFLOW Tx.readChecked Tx.read := by
  refine (Unless.refl _).bind fun version => (Unless.refl _).bind fun nInputs => ?_
  split_ifs
  · refine (Unless.refl _).bind fun flag => ?_
    split_ifs
    · refine (Unless.refl _).bind fun _ => (Unless.refl _).bind fun _ => (Unless.refl _).bind fun _ => ?_
      exact .lift_bind (withCapacity_cases _ _) (.refl _)
    · exact .refl _
  · refine .lift_bind (withCapacity_cases _ _) ?_
    refine (Unless.refl _).bind fun _ => (Unless.refl _).bind fun _ => ?_
    exact .lift_bind (withCapacity_cases _ _) (.refl _)

theorem Block.unless_read : Unless CAPACITY_OVERFLOW Block.readChecked Block.read := by
  refine (Unless.refl _).bind fun header => (Unless.refl _).bind fun txnCount => ?_
  refine .lift_bind (withCapacity_cases _ _) ?_
  exact (Tx.unless_read.readMany _).bind fun txns => .refl _

theorem unless_readString : Unless CAPACITY_OVERFLOW readStringChecked readString :=
  (Unless.refl _).bind fun _ => .lift_bind (withCapacity_cases _ _) (.refl _)

theorem Reject.unless_read : Unless CAPACITY_OVERFLOW Reject.readChecked Reject.read :=
  unless_readString.bind fun _ => (Unless.refl _).bind fun _ => unless_readString.bind fun _ => .refl _

theorem Version.unless_read : Unless CAPACITY_OVERFLOW Version.readChecked Version.read := by
  refine (Unless.refl _).bind fun _ => (Unless.refl _).bind fun _ => (Unless.refl _).bind fun _ => ?_
  refine (Unless.refl _).bind fun _ => (Unless.refl _).bind fun _ => (Unless.refl _).bind fun _ => ?_
  exact unless_readString.bind fun _ => .refl _

namespace Message

variable {σ : Type} [Source σ] (sha256 : List UInt8 → Bytes 32)

theorem unless_payload (header : MessageHeader) :
    Op.Unless CAPACITY_OVERFLOW (payloadChecked sha256 header : StreamM σ (List UInt8))
      (header.payload sha256) :=
  .lift_bind (withCapacity_cases _ _) (.refl _)

theorem unless_readPayload {α : Type} {p q : Decoder Error α} (hp : Unless CAPACITY_OVERFLOW p q)
    (header : MessageHeader) :
    Op.Unless CAPACITY_OVERFLOW (readPayloadChecked sha256 header p : StreamM σ α)
      (readPayload sha256 header q) :=
  (unless_payload sha256 header).bind fun payload => (Op.Unless.lift (hp payload)).bind fun _ => .refl _

theorem unless_readKind (now : UInt32) (header : MessageHeader) (k : Kind) :
    Op.Unless CAPACITY_OVERFLOW (readKindChecked sha256 now header k : StreamM σ Message)
      (readKind sha256 now header k) := by
  have hmap {α : Type} {p q : Decoder Error α} (hp : Unless CAPACITY_OVERFLOW p q) (g : α → Message) :
      Op.Unless CAPACITY_OVERFLOW (g <$> readPayloadChecked sha256 header p : StreamM σ Message)
        (g <$> readPayload sha256 header q) := (unless_readPayload sha256 hp header).map g
  cases k with
  | block => exact hmap Block.unless_read _
  | tx => exact hmap Tx.unless_read _
  | reject => exact hmap Reject.unless_read _
  | version => exact (unless_readPayload sha256 Version.unless_read header).bind fun _ => .refl _
  | getAddr => exact .refl _
  | mempool => exact .refl _
  | sendHeaders => exact .refl _
  | verack => exact .refl _
  | getData => exact hmap (.refl _) _
  | headers => exact hmap (.refl _) _
  | cFilters => exact hmap (.refl _) _
  | cfHeaders => exact hmap (.refl _) _
  | inv => exact hmap (.refl _) _
  | notFound => exact hmap (.refl _) _
  | ping => exact hmap (.refl _) _
  | pong => exact hmap (.refl _) _

theorem unless_readPartial (now : UInt32) (header : MessageHeader) :
    Op.Unless CAPACITY_OVERFLOW (readPartialChecked sha256 now header : StreamM σ Message)
      (readPartial sha256 now header) := by
  unfold readPartialChecked readPartial
  rcases Kind.ofCommand header.command with _ | k
  · dsimp only
    split_ifs
    · exact (unless_payload sha256 header).bind fun _ => .refl _
    · exact .refl _
  · exact unless_readKind sha256 now header k

/-- **Every source is read as by `Message.read`, or the reader panics at a capacity.** -/
theorem unless_read (now : UInt32) :
    Op.Unless CAPACITY_OVERFLOW (readChecked sha256 now : StreamM σ (Message × MessageHeader))
      (read sha256 now) := by
  refine (Op.Unless.refl _).bind fun header s => ?_
  rcases unless_readPartial sha256 now header s with h | h
  · refine .inl ?_
    generalize readPartialChecked sha256 now header s = x at h ⊢
    subst h
    rcases readPartial sha256 now header s with ⟨(e | msg) | m, s'⟩
    · cases e <;> rfl
    · rfl
    · rfl
  · refine .inr ?_
    rw [Op.eq_of_fst h]

end Message

end Bitspend.Wire
