import Bitspend.Wire.Tx

/-!
# Wire/Payload — the message payloads

Every payload the node reads or writes besides transactions: blocks and headers, inventories,
compact filters, pings, rejects and the version handshake.  Each has the source's `read`, `write`
and `size`; `length_write` says that the announced size is the size written and `decodes` that the
reader undoes the writer.  Sizes read through `as usize` are taken modulo `2 ^ 32`: the node is a
wasm32 component.
-/

namespace Bitspend.Wire

/-- `n as usize` on wasm32. -/
def asUsize (n : UInt64) : ℕ := n.toNat % 2 ^ 32

theorem asUsize_ofNat {n : ℕ} (h : n < 2 ^ 32) : asUsize (UInt64.ofNat n) = n := by
  rw [asUsize, UInt64.toNat_ofNat_of_lt' (lt_trans h (by decide)), Nat.mod_eq_of_lt h]

/-! ## Blocks and headers -/

/-- `BlockHeader`. -/
structure BlockHeader where
  version : UInt32
  prevHash : Hash256
  merkleRoot : Hash256
  timestamp : UInt32
  bits : UInt32
  nonce : UInt32
  deriving Repr, DecidableEq, Inhabited

namespace BlockHeader

/-- `BlockHeader::SIZE`. -/
def SIZE : ℕ := 80

/-- `BlockHeader::read`. -/
def read : Decoder Error BlockHeader := do
  let version ← readU32
  let prevHash ← Hash256.read
  let merkleRoot ← Hash256.read
  let timestamp ← readU32
  let bits ← readU32
  let nonce ← readU32
  pure { version, prevHash, merkleRoot, timestamp, bits, nonce }

/-- `BlockHeader::write`. -/
def write (h : BlockHeader) : List WriteCall :=
  [.writeAll (u32LE h.version)] ++ h.prevHash.write ++ h.merkleRoot.write
    ++ [.writeAll (u32LE h.timestamp), .writeAll (u32LE h.bits), .writeAll (u32LE h.nonce)]

/-- `BlockHeader::hash`: the double SHA-256 of the eighty bytes `write` emits. -/
def hash (sha256 : List UInt8 → Bytes 32) (h : BlockHeader) : Hash256 :=
  sha256d sha256 (emitted h.write)

@[simp] theorem length_write (h : BlockHeader) : (emitted h.write).length = SIZE := by
  simp [write, SIZE]

theorem decodes (h : BlockHeader) : Decodes read (emitted h.write) h := by
  have hfields : emitted h.write = u32LE h.version ++ (emitted h.prevHash.write
      ++ (emitted h.merkleRoot.write ++ (u32LE h.timestamp ++ (u32LE h.bits ++ u32LE h.nonce)))) := by
    simp [write]
  rw [hfields]
  refine (Decodes.readU32 h.version).bind ?_
  refine h.prevHash.decodes.bind ?_
  refine h.merkleRoot.decodes.bind ?_
  refine (Decodes.readU32 h.timestamp).bind ?_
  refine (Decodes.readU32 h.bits).bind ?_
  exact (Decodes.readU32 h.nonce).map _

end BlockHeader

/-- `Block`. -/
structure Block where
  header : BlockHeader
  txns : List Tx
  deriving DecidableEq, Inhabited

namespace Block

/-- `Block::read`; with the capacity for the count checked, `Block.readChecked`. -/
def read : Decoder Error Block := do
  let header ← BlockHeader.read
  let txnCount ← VarInt.read
  let txns ← readMany txnCount.toNat Tx.read
  pure { header, txns }

/-- `Block::write`. -/
def write (b : Block) : List WriteCall :=
  b.header.write ++ VarInt.writeLen b.txns ++ b.txns.flatMap Tx.write

/-- `Block::size`. -/
def size (b : Block) : ℕ := BlockHeader.SIZE + VarInt.sizeLen b.txns + (b.txns.map Tx.size).sum

instance : Payload Block := ⟨write, size⟩

@[simp] theorem length_write (b : Block) : (emitted b.write).length = b.size := by
  rw [write, emitted_append, emitted_append, emitted_flatMap, List.length_append,
    List.length_append, length_flatMap_eq_sum fun t _ => Tx.length_write t, VarInt.writeLen,
    VarInt.length_write, BlockHeader.length_write]
  rfl

theorem decodes {b : Block} (hwf : ∀ t ∈ b.txns, t.WellFormed) (h : b.size < 2 ^ 64) :
    Decodes read (emitted b.write) b := by
  have hsum : (b.txns.map Tx.size).sum < 2 ^ 64 := by
    simp only [size] at h
    omega
  have htxns := decodes_counted_of_sum (fun t _ => t.one_le_size) hsum
    fun t ht hs => Tx.decodes (hwf t ht) hs
  exact (b.header.decodes.bind ((VarInt.decodes _).bind (htxns.map _))).congr
    (by simp [write, VarInt.writeLen])

end Block

/-- `Headers`: a list of block headers. -/
structure Headers where
  inner : List BlockHeader
  deriving Repr, DecidableEq, Inhabited

namespace Headers

/-- One element of the list: a header and the transaction count after it, whose read is allowed to
fail (`let _txn_count = reader.read_u8()`). -/
def readElem : Decoder Error BlockHeader := do
  let header ← BlockHeader.read
  fun s => match (readU8 : Decoder Error UInt8) s with
    | .ok (_, rest) => .ok (header, rest)
    | .error _ => .ok (header, s)

/-- `Headers::read`. -/
def read : Decoder Error Headers := do
  let n ← VarInt.read
  let headers ← readMany n.toNat readElem
  pure { inner := headers }

/-- One element of the list: a header and a zero transaction count. -/
def writeElem (h : BlockHeader) : List WriteCall := h.write ++ [.writeAll [0]]

/-- `Headers::write`. -/
def write (h : Headers) : List WriteCall := VarInt.writeLen h.inner ++ h.inner.flatMap writeElem

/-- `Headers::size`. -/
def size (h : Headers) : ℕ := VarInt.sizeLen h.inner + (BlockHeader.SIZE + 1) * h.inner.length

instance : Payload Headers := ⟨write, size⟩

theorem length_writeElem (h : BlockHeader) : (emitted (writeElem h)).length = BlockHeader.SIZE + 1 := by
  simp [writeElem]

theorem decodes_readElem (h : BlockHeader) : Decodes readElem (emitted (writeElem h)) h := by
  have hcount : Decodes (fun s => match (readU8 : Decoder Error UInt8) s with
      | .ok (_, rest) => .ok (h, rest)
      | .error _ => .ok (h, s) : Decoder Error BlockHeader) [0] h := by
    intro rest
    simp only [Decodes.readU8 0 rest]
  exact (h.decodes.bind hcount).congr (by simp [writeElem])

@[simp] theorem length_write (h : Headers) : (emitted h.write).length = h.size := by
  rw [write, emitted_append, emitted_flatMap, List.length_append,
    length_flatMap_const fun e _ => length_writeElem e, VarInt.writeLen, VarInt.length_write]
  rfl

theorem decodes {h : Headers} (hs : h.size < 2 ^ 64) : Decodes read (emitted h.write) h := by
  have hlen : h.inner.length < 2 ^ 64 := by
    simp only [size, BlockHeader.SIZE] at hs
    omega
  have helems := decodes_counted hlen fun e _ => decodes_readElem e
  exact ((VarInt.decodes _).bind (helems.map Headers.mk)).congr (by simp [write, VarInt.writeLen])

end Headers

/-! ## Inventories -/

/-- `InvVect`: an object announced or requested. -/
structure InvVect where
  objType : UInt32
  hash : Hash256
  deriving Repr, DecidableEq, Inhabited

namespace InvVect

/-- `InvVect::SIZE`. -/
def SIZE : ℕ := 36

/-- `InvVect::read`. -/
def read : Decoder Error InvVect := do
  let objType ← readU32
  let hash ← Hash256.read
  pure { objType, hash }

/-- `InvVect::write`. -/
def write (v : InvVect) : List WriteCall := [.writeAll (u32LE v.objType)] ++ v.hash.write

@[simp] theorem length_write (v : InvVect) : (emitted v.write).length = SIZE := by
  simp [write, SIZE]

theorem decodes (v : InvVect) : Decodes read (emitted v.write) v :=
  ((Decodes.readU32 v.objType).bind (v.hash.decodes.map _)).congr (by simp [write])

end InvVect

/-- `MAX_INV_ENTRIES`. -/
def MAX_INV_ENTRIES : ℕ := 50000

/-- `Inv`: a list of objects. -/
structure Inv where
  objects : List InvVect
  deriving Repr, DecidableEq, Inhabited

namespace Inv

/-- The objects of an inventory, once their number is known. -/
def readObjects (numObjects : ℕ) : Decoder Error Inv :=
  if numObjects > MAX_INV_ENTRIES then
    Decoder.fail (.badData s!"Num objects exceeded maximum: {numObjects}")
  else do
    let objects ← readMany numObjects InvVect.read
    pure { objects }

/-- `Inv::read`. -/
def read : Decoder Error Inv := do
  let n ← VarInt.read
  readObjects (asUsize n)

/-- `Inv::write`. -/
def write (i : Inv) : List WriteCall := VarInt.writeLen i.objects ++ i.objects.flatMap InvVect.write

/-- `Inv::size`. -/
def size (i : Inv) : ℕ := VarInt.sizeLen i.objects + InvVect.SIZE * i.objects.length

instance : Payload Inv := ⟨write, size⟩

@[simp] theorem length_write (i : Inv) : (emitted i.write).length = i.size := by
  rw [write, emitted_append, emitted_flatMap, List.length_append,
    length_flatMap_const fun v _ => InvVect.length_write v, VarInt.writeLen,
    VarInt.length_write]
  rfl

theorem decodes {i : Inv} (h : i.objects.length ≤ MAX_INV_ENTRIES) :
    Decodes read (emitted i.write) i := by
  have hlen : asUsize (UInt64.ofNat i.objects.length) = i.objects.length :=
    asUsize_ofNat (lt_of_le_of_lt h (by decide))
  have hobjs : Decodes (readObjects (asUsize (UInt64.ofNat i.objects.length)))
      (i.objects.flatMap fun v => emitted v.write) i := by
    rw [hlen, readObjects, if_neg (by omega)]
    exact (Decodes.readMany fun v _ => v.decodes).map Inv.mk
  exact ((VarInt.decodes _).bind hobjs).congr (by simp [write, VarInt.writeLen])

end Inv

/-! ## Compact filters -/

/-- `CompactFilter`: the filter of one block. -/
structure CompactFilter where
  filterType : UInt8
  blockHash : Hash256
  filterBytes : List UInt8
  deriving Repr, DecidableEq, Inhabited

namespace CompactFilter

/-- `CompactFilter::read`. -/
def read : Decoder Error CompactFilter := do
  let filterType ← readU8
  let blockHash ← Hash256.read
  let filterLen ← VarInt.read
  let filterBytes ← readMany filterLen.toNat readU8
  pure { filterType, filterBytes, blockHash }

/-- `CompactFilter::write`. -/
def write (f : CompactFilter) : List WriteCall :=
  [.writeAll [f.filterType]] ++ f.blockHash.write ++ VarInt.writeLen f.filterBytes
    ++ f.filterBytes.map (fun b => .writeAll [b])

/-- `CompactFilter::size`. -/
def size (f : CompactFilter) : ℕ := 1 + 32 + VarInt.sizeLen f.filterBytes + f.filterBytes.length

instance : Payload CompactFilter := ⟨write, size⟩

@[simp] theorem length_write (f : CompactFilter) : (emitted f.write).length = f.size := by
  simp [write, size, VarInt.writeLen, VarInt.sizeLen]
  omega

theorem decodes {f : CompactFilter} (h : f.size < 2 ^ 64) : Decodes read (emitted f.write) f := by
  have hlen : f.filterBytes.length < 2 ^ 64 := by
    simp only [size] at h
    omega
  have hfields : emitted f.write = [f.filterType] ++ (emitted f.blockHash.write
      ++ (emitted (VarInt.write (UInt64.ofNat f.filterBytes.length)) ++ f.filterBytes)) := by
    simp [write, VarInt.writeLen]
  rw [hfields]
  refine (Decodes.readU8 f.filterType).bind ?_
  refine f.blockHash.decodes.bind ?_
  refine (VarInt.decodes _).bind ?_
  exact (decodes_countedBytes hlen).map _

end CompactFilter

/-- `CompactFilterHeader`: the filter hashes of a range of blocks. -/
structure CompactFilterHeader where
  filterType : UInt8
  stopHash : Hash256
  previousFilterHeader : Hash256
  filterHashes : List Hash256
  deriving Repr, DecidableEq, Inhabited

namespace CompactFilterHeader

/-- `CompactFilterHeader::read`. -/
def read : Decoder Error CompactFilterHeader := do
  let filterType ← readU8
  let stopHash ← Hash256.read
  let previousFilterHeader ← Hash256.read
  let filterLen ← VarInt.read
  let filterHashes ← readMany filterLen.toNat Hash256.read
  pure { filterType, stopHash, previousFilterHeader, filterHashes }

/-- `CompactFilterHeader::write`. -/
def write (f : CompactFilterHeader) : List WriteCall :=
  [.writeAll [f.filterType]] ++ f.stopHash.write ++ f.previousFilterHeader.write
    ++ VarInt.writeLen f.filterHashes ++ f.filterHashes.flatMap Hash256.write

/-- `CompactFilterHeader::size`. -/
def size (f : CompactFilterHeader) : ℕ :=
  1 + 32 + 32 + VarInt.sizeLen f.filterHashes + f.filterHashes.length * 32

instance : Payload CompactFilterHeader := ⟨write, size⟩

@[simp] theorem length_write (f : CompactFilterHeader) : (emitted f.write).length = f.size := by
  have hh := length_flatMap_const fun h (_ : h ∈ f.filterHashes) => Hash256.length_write h
  simp only [write, size, VarInt.writeLen, VarInt.sizeLen, emitted_append, emitted_flatMap,
    List.length_append, VarInt.length_write, Hash256.length_write, hh]
  simp
  omega

theorem decodes {f : CompactFilterHeader} (h : f.size < 2 ^ 64) :
    Decodes read (emitted f.write) f := by
  have hlen : f.filterHashes.length < 2 ^ 64 := by
    simp only [size] at h
    omega
  have hhashes := decodes_counted hlen fun e _ => Hash256.decodes e
  have hfields : emitted f.write = [f.filterType] ++ (emitted f.stopHash.write
      ++ (emitted f.previousFilterHeader.write
        ++ (emitted (VarInt.write (UInt64.ofNat f.filterHashes.length))
          ++ f.filterHashes.flatMap fun e => emitted e.write))) := by
    simp [write, VarInt.writeLen]
  rw [hfields]
  refine (Decodes.readU8 f.filterType).bind ?_
  refine f.stopHash.decodes.bind ?_
  refine f.previousFilterHeader.decodes.bind ?_
  refine (VarInt.decodes _).bind ?_
  exact hhashes.map _

end CompactFilterHeader

/-! ## Requests

Written by the node, never read by it. -/

/-- `NO_HASH_STOP`. -/
def NO_HASH_STOP : Hash256 := Bytes.zero 32

/-- `BlockLocator`: which headers to send. -/
structure BlockLocator where
  version : UInt32
  blockLocatorHashes : List Hash256
  hashStop : Hash256
  deriving Repr, DecidableEq, Inhabited

namespace BlockLocator

/-- `BlockLocator::write`. -/
def write (l : BlockLocator) : List WriteCall :=
  [.writeAll (u32LE l.version)] ++ VarInt.writeLen l.blockLocatorHashes
    ++ l.blockLocatorHashes.flatMap Hash256.write ++ l.hashStop.write

/-- `BlockLocator::size`. -/
def size (l : BlockLocator) : ℕ :=
  4 + VarInt.sizeLen l.blockLocatorHashes + l.blockLocatorHashes.length * 32 + 32

instance : Payload BlockLocator := ⟨write, size⟩

@[simp] theorem length_write (l : BlockLocator) : (emitted l.write).length = l.size := by
  have hh := length_flatMap_const
    fun h (_ : h ∈ l.blockLocatorHashes) => Hash256.length_write h
  simp only [write, size, VarInt.writeLen, VarInt.sizeLen, emitted_append, emitted_flatMap,
    List.length_append, VarInt.length_write, Hash256.length_write, hh]
  simp
  omega

end BlockLocator

/-- `FilterLocator`: which filters to send. -/
structure FilterLocator where
  filterType : UInt8
  startHeight : UInt32
  hashStop : Hash256
  deriving Repr, DecidableEq, Inhabited

namespace FilterLocator

/-- `FilterLocator::write`. -/
def write (l : FilterLocator) : List WriteCall :=
  [.writeAll [l.filterType], .writeAll (u32LE l.startHeight)] ++ l.hashStop.write

/-- `FilterLocator::size`. -/
def size (_ : FilterLocator) : ℕ := 1 + 4 + 32

instance : Payload FilterLocator := ⟨write, size⟩

@[simp] theorem length_write (l : FilterLocator) : (emitted l.write).length = l.size := by
  simp [write, size]

end FilterLocator

/-! ## Pings and rejects -/

/-- `Ping`: the payload of both `ping` and `pong`. -/
structure Ping where
  nonce : UInt64
  deriving Repr, DecidableEq, Inhabited

namespace Ping

/-- `Ping::SIZE`. -/
def SIZE : ℕ := 8

/-- `Ping::read`. -/
def read : Decoder Error Ping := do
  let nonce ← readU64
  pure { nonce }

/-- `Ping::write`. -/
def write (p : Ping) : List WriteCall := [.writeAll (u64LE p.nonce)]

/-- `Ping::size`. -/
def size (_ : Ping) : ℕ := SIZE

instance : Payload Ping := ⟨write, size⟩

@[simp] theorem length_write (p : Ping) : (emitted p.write).length = p.size := by
  simp [write, size, SIZE]

theorem decodes (p : Ping) : Decodes read (emitted p.write) p :=
  ((Decodes.readU64 p.nonce).map Ping.mk).congr (by simp [write])

end Ping

/-- A string behind its length, read with one `Read::read` call; with the size of the buffer checked,
`readStringChecked`. -/
def readString : Decoder Error String := do
  let n ← VarInt.read
  let bytes ← readSome (asUsize n)
  Decoder.lift (fromUtf8 bytes.toList)

/-- `str::as_bytes().len()`. -/
def byteLen (s : String) : ℕ := (asBytes s).length

/-- A string behind its length, written with one `Write::write` call. -/
def writeString (s : String) : List WriteCall :=
  VarInt.writeLen (asBytes s) ++ [.write (asBytes s)]

theorem decodes_readString {s : String} (h : byteLen s < 2 ^ 32) :
    Decodes readString (emitted (writeString s)) s := by
  have hlen : (asBytes s).length = asUsize (UInt64.ofNat (asBytes s).length) :=
    (asUsize_ofNat h).symm
  have hbytes := Decodes.readSome (ε := Error) (⟨asBytes s, hlen⟩ :
    Bytes (asUsize (UInt64.ofNat (asBytes s).length)))
  have hstr := Decodes.lift (fromUtf8_asBytes s)
  exact ((VarInt.decodes _).bind (hbytes.bind (f := fun b => Decoder.lift (fromUtf8 b.toList))
    hstr)).congr (by simp [writeString, VarInt.writeLen])

/-- `Reject`. -/
structure Reject where
  message : String
  code : UInt8
  reason : String
  data : List UInt8
  deriving Repr, DecidableEq, Inhabited

namespace Reject

/-- The rejected messages that carry a hash. -/
def carriesHash (message : String) : Bool := message = "block" || message = "tx"

/-- `Reject::read`. -/
def read : Decoder Error Reject := do
  let message ← readString
  let code ← readU8
  let reason ← readString
  if carriesHash message then do
    let data ← readSome 32
    pure { message, code, reason, data := data.toList }
  else pure { message, code, reason, data := [] }

/-- `Reject::write`. -/
def write (r : Reject) : List WriteCall :=
  writeString r.message ++ [.writeAll [r.code]] ++ writeString r.reason ++ [.write r.data]

/-- `Reject::size`. -/
def size (r : Reject) : ℕ :=
  VarInt.sizeLen (asBytes r.message) + byteLen r.message + 1
    + VarInt.sizeLen (asBytes r.reason) + byteLen r.reason + r.data.length

instance : Payload Reject := ⟨write, size⟩

/-- The hash is present exactly for the messages that carry one. -/
def WellFormed (r : Reject) : Prop :=
  if carriesHash r.message then r.data.length = 32 else r.data = []

instance (r : Reject) : Decidable r.WellFormed := by
  unfold WellFormed
  infer_instance

@[simp] theorem length_write (r : Reject) : (emitted r.write).length = r.size := by
  simp [write, size, writeString, byteLen, VarInt.writeLen, VarInt.sizeLen]
  omega

theorem decodes {r : Reject} (hwf : r.WellFormed) (h : r.size < 2 ^ 32) :
    Decodes read (emitted r.write) r := by
  obtain ⟨message, code, reason, data⟩ := r
  have hm : byteLen message < 2 ^ 32 := by
    simp only [size] at h
    omega
  have hr : byteLen reason < 2 ^ 32 := by
    simp only [size] at h
    omega
  have hdata : Decodes (if carriesHash message then do
        let data ← readSome 32
        pure { message, code, reason, data := data.toList }
      else pure { message, code, reason, data := [] } : Decoder Error Reject) data
      ⟨message, code, reason, data⟩ := by
    by_cases hc : carriesHash message
    · simp only [WellFormed, hc, if_true] at hwf
      simp only [hc, if_true]
      exact (Decodes.readSome ⟨data, hwf⟩).map fun d => Reject.mk message code reason d.toList
    · simp only [WellFormed, hc] at hwf
      obtain rfl : data = [] := by simpa using hwf
      simp only [hc]
      exact Decodes.pure _
  have hfields : emitted (write ⟨message, code, reason, data⟩) = emitted (writeString message)
      ++ ([code] ++ (emitted (writeString reason) ++ data)) := by
    simp [write]
  rw [hfields]
  refine (decodes_readString hm).bind ?_
  refine (Decodes.readU8 code).bind ?_
  refine (decodes_readString hr).bind ?_
  exact hdata

end Reject

/-! ## The version handshake -/

/-- `NodeAddr`: a network address. -/
structure NodeAddr where
  services : UInt64
  ip : Bytes 16
  port : UInt16
  deriving Repr, DecidableEq, Inhabited

namespace NodeAddr

/-- `NodeAddr::SIZE`. -/
def SIZE : ℕ := 26

/-- `NodeAddr::read`. -/
def read : Decoder Error NodeAddr := do
  let services ← readU64
  let ip ← readSome 16
  let port ← readU16BE
  pure { services, ip, port }

/-- `NodeAddr::write`. -/
def write (a : NodeAddr) : List WriteCall :=
  [.writeAll (u64LE a.services), .write a.ip.toList, .writeAll (u16BE a.port)]

/-- `NodeAddr::size`. -/
def size (_ : NodeAddr) : ℕ := SIZE

@[simp] theorem length_write (a : NodeAddr) : (emitted a.write).length = a.size := by
  simp [write, size, SIZE]

theorem decodes (a : NodeAddr) : Decodes read (emitted a.write) a :=
  ((Decodes.readU64 a.services).bind ((Decodes.readSome a.ip).bind
    ((Decodes.readU16BE a.port).map _))).congr (by simp [write])

end NodeAddr

/-- `MIN_SUPPORTED_PROTOCOL_VERSION`. -/
def MIN_SUPPORTED_PROTOCOL_VERSION : UInt32 := 70001

/-- `PROTOCOL_VERSION`. -/
def PROTOCOL_VERSION : UInt32 := 70015

/-- `Version`: the capabilities of a node. -/
structure Version where
  version : UInt32
  services : UInt64
  timestamp : Int64
  recvAddr : NodeAddr
  txAddr : NodeAddr
  nonce : UInt64
  userAgent : String
  startHeight : Int32
  relay : Bool
  deriving DecidableEq, Inhabited

namespace Version

/-- `Version::validate` at the wall-clock second `now`.  The difference and its absolute value are
`i64` operations, so a timestamp far enough in the past overflows. -/
def validate (v : Version) (now : UInt32) : Outcome Error Unit :=
  if v.version < MIN_SUPPORTED_PROTOCOL_VERSION then
    .error (.error (.badData s!"Unsupported protocol version: {v.version}"))
  else
    let diff : ℤ := v.timestamp.toInt - now.toNat
    if diff < -2 ^ 63 then .error (.panic "attempt to subtract with overflow")
    else if diff = -2 ^ 63 then .error (.panic "attempt to negate with overflow")
    else if |diff| > 2 * 60 * 60 then
      .error (.error (.badData s!"Timestamp too old: {v.timestamp}"))
    else .ok ()

/-- `Version::read`. -/
def read : Decoder Error Version := do
  let version ← readU32
  let services ← readU64
  let timestamp ← readI64
  let recvAddr ← NodeAddr.read
  let txAddr ← NodeAddr.read
  let nonce ← readU64
  let userAgent ← readString
  let startHeight ← readI32
  let relay ← readU8
  pure { version, services, timestamp, recvAddr, txAddr, nonce, userAgent, startHeight,
         relay := relay == 0x01 }

/-- `Version::write`. -/
def write (v : Version) : List WriteCall :=
  [.writeAll (u32LE v.version), .writeAll (u64LE v.services), .writeAll (i64LE v.timestamp)]
    ++ v.recvAddr.write ++ v.txAddr.write ++ [.writeAll (u64LE v.nonce)]
    ++ writeString v.userAgent
    ++ [.writeAll (i32LE v.startHeight), .writeAll [if v.relay then 0x01 else 0x00]]

/-- `Version::size`. -/
def size (v : Version) : ℕ :=
  33 + v.recvAddr.size + v.txAddr.size + VarInt.sizeLen (asBytes v.userAgent) + byteLen v.userAgent

instance : Payload Version := ⟨write, size⟩

@[simp] theorem length_write (v : Version) : (emitted v.write).length = v.size := by
  simp [write, size, writeString, byteLen, VarInt.writeLen, VarInt.sizeLen]
  omega

theorem decodes {v : Version} (h : v.size < 2 ^ 32) : Decodes read (emitted v.write) v := by
  have hua : byteLen v.userAgent < 2 ^ 32 := by
    simp only [size] at h
    omega
  have hrelay : ((if v.relay then 0x01 else 0x00 : UInt8) == 0x01) = v.relay := by
    cases v.relay <;> rfl
  have hend := (Decodes.readU8 (ε := Error) (if v.relay then 0x01 else 0x00)).map fun r =>
    { v with relay := r == 0x01 }
  rw [hrelay] at hend
  have hfields : emitted v.write = u32LE v.version ++ (u64LE v.services ++ (i64LE v.timestamp
      ++ (emitted v.recvAddr.write ++ (emitted v.txAddr.write ++ (u64LE v.nonce
        ++ (emitted (writeString v.userAgent) ++ (i32LE v.startHeight
          ++ [if v.relay then 0x01 else 0x00]))))))) := by
    simp [write]
  rw [hfields]
  refine (Decodes.readU32 v.version).bind ?_
  refine (Decodes.readU64 v.services).bind ?_
  refine (Decodes.readI64 v.timestamp).bind ?_
  refine v.recvAddr.decodes.bind ?_
  refine v.txAddr.decodes.bind ?_
  refine (Decodes.readU64 v.nonce).bind ?_
  refine (decodes_readString hua).bind ?_
  refine (Decodes.readI32 v.startHeight).bind ?_
  exact hend

end Version

end Bitspend.Wire
