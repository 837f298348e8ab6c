import Bitspend.Machinery.Op
import Bitspend.Wire.Payload

/-!
# Wire/Message — message framing

`messages/{message_header, message}.rs`: a 24-byte header (magic, command, payload size, checksum)
in front of the payload.  Reading is generic in the byte source, of which only `read_exact` is used;
a failed read keeps the state the source was left in, since the caller may retry on it.
-/

namespace Bitspend.Wire

/-! ## Byte sources -/

/-- A byte source: `Read::read_exact`, with the source's state after success and after failure. -/
class Source (σ : Type) where
  readExact : (n : ℕ) → σ → Outcome Error (Bytes n) × σ

/-- An in-memory source hands out its bytes in order; a read past the end drains it. -/
instance : Source (List UInt8) where
  readExact n s :=
    match (readExact n : Decoder Error (Bytes n)) s with
    | .ok (b, rest) => (.ok b, rest)
    | .error e => (.error e, [])

/-- A computation that reads from a source `σ`. -/
abbrev StreamM (σ : Type) := Op Error σ

/-! ## Headers -/

/-- `MessageHeader`. -/
structure MessageHeader where
  magic : Bytes 4
  command : Bytes 12
  payloadSize : UInt32
  checksum : Bytes 4
  deriving Repr, DecidableEq, Inhabited

/-- The first four bytes of a hash. -/
def checksumOf (h : Hash256) : Bytes 4 := ⟨h.toList.take 4, by simp⟩

namespace MessageHeader

variable {σ : Type} [Source σ]

/-- `MessageHeader::SIZE`. -/
def SIZE : ℕ := 24

/-- The fields of a header, read from the 24 bytes fetched for it. -/
def parse : Decoder Error MessageHeader := do
  let magic ← readSome 4
  let command ← readSome 12
  let payloadSize ← readU32
  let checksum ← readSome 4
  pure { magic, command, payloadSize, checksum }

/-- `MessageHeader::read`: all the bytes at once, then the fields. -/
def read : StreamM σ MessageHeader := do
  let p ← (Source.readExact SIZE : StreamM σ (Bytes SIZE))
  let h ← Op.lift (parse p.toList)
  pure h.1

/-- `MessageHeader::write`. -/
def write (h : MessageHeader) : List WriteCall :=
  [.write h.magic.toList, .write h.command.toList, .writeAll (u32LE h.payloadSize),
    .write h.checksum.toList]

/-- `MessageHeader::payload`: the payload, if its checksum is the header's; with the size of the buffer
checked, `Message.payloadChecked`. -/
def payload (sha256 : List UInt8 → Bytes 32) (h : MessageHeader) : StreamM σ (List UInt8) := do
  let p ← (Source.readExact h.payloadSize.toNat : StreamM σ (Bytes h.payloadSize.toNat))
  let c := checksumOf (sha256d sha256 p.toList)
  if c ≠ h.checksum then
    Op.lift (Outcome.err (.badData
      ("Bad checksum: " ++ toString c.toList ++ " != " ++ toString h.checksum.toList)))
  else pure p.toList

end MessageHeader

/-! ## Commands -/

/-- A command name, padded with zeros to twelve bytes. -/
def command (name : List Char) : Bytes 12 :=
  ⟨((name.map fun c : Char => UInt8.ofNat c.toNat) ++ List.replicate 12 0).take 12, by simp⟩

namespace Commands

def BLOCK := command ['b', 'l', 'o', 'c', 'k']
def CFHEADERS := command ['c', 'f', 'h', 'e', 'a', 'd', 'e', 'r', 's']
def CFILTERS := command ['c', 'f', 'i', 'l', 't', 'e', 'r']
def GETADDR := command ['g', 'e', 't', 'a', 'd', 'd', 'r']
def GETBLOCKS := command ['g', 'e', 't', 'b', 'l', 'o', 'c', 'k', 's']
def GETCFHEADERS := command ['g', 'e', 't', 'c', 'f', 'h', 'e', 'a', 'd', 'e', 'r', 's']
def GETCFILTERS := command ['g', 'e', 't', 'c', 'f', 'i', 'l', 't', 'e', 'r', 's']
def GETDATA := command ['g', 'e', 't', 'd', 'a', 't', 'a']
def GETHEADERS := command ['g', 'e', 't', 'h', 'e', 'a', 'd', 'e', 'r', 's']
def HEADERS := command ['h', 'e', 'a', 'd', 'e', 'r', 's']
def INV := command ['i', 'n', 'v']
def MEMPOOL := command ['m', 'e', 'm', 'p', 'o', 'o', 'l']
def NOTFOUND := command ['n', 'o', 't', 'f', 'o', 'u', 'n', 'd']
def PING := command ['p', 'i', 'n', 'g']
def PONG := command ['p', 'o', 'n', 'g']
def REJECT := command ['r', 'e', 'j', 'e', 'c', 't']
def SENDHEADERS := command ['s', 'e', 'n', 'd', 'h', 'e', 'a', 'd', 'e', 'r', 's']
def TX := command ['t', 'x']
def VERACK := command ['v', 'e', 'r', 'a', 'c', 'k']
def VERSION := command ['v', 'e', 'r', 's', 'i', 'o', 'n']

end Commands

/-- The kinds of message that `read_partial` decodes. -/
inductive Kind where
  | block | getAddr | getData | headers | cFilters | cfHeaders | inv | mempool | notFound
  | ping | pong | reject | sendHeaders | tx | version | verack
  deriving Repr, DecidableEq

namespace Kind

/-- The command a kind travels under. -/
def command : Kind → Bytes 12
  | block => Commands.BLOCK
  | getAddr => Commands.GETADDR
  | getData => Commands.GETDATA
  | headers => Commands.HEADERS
  | cFilters => Commands.CFILTERS
  | cfHeaders => Commands.CFHEADERS
  | inv => Commands.INV
  | mempool => Commands.MEMPOOL
  | notFound => Commands.NOTFOUND
  | ping => Commands.PING
  | pong => Commands.PONG
  | reject => Commands.REJECT
  | sendHeaders => Commands.SENDHEADERS
  | tx => Commands.TX
  | version => Commands.VERSION
  | verack => Commands.VERACK

/-- The kinds, in the order `read_partial` tests them. -/
def all : List Kind :=
  [block, getAddr, getData, headers, cFilters, cfHeaders, inv, mempool, notFound, ping, pong,
    reject, sendHeaders, tx, version, verack]

/-- The first test of `read_partial` that a command passes. -/
def ofCommand (c : Bytes 12) : Option Kind := all.find? fun k => c = k.command

/-- **The commands are distinct**: a kind's command passes its own test and none before it. -/
theorem ofCommand_command (k : Kind) : ofCommand k.command = some k := by
  cases k <;> decide

theorem command_of_ofCommand {c : Bytes 12} {k : Kind} (h : ofCommand c = some k) :
    c = k.command := by
  simpa using List.find?_some h

end Kind

/-! ## Messages -/

/-- `Message`. -/
inductive Message where
  | block (p : Block)
  | getAddr
  | getBlocks (p : BlockLocator)
  | getData (p : Inv)
  | getHeaders (p : BlockLocator)
  | headers (p : Headers)
  | inv (p : Inv)
  | mempool
  | notFound (p : Inv)
  | other (command : String)
  | partialRead (header : MessageHeader)
  | ping (p : Ping)
  | pong (p : Ping)
  | getCFilters (p : FilterLocator)
  | getCFHeaders (p : FilterLocator)
  | cFilters (p : CompactFilter)
  | cfHeaders (p : CompactFilterHeader)
  | reject (p : Reject)
  | sendHeaders
  | tx (p : Tx)
  | verack
  | version (p : Version)
  deriving DecidableEq

/-- `NO_CHECKSUM`: the checksum announced for an empty payload. -/
def NO_CHECKSUM : Bytes 4 := ⟨[0x5d, 0xf6, 0xe0, 0xe2], rfl⟩

namespace Message

/-- The magic of the main network. -/
def mainMagic : Bytes 4 := ⟨[0xf9, 0xbe, 0xb4, 0xd9], rfl⟩

section Read

variable {σ : Type} [Source σ] (sha256 : List UInt8 → Bytes 32)

/-- A message with a payload: fetch it, check it, decode it; bytes left over are dropped. -/
def readPayload {α : Type} (header : MessageHeader) (p : Decoder Error α) : StreamM σ α := do
  let payload ← header.payload sha256
  let v ← Op.lift (p payload)
  pure v.1

/-- A message without a payload. -/
def readEmpty (header : MessageHeader) (m : Message) : StreamM σ Message :=
  if header.payloadSize ≠ 0 then Op.lift (Outcome.err (.badData "Bad payload")) else pure m

/-- The branch of `read_partial` for a kind. -/
def readKind (now : UInt32) (header : MessageHeader) : Kind → StreamM σ Message
  | .block => block <$> readPayload sha256 header Block.read
  | .getAddr => readEmpty header .getAddr
  | .getData => getData <$> readPayload sha256 header Inv.read
  | .headers => headers <$> readPayload sha256 header Headers.read
  | .cFilters => cFilters <$> readPayload sha256 header CompactFilter.read
  | .cfHeaders => cfHeaders <$> readPayload sha256 header CompactFilterHeader.read
  | .inv => inv <$> readPayload sha256 header Inv.read
  | .mempool => readEmpty header .mempool
  | .notFound => notFound <$> readPayload sha256 header Inv.read
  | .ping => ping <$> readPayload sha256 header Ping.read
  | .pong => pong <$> readPayload sha256 header Ping.read
  | .reject => reject <$> readPayload sha256 header Reject.read
  | .sendHeaders => readEmpty header .sendHeaders
  | .tx => tx <$> readPayload sha256 header Tx.read
  | .version => do
    let v ← readPayload sha256 header Version.read
    Op.lift (v.validate now)
    pure (.version v)
  | .verack => readEmpty header .verack

/-- The text of an unknown command. -/
def unknownCommand (c : Bytes 12) : String :=
  match fromUtf8 c.toList with
  | .ok s => s
  | .error _ => "Unknown"

/-- `Message::read_partial`: the payload of a frame whose header has been read. -/
def readPartial (now : UInt32) (header : MessageHeader) : StreamM σ Message :=
  match Kind.ofCommand header.command with
  | some k => readKind sha256 now header k
  | none => do
    if header.payloadSize > 0 then
      let _ ← header.payload sha256
    pure (.other (unknownCommand header.command))

/-- `Message::read`.  A timeout inside the payload is not an error: the header is returned so that
`read_partial` can be called again. -/
def read (now : UInt32) : StreamM σ (Message × MessageHeader) := do
  let header ← MessageHeader.read
  fun s =>
    match readPartial sha256 now header s with
    | (.ok msg, s') => (.ok (msg, header), s')
    | (.error (.error (.ioError e)), s') =>
      if e.kind = .timedOut ∨ e.kind = .wouldBlock then (.ok (.partialRead header, header), s')
      else (.error (.error (.ioError e)), s')
    | (.error f, s') => (.error f, s')

end Read

section Write

variable (sha256 : List UInt8 → Bytes 32)

/-- `write_without_payload`: the header of an empty payload. -/
def headerWithoutPayload (command : Bytes 12) (magic : Bytes 4) : MessageHeader :=
  { magic, command, payloadSize := 0, checksum := NO_CHECKSUM }

/-- `write_with_payload`: the header of a payload. -/
def headerWithPayload {α : Type} [Payload α] (command : Bytes 12) (payload : α) (magic : Bytes 4) :
    MessageHeader :=
  { magic, command, payloadSize := UInt32.ofNat (Payload.size payload),
    checksum := checksumOf (sha256d sha256 (emitted (Payload.write payload))) }

/-- `write_without_payload`. -/
def writeWithoutPayload (command : Bytes 12) (magic : Bytes 4) : Except IoError (List WriteCall) :=
  .ok (headerWithoutPayload command magic).write

/-- `write_with_payload`. -/
def writeWithPayload {α : Type} [Payload α] (command : Bytes 12) (payload : α) (magic : Bytes 4) :
    Except IoError (List WriteCall) :=
  .ok ((headerWithPayload sha256 command payload magic).write ++ Payload.write payload)

/-- `Message::write`. -/
def write (magic : Bytes 4) : Message → Except IoError (List WriteCall)
  | block p => writeWithPayload sha256 Commands.BLOCK p magic
  | tx p => writeWithPayload sha256 Commands.TX p magic
  | getAddr => writeWithoutPayload Commands.GETADDR magic
  | getBlocks p => writeWithPayload sha256 Commands.GETBLOCKS p magic
  | getData p => writeWithPayload sha256 Commands.GETDATA p magic
  | getHeaders p => writeWithPayload sha256 Commands.GETHEADERS p magic
  | getCFilters p => writeWithPayload sha256 Commands.GETCFILTERS p magic
  | getCFHeaders p => writeWithPayload sha256 Commands.GETCFHEADERS p magic
  | headers p => writeWithPayload sha256 Commands.HEADERS p magic
  | cfHeaders p => writeWithPayload sha256 Commands.CFHEADERS p magic
  | cFilters p => writeWithPayload sha256 Commands.CFILTERS p magic
  | mempool => writeWithoutPayload Commands.MEMPOOL magic
  | notFound p => writeWithPayload sha256 Commands.NOTFOUND p magic
  | inv p => writeWithPayload sha256 Commands.INV p magic
  | other s => .error { kind := .invalidData, msg := s }
  | partialRead _ => .error { kind := .invalidData, msg := "Cannot write partial message" }
  | ping p => writeWithPayload sha256 Commands.PING p magic
  | pong p => writeWithPayload sha256 Commands.PONG p magic
  | reject p => writeWithPayload sha256 Commands.REJECT p magic
  | sendHeaders => writeWithoutPayload Commands.SENDHEADERS magic
  | verack => writeWithoutPayload Commands.VERACK magic
  | version p => writeWithPayload sha256 Commands.VERSION p magic

end Write

end Message

end Bitspend.Wire
