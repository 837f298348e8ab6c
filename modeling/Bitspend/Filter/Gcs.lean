import Bitspend.Machinery.Bits
import Bitspend.Machinery.Op
import Bitspend.Wire.Basic

/-!
# Filter/Gcs — Golomb-coded sets

`block_filter.rs`.  The content of a filter is a count and a bit stream: for each value of a sorted list
the difference to the one before, its quotient by `2 ^ P` in unary and its remainder in `P` bits.  A query
is hashed, brought into the range of the values, and looked for in one pass over the stream, the queries
sorted as well.

SipHash is a parameter.  The bits of a byte are counted in `ℕ`; sums and shifts of `u64` wrap.  The loops
are bounded by the bits that are left.
-/

namespace Bitspend.Filter

/-- The `io::Error`s of the module. -/
inductive IoError where
  | other (msg : String)
  deriving Repr, DecidableEq

/-- `call.unwrap()`. -/
def unwrap {σ α : Type} (x : Op IoError σ α) : Op IoError σ α := fun s =>
  (Outcome.expectOk "called `Result::unwrap()` on an `Err` value" (x s).1, (x s).2)

/-! ## Bit streams -/

/-- `BitStreamReader`, with what is left of the reader it reads from. -/
structure BitStreamReader where
  buffer : UInt8
  offset : ℕ
  reader : List UInt8
  deriving Repr, DecidableEq

namespace BitStreamReader

/-- `BitStreamReader::new`. -/
def new (reader : List UInt8) : BitStreamReader := ⟨0, 8, reader⟩

/-- The bits that are left. -/
def bitsLeft (s : BitStreamReader) : ℕ := (8 - s.offset) + 8 * s.reader.length

/-- A byte with a bit left in it: when the last one is used up,
`self.reader.read_exact(&mut self.buffer).unwrap(); self.offset = 0`. -/
def refill : Op IoError BitStreamReader Unit := fun s =>
  if s.offset = 8 then
    match s.reader with
    | b :: rest => (.ok (), ⟨b, 0, rest⟩)
    | [] => (.error (.panic "called `Result::unwrap()` on an `Err` value"), s)
  else (.ok (), s)

/-- One round of the loop of `read`. -/
def readRound (x : ℕ × UInt64) : Op IoError BitStreamReader ((ℕ × UInt64) ⊕ UInt64) := do
  if 0 < x.1 then
    refill
    let s ← Op.ask fun s => .ok s
    let bits := min (8 - s.offset) x.1
    let chunk := (s.buffer <<< UInt8.ofNat s.offset) >>> UInt8.ofNat (8 - bits)
    let data := (x.2 <<< UInt64.ofNat bits) ||| chunk.toUInt64
    Op.update fun s => { s with offset := s.offset + bits }
    pure (.inl (x.1 - bits, data))
  else pure (.inr x.2)

/-- `BitStreamReader::read`; a round takes at least one bit. -/
def read (nbits : ℕ) : Op IoError BitStreamReader UInt64 :=
  if 64 < nbits then Op.lift (Outcome.err (.other "can not read more than 64 bits at once"))
  else Op.loop readRound (nbits + 1) (nbits, 0)

end BitStreamReader

/-! ## The filter -/

/-- `GcsFilter`. -/
structure GcsFilter where
  k0 : UInt64
  k1 : UInt64
  p : UInt8
  deriving Repr, DecidableEq

/-- `siphash24::Hash::hash_to_u64_with_keys`. -/
abbrev SipHash := UInt64 → UInt64 → List UInt8 → UInt64

namespace GcsFilter

/-- One round of `while reader.read(1).unwrap() == 1`. -/
def unaryRound (q : UInt64) : Op IoError BitStreamReader (UInt64 ⊕ UInt64) := do
  let bit ← unwrap (BitStreamReader.read 1)
  if bit = 1 then pure (.inl (q + 1)) else pure (.inr q)

/-- `GcsFilter::golomb_rice_decode`. -/
def golombRiceDecode (filter : GcsFilter) : Op IoError BitStreamReader UInt64 := do
  let q ← Op.loopOn BitStreamReader.bitsLeft unaryRound 0
  let r ← unwrap (BitStreamReader.read filter.p.toNat)
  pure ((q <<< filter.p.toUInt64) + r)

/-- `GcsFilter::hash`. -/
def hash (sip : SipHash) (filter : GcsFilter) (element : List UInt8) : UInt64 :=
  sip filter.k0 filter.k1 element

end GcsFilter

/-- `map_to_range`. -/
def mapToRange (hash nm : UInt64) : UInt64 := UInt64.ofNat ((hash.toNat * nm.toNat) >>> 64)

/-! ## Matching -/

/-- `GcsFilterReader`. -/
structure GcsFilterReader where
  filter : GcsFilter
  m : UInt64
  deriving Repr, DecidableEq

namespace GcsFilterReader

/-- `GcsFilterReader::new`. -/
def new (k0 k1 m : UInt64) (p : UInt8) : GcsFilterReader := ⟨⟨k0, k1, p⟩, m⟩

/-- What `match_any` and `match_all` do with a query that is met and with one that is passed: break the
inner loop, or return. -/
structure Policy where
  onEqual : Option Bool
  onGreater : Option Bool
  atEnd : Bool

/-- `match_any`: the first match is enough. -/
def Policy.any : Policy := ⟨some true, none, false⟩

/-- `match_all`: the first miss is enough. -/
def Policy.all : Policy := ⟨none, some false, true⟩

/-- Out of the inner loop, with a result or with where the next query starts from. -/
def leave (answer : Option Bool) (x : UInt64 × UInt64) : Bool ⊕ (UInt64 × UInt64) :=
  match answer with
  | some b => .inl b
  | none => .inr x

/-- One round of the inner loop: the value the stream is at, and how many are left. -/
def seekRound (reader : GcsFilterReader) (policy : Policy) (query : UInt64) (x : UInt64 × UInt64) :
    Op IoError BitStreamReader ((UInt64 × UInt64) ⊕ (Bool ⊕ (UInt64 × UInt64))) :=
  match compare x.1 query with
  | .eq => pure (.inr (leave policy.onEqual x))
  | .lt => do
    if 0 < x.2 then
      let delta ← unwrap reader.filter.golombRiceDecode
      pure (.inl (x.1 + delta, x.2 - 1))
    else pure (.inr (.inl false))
  | .gt => pure (.inr (leave policy.onGreater x))

/-- The loops over the queries and, for each, over the values. -/
def seekAll (reader : GcsFilterReader) (policy : Policy) :
    List UInt64 → UInt64 × UInt64 → Op IoError BitStreamReader Bool
  | [], _ => pure policy.atEnd
  | query :: queries, x => do
    match ← Op.loop (reader.seekRound policy query) (x.2.toNat + 1) x with
    | .inl b => pure b
    | .inr x => reader.seekAll policy queries x

/-- From the first value on. -/
def seekFrom (reader : GcsFilterReader) (policy : Policy) (count : UInt64) (mapped : List UInt64) :
    Op IoError BitStreamReader Bool := do
  let data ← unwrap reader.filter.golombRiceDecode
  reader.seekAll policy mapped (data, count - 1)

/-- `var_int::read(reader).unwrap_or(0)`, and what is left to read; nothing is read after an error. -/
def count (content : List UInt8) : UInt64 × List UInt8 :=
  match VarInt.read content with
  | .ok x => x
  | .error _ => (0, [])

/-- The queries in the range of the values, sorted. -/
def mapped (sip : SipHash) (reader : GcsFilterReader) (n : UInt64) (queries : List (List UInt8)) :
    List UInt64 :=
  (queries.map fun e => mapToRange (reader.filter.hash sip e) (n * reader.m)).mergeSort
    fun a b => decide (a ≤ b)

/-- `Vec::dedup`. -/
def dedup : List UInt64 → List UInt64
  | [] => []
  | [a] => [a]
  | a :: b :: l => if a = b then dedup (b :: l) else a :: dedup (b :: l)

/-- `GcsFilterReader::match_any`. -/
def matchAny (sip : SipHash) (reader : GcsFilterReader) (content : List UInt8)
    (queries : List (List UInt8)) : Outcome IoError Bool :=
  let (n, rest) := count content
  let mapped := mapped sip reader n queries
  if mapped.isEmpty then .ok true
  else if n = 0 then .ok false
  else (reader.seekFrom .any n mapped (.new rest)).1

/-- `GcsFilterReader::match_all`. -/
def matchAll (sip : SipHash) (reader : GcsFilterReader) (content : List UInt8)
    (queries : List (List UInt8)) : Outcome IoError Bool :=
  let (n, rest) := count content
  let mapped := dedup (mapped sip reader n queries)
  if mapped.isEmpty then .ok true
  else if n = 0 then .ok false
  else (reader.seekFrom .all n mapped (.new rest)).1

end GcsFilterReader

/-! ## Block filters -/

def P : UInt8 := 19
def M : UInt64 := 784931

/-- `BlockFilterReader::new`: the keys are the first two words of the block hash. -/
def blockFilterReader (blockHash : Hash256) : GcsFilterReader :=
  .new (UInt64.ofNat (ofLE (blockHash.toList.take 8)))
    (UInt64.ofNat (ofLE ((blockHash.toList.drop 8).take 8))) M P

/-- `BlockFilter`. -/
structure BlockFilter where
  content : List UInt8
  deriving Repr, DecidableEq

namespace BlockFilter

/-- `BlockFilter::match_any`. -/
def matchAny (sip : SipHash) (filter : BlockFilter) (blockHash : Hash256)
    (queries : List (List UInt8)) : Outcome IoError Bool :=
  (blockFilterReader blockHash).matchAny sip filter.content queries

/-- `BlockFilter::match_all`. -/
def matchAll (sip : SipHash) (filter : BlockFilter) (blockHash : Hash256)
    (queries : List (List UInt8)) : Outcome IoError Bool :=
  (blockFilterReader blockHash).matchAll sip filter.content queries

end BlockFilter

end Bitspend.Filter
