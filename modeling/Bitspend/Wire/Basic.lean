import Bitspend.Machinery.Codec
import Mathlib.Algebra.BigOperators.Group.List.Basic
import Mathlib.Algebra.Order.BigOperators.Group.List

/-!
# Wire/Basic — errors, hashes, strings and variable-length integers

The leaves of the P2P serialization (`util/result.rs`, `util/hash256.rs`, `util/var_int.rs`).
SHA-256 is a parameter wherever it is used: nothing below depends on what it computes.
-/

namespace Bitspend

/-! ## Errors -/

/-- `std::io::ErrorKind`, the kinds the node tells apart. -/
inductive IoErrorKind where
  | unexpectedEof
  | timedOut
  | wouldBlock
  | invalidData
  | other
  deriving Repr, DecidableEq

/-- `std::io::Error`. -/
structure IoError where
  kind : IoErrorKind
  msg : String
  deriving Repr, DecidableEq

/-- The node's error type, `util::Error`: the variants its modelled code returns. -/
inductive Error where
  | fetchCompactFilter (code : UInt32)
  | fetchCompactFilterHeader (code : UInt32)
  | fetchBlock (code : UInt32)
  | filterMatchEror
  | networkError
  | fetchHeader (code : UInt32)
  | badArgument (msg : String)
  | badData (msg : String)
  | fromUtf8Error
  | ioError (e : IoError)
  | timeout
  | streamingError
  | wrongP2PMessage
  | peerNotFound
  | walletError (code : UInt32)
  deriving Repr, DecidableEq

/-- `Error::to_error_code`. -/
def Error.toErrorCode : Error → UInt32
  | .badArgument _ => 1
  | .badData _ => 2
  | .fromUtf8Error => 5
  | .ioError _ => 8
  | .timeout => 12
  | .streamingError => 15
  | .wrongP2PMessage => 16
  | .peerNotFound => 19
  | .fetchCompactFilter _ => 22
  | .fetchCompactFilterHeader _ => 23
  | .fetchBlock _ => 24
  | .filterMatchEror => 25
  | .networkError => 26
  | .fetchHeader _ => 27
  | .walletError _ => 28

instance : EofError Error :=
  ⟨.ioError { kind := .unexpectedEof, msg := "failed to fill whole buffer" }⟩

/-! ## Serialization -/

/-- `Payload`: a value that writes itself and announces the size of what it writes. -/
class Payload (α : Type) where
  write : α → List WriteCall
  size : α → ℕ

/-- **The announced size is the size written.** -/
def SizeExact (α : Type) [Payload α] : Prop :=
  ∀ v : α, (emitted (Payload.write v)).length = Payload.size v

/-! ## Hashes -/

/-- `Hash256`: 32 bytes. -/
abbrev Hash256 := Bytes 32

namespace Hash256

/-- `Hash256::read`: one `Read::read` call, so a short cursor leaves zeros behind. -/
def read : Decoder Error Hash256 := readSome 32

/-- `Hash256::write`: one `Write::write` call. -/
def write (h : Hash256) : List WriteCall := [.write h.toList]

theorem decodes (h : Hash256) : Decodes read (emitted h.write) h :=
  (Decodes.readSome h).congr (by simp [write])

@[simp] theorem length_write (h : Hash256) : (emitted h.write).length = 32 := by simp [write]

end Hash256

/-- `sha256d`: SHA-256 applied twice. -/
def sha256d (sha256 : List UInt8 → Bytes 32) (data : List UInt8) : Hash256 :=
  sha256 (sha256 data).toList

/-! ## Strings -/

/-- `str::as_bytes`. -/
def asBytes (s : String) : List UInt8 := s.toByteArray.data.toList

/-- `String::from_utf8`. -/
def fromUtf8 (bs : List UInt8) : Outcome Error String :=
  Outcome.okOr .fromUtf8Error (String.fromUTF8? ⟨bs.toArray⟩)

/-- **A string is recovered from its bytes.** -/
theorem fromUtf8_asBytes (s : String) : fromUtf8 (asBytes s) = .ok s := by
  have h : (⟨(asBytes s).toArray⟩ : ByteArray) = s.toByteArray := by simp [asBytes]
  rw [fromUtf8, h, String.fromUTF8?, dif_pos s.isValidUTF8]
  rfl

/-! ## Variable-length integers -/

namespace VarInt

/-- `var_int::size`. -/
def size (n : UInt64) : ℕ :=
  if n ≤ 252 then 1
  else if n ≤ 0xffff then 3
  else if n ≤ 0xffffffff then 5
  else 9

/-- `var_int::write`. -/
def write (n : UInt64) : List WriteCall :=
  if n ≤ 252 then [.writeAll [n.toUInt8]]
  else if n ≤ 0xffff then [.writeAll [0xfd], .writeAll (u16LE n.toUInt16)]
  else if n ≤ 0xffffffff then [.writeAll [0xfe], .writeAll (u32LE n.toUInt32)]
  else [.writeAll [0xff], .writeAll (u64LE n)]

/-- What follows the first byte of an integer: the wide forms after a marker, nothing otherwise. -/
def readRest (n0 : UInt8) : Decoder Error UInt64 :=
  if n0 = 0xff then readU64
  else if n0 = 0xfe then do
    let n ← readU32
    pure n.toUInt64
  else if n0 = 0xfd then do
    let n ← readU16
    pure n.toUInt64
  else pure n0.toUInt64

/-- `var_int::read`. -/
def read : Decoder Error UInt64 := do
  let n0 ← readU8
  readRest n0

@[simp] theorem length_write (n : UInt64) : (emitted (write n)).length = size n := by
  unfold write size
  split_ifs <;> simp

/-- A byte below every marker is the value itself. -/
theorem readRest_of_le {n0 : UInt8} (h : n0.toNat ≤ 252) : readRest n0 = pure n0.toUInt64 := by
  have hne : ∀ m : UInt8, 252 < m.toNat → n0 ≠ m := by
    rintro m hm rfl
    omega
  rw [readRest, if_neg (hne 0xff (by decide)), if_neg (hne 0xfe (by decide)),
    if_neg (hne 0xfd (by decide))]

/-- **A variable-length integer is read back.**  The marker byte selects the branch that wrote it:
a one-byte value is at most 252, below every marker. -/
theorem decodes (n : UInt64) : Decodes read (emitted (write n)) n := by
  unfold write
  split_ifs with h1 h2 h3
  · have hlt : n.toNat ≤ 252 := by simpa [UInt64.le_iff_toNat_le] using h1
    have hval : n.toUInt8.toNat = n.toNat := by
      rw [UInt64.toNat_toUInt8]
      omega
    have hback : n.toUInt8.toUInt64 = n := by
      apply UInt64.toNat_inj.mp
      rw [UInt8.toNat_toUInt64, hval]
    have hrest : Decodes (readRest n.toUInt8) [] n := by
      rw [readRest_of_le (by omega), hback]
      exact Decodes.pure n
    exact ((Decodes.readU8 n.toUInt8).bind hrest).congr (by simp)
  · have hlt : n.toNat ≤ 0xffff := by simpa [UInt64.le_iff_toNat_le] using h2
    have hback : n.toUInt16.toUInt64 = n := by
      apply UInt64.toNat_inj.mp
      rw [UInt16.toNat_toUInt64, UInt64.toNat_toUInt16]
      omega
    have hrest : Decodes (readRest 0xfd) (u16LE n.toUInt16) n := by
      have h := (Decodes.readU16 (ε := Error) n.toUInt16).map UInt16.toUInt64
      rwa [hback] at h
    exact ((Decodes.readU8 0xfd).bind hrest).congr (by simp)
  · have hlt : n.toNat ≤ 0xffffffff := by simpa [UInt64.le_iff_toNat_le] using h3
    have hback : n.toUInt32.toUInt64 = n := by
      apply UInt64.toNat_inj.mp
      rw [UInt32.toNat_toUInt64, UInt64.toNat_toUInt32]
      omega
    have hrest : Decodes (readRest 0xfe) (u32LE n.toUInt32) n := by
      have h := (Decodes.readU32 (ε := Error) n.toUInt32).map UInt32.toUInt64
      rwa [hback] at h
    exact ((Decodes.readU8 0xfe).bind hrest).congr (by simp)
  · have hrest : Decodes (readRest 0xff) (u64LE n) n := Decodes.readU64 n
    exact ((Decodes.readU8 0xff).bind hrest).congr (by simp)

/-- `var_int::write(xs.len() as u64, writer)`. -/
def writeLen {α : Type} (xs : List α) : List WriteCall := write (UInt64.ofNat xs.length)

/-- `var_int::size(xs.len() as u64)`. -/
def sizeLen {α : Type} (xs : List α) : ℕ := size (UInt64.ofNat xs.length)

theorem one_le_size (n : UInt64) : 1 ≤ size n := by
  unfold size
  split_ifs <;> omega

end VarInt

/-- **A length-prefixed list, read back**: the count is recovered, then the loop runs that often. -/
theorem decodes_counted {α : Type} {p : Decoder Error α} {enc : α → List UInt8} {as : List α}
    (hlen : as.length < 2 ^ 64) (h : ∀ a ∈ as, Decodes p (enc a) a) :
    Decodes (readMany (UInt64.ofNat as.length).toNat p) (as.flatMap enc) as := by
  rw [UInt64.toNat_ofNat_of_lt' hlen]
  exact Decodes.readMany h

/-- The same, from a bound on the total size: it bounds the count and every element. -/
theorem decodes_counted_of_sum {α : Type} {p : Decoder Error α} {enc : α → List UInt8}
    {size : α → ℕ} {as : List α} (hpos : ∀ a ∈ as, 1 ≤ size a) (hsum : (as.map size).sum < 2 ^ 64)
    (h : ∀ a ∈ as, size a < 2 ^ 64 → Decodes p (enc a) a) :
    Decodes (readMany (UInt64.ofNat as.length).toNat p) (as.flatMap enc) as := by
  have hcount : as.length ≤ (as.map size).sum := by
    have := List.length_le_sum_of_one_le (as.map size) (by simpa using hpos)
    simpa using this
  refine decodes_counted (by omega) fun a ha => h a ha ?_
  exact lt_of_le_of_lt (List.le_sum_of_mem (List.mem_map_of_mem ha)) hsum

/-- The bytes of a script or a filter, read one at a time. -/
theorem decodes_countedBytes {bs : List UInt8} (hlen : bs.length < 2 ^ 64) :
    Decodes (readMany (UInt64.ofNat bs.length).toNat (readU8 : Decoder Error UInt8)) bs bs := by
  have h : ∀ b ∈ bs, Decodes (readU8 : Decoder Error UInt8) [b] b := fun b _ => Decodes.readU8 b
  exact (decodes_counted hlen h).congr (by simp)

end Bitspend
