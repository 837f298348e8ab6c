import Mathlib.Data.List.Basic
import Mathlib.Data.Nat.Basic
import Mathlib.Tactic.Ring

/-!
# Machinery/Bytes — fixed-size byte arrays and fixed-width integers

A byte string is a `List UInt8`.  An array `[u8; n]` is a byte string that carries its length, so a
hash or a magic number of the wrong size cannot be built.  A `k`-byte little-endian integer is read
and written through its value in `ℕ`: `toLE k` keeps the low `8k` bits, and `ofLE` undoes it.
-/

namespace Bitspend

/-- A byte array of static size, `[u8; n]`. -/
abbrev Bytes (n : ℕ) := { l : List UInt8 // l.length = n }

namespace Bytes

variable {n : ℕ}

/-- The bytes of an array. -/
abbrev toList (b : Bytes n) : List UInt8 := b.1

@[simp] theorem length_toList (b : Bytes n) : b.toList.length = n := b.2

/-- The array `[0; n]`. -/
def zero (n : ℕ) : Bytes n := ⟨List.replicate n 0, List.length_replicate⟩

instance : Inhabited (Bytes n) := ⟨zero n⟩

end Bytes

/-! ## Little-endian integers -/

/-- The `k` low bytes of a number, least significant first. -/
def toLE : ℕ → ℕ → List UInt8
  | 0, _ => []
  | k + 1, n => UInt8.ofNat n :: toLE k (n / 256)

/-- The number a byte string denotes, least significant byte first. -/
def ofLE : List UInt8 → ℕ
  | [] => 0
  | b :: bs => b.toNat + 256 * ofLE bs

@[simp] theorem length_toLE (k n : ℕ) : (toLE k n).length = k := by
  induction k generalizing n with
  | zero => rfl
  | succ k ih => simp [toLE, ih]

/-- **Reading back what was written keeps the low bytes.** -/
theorem ofLE_toLE_mod (k n : ℕ) : ofLE (toLE k n) = n % 256 ^ k := by
  induction k generalizing n with
  | zero => simp [toLE, ofLE, Nat.mod_one]
  | succ k ih =>
    have hb : (UInt8.ofNat n).toNat = n % 256 := by simp
    rw [toLE, ofLE, ih, hb, pow_succ', Nat.mod_mul]

/-- …so a number that fits is read back unchanged. -/
theorem ofLE_toLE {k n : ℕ} (h : n < 256 ^ k) : ofLE (toLE k n) = n := by
  rw [ofLE_toLE_mod, Nat.mod_eq_of_lt h]

theorem ofLE_lt (bs : List UInt8) : ofLE bs < 256 ^ bs.length := by
  induction bs with
  | nil => simp [ofLE]
  | cons b bs ih =>
    have hb : b.toNat < 256 := b.toNat_lt
    rw [ofLE, List.length_cons, pow_succ']
    omega

/-- Conversely, the bytes of a number are the ones it was read from. -/
theorem toLE_ofLE (bs : List UInt8) : toLE bs.length (ofLE bs) = bs := by
  induction bs with
  | nil => rfl
  | cons b bs ih =>
    have hhead : UInt8.ofNat (b.toNat + 256 * ofLE bs) = b := by
      apply UInt8.toNat_inj.mp
      rw [UInt8.toNat_ofNat', Nat.add_mul_mod_self_left]
      exact Nat.mod_eq_of_lt b.toNat_lt
    have htail : (b.toNat + 256 * ofLE bs) / 256 = ofLE bs := by
      have hb : b.toNat < 256 := b.toNat_lt
      omega
    rw [ofLE, List.length_cons, toLE, hhead, htail, ih]

/-! ## Machine integers

`byteorder`'s readers and writers, at the widths the wire format uses. -/

/-- `write_u16::<LittleEndian>`. -/
def u16LE (n : UInt16) : List UInt8 := toLE 2 n.toNat

/-- `write_u32::<LittleEndian>`. -/
def u32LE (n : UInt32) : List UInt8 := toLE 4 n.toNat

/-- `write_u64::<LittleEndian>`. -/
def u64LE (n : UInt64) : List UInt8 := toLE 8 n.toNat

/-- `write_u16::<BigEndian>`. -/
def u16BE (n : UInt16) : List UInt8 := (toLE 2 n.toNat).reverse

/-- `write_i32::<LittleEndian>`. -/
def i32LE (n : Int32) : List UInt8 := u32LE n.toUInt32

/-- `write_i64::<LittleEndian>`. -/
def i64LE (n : Int64) : List UInt8 := u64LE n.toUInt64

@[simp] theorem length_u16LE (n : UInt16) : (u16LE n).length = 2 := length_toLE _ _
@[simp] theorem length_u32LE (n : UInt32) : (u32LE n).length = 4 := length_toLE _ _
@[simp] theorem length_u64LE (n : UInt64) : (u64LE n).length = 8 := length_toLE _ _
@[simp] theorem length_u16BE (n : UInt16) : (u16BE n).length = 2 := by simp [u16BE]
@[simp] theorem length_i32LE (n : Int32) : (i32LE n).length = 4 := length_u32LE _
@[simp] theorem length_i64LE (n : Int64) : (i64LE n).length = 8 := length_u64LE _

theorem ofLE_u16LE (n : UInt16) : UInt16.ofNat (ofLE (u16LE n)) = n := by
  rw [u16LE, ofLE_toLE (by simpa using n.toNat_lt)]
  exact UInt16.ofNat_toNat

theorem ofLE_u32LE (n : UInt32) : UInt32.ofNat (ofLE (u32LE n)) = n := by
  rw [u32LE, ofLE_toLE (by simpa using n.toNat_lt)]
  exact UInt32.ofNat_toNat

theorem u32LE_ofLE {bs : List UInt8} (h : bs.length = 4) : u32LE (UInt32.ofNat (ofLE bs)) = bs := by
  have hlt := ofLE_lt bs
  rw [h] at hlt
  rw [u32LE, UInt32.toNat_ofNat_of_lt' hlt, ← h, toLE_ofLE]

theorem u16LE_ofLE {bs : List UInt8} (h : bs.length = 2) : u16LE (UInt16.ofNat (ofLE bs)) = bs := by
  have hlt := ofLE_lt bs
  rw [h] at hlt
  rw [u16LE, UInt16.toNat_ofNat_of_lt' hlt, ← h, toLE_ofLE]

theorem u64LE_ofLE {bs : List UInt8} (h : bs.length = 8) : u64LE (UInt64.ofNat (ofLE bs)) = bs := by
  have hlt := ofLE_lt bs
  rw [h] at hlt
  rw [u64LE, UInt64.toNat_ofNat_of_lt' hlt, ← h, toLE_ofLE]

theorem u32LE_injective : Function.Injective u32LE := fun a b h => by
  rw [← ofLE_u32LE a, h, ofLE_u32LE]

/-- Words of one width can be told apart when they are written one after another. -/
theorem flatMap_u32LE_injective {as bs : List UInt32}
    (h : as.flatMap u32LE = bs.flatMap u32LE) : as = bs := by
  induction as generalizing bs with
  | nil =>
    rcases bs with _ | ⟨b, bs⟩
    · rfl
    · have := congrArg List.length h
      simp at this
      omega
  | cons a as ih =>
    rcases bs with _ | ⟨b, bs⟩
    · simpa using congrArg List.length h
    · rw [List.flatMap_cons, List.flatMap_cons] at h
      obtain ⟨hhead, htail⟩ := List.append_inj h (by simp)
      rw [u32LE_injective hhead, ih htail]

theorem ofLE_u64LE (n : UInt64) : UInt64.ofNat (ofLE (u64LE n)) = n := by
  rw [u64LE, ofLE_toLE (by simpa using n.toNat_lt)]
  exact UInt64.ofNat_toNat

end Bitspend
