import Bitspend.Machinery.Bytes
import Mathlib.Data.List.Induction

/-!
# Machinery/Bits — bit strings, most significant bit first

A bit string denotes a number (`natOfBits`), a number has a bit string of any width (`bitsOf`), and a bit
string is packed into bytes with zeros at its end (`packBits`).  Taking and dropping bits is dividing and
reducing the number, which is what a reader that shifts bytes about computes.
-/

namespace Bitspend

/-- The number a bit string denotes. -/
def natOfBits (l : List Bool) : ℕ := l.foldl (fun n b => 2 * n + b.toNat) 0

/-- The `w` low bits of a number. -/
def bitsOf : ℕ → ℕ → List Bool
  | 0, _ => []
  | w + 1, n => bitsOf w (n / 2) ++ [decide (n % 2 = 1)]

/-- The bits of a byte. -/
def byteBits (b : UInt8) : List Bool := bitsOf 8 b.toNat

/-! ## Numbers and their bits -/

@[simp] theorem natOfBits_nil : natOfBits [] = 0 := rfl

@[simp] theorem natOfBits_concat (l : List Bool) (b : Bool) :
    natOfBits (l ++ [b]) = 2 * natOfBits l + b.toNat := by
  rw [natOfBits, List.foldl_append]
  rfl

/-- **The first part counts for more.** -/
theorem natOfBits_append (l l' : List Bool) :
    natOfBits (l ++ l') = natOfBits l * 2 ^ l'.length + natOfBits l' := by
  induction l' using List.reverseRecOn with
  | nil => simp
  | append_singleton l' b ih =>
    rw [← List.append_assoc, natOfBits_concat, natOfBits_concat, ih, List.length_append,
      List.length_singleton, pow_succ]
    ring

theorem natOfBits_lt (l : List Bool) : natOfBits l < 2 ^ l.length := by
  induction l using List.reverseRecOn with
  | nil => simp
  | append_singleton l b ih =>
    have hb := b.toNat_le
    rw [natOfBits_concat, List.length_append, List.length_singleton, pow_succ]
    omega

@[simp] theorem length_bitsOf (w n : ℕ) : (bitsOf w n).length = w := by
  induction w generalizing n with
  | zero => rfl
  | succ w ih => rw [bitsOf, List.length_append, ih, List.length_singleton]

theorem natOfBits_bitsOf (w n : ℕ) : natOfBits (bitsOf w n) = n % 2 ^ w := by
  induction w generalizing n with
  | zero => rw [bitsOf, natOfBits_nil, pow_zero, Nat.mod_one]
  | succ w ih =>
    have hbit : (decide (n % 2 = 1)).toNat = n % 2 := by
      rcases Nat.mod_two_eq_zero_or_one n with h | h <;> rw [h] <;> rfl
    rw [bitsOf, natOfBits_concat, ih, hbit, pow_succ', Nat.mod_mul]
    omega

/-- **A bit string is the bits of its number.** -/
theorem bitsOf_natOfBits (l : List Bool) : bitsOf l.length (natOfBits l) = l := by
  induction l using List.reverseRecOn with
  | nil => rfl
  | append_singleton l b ih =>
    have hdiv : (2 * natOfBits l + b.toNat) / 2 = natOfBits l := by
      have := b.toNat_le
      omega
    have hmod : decide ((2 * natOfBits l + b.toNat) % 2 = 1) = b := by
      rcases b <;> simp
    rw [List.length_append, List.length_singleton, natOfBits_concat, bitsOf, hdiv, hmod, ih]

/-- Taking bits off the front is dividing… -/
theorem natOfBits_take (l : List Bool) (k : ℕ) :
    natOfBits (l.take k) = natOfBits l / 2 ^ (l.length - k) := by
  have hsplit := natOfBits_append (l.take k) (l.drop k)
  have hlt := natOfBits_lt (l.drop k)
  rw [List.take_append_drop, List.length_drop] at hsplit
  rw [List.length_drop] at hlt
  rw [hsplit, Nat.mul_comm, Nat.mul_add_div (Nat.two_pow_pos _), Nat.div_eq_of_lt hlt, Nat.add_zero]

/-- …and dropping them is taking the remainder. -/
theorem natOfBits_drop (l : List Bool) (k : ℕ) :
    natOfBits (l.drop k) = natOfBits l % 2 ^ (l.length - k) := by
  have hsplit := natOfBits_append (l.take k) (l.drop k)
  have hlt := natOfBits_lt (l.drop k)
  rw [List.take_append_drop, List.length_drop] at hsplit
  rw [List.length_drop] at hlt
  rw [hsplit, Nat.mul_comm, Nat.mul_add_mod, Nat.mod_eq_of_lt hlt]

theorem natOfBits_take_lt (l : List Bool) (k : ℕ) : natOfBits (l.take k) < 2 ^ k :=
  (natOfBits_lt _).trans_le (Nat.pow_le_pow_right (by decide) (List.length_take_le k l))

/-- **Pushing two groups of bits one after the other is pushing them together…** -/
theorem push_take (data : ℕ) {l : List Bool} {c n : ℕ} (hcn : c ≤ n) (hn : n ≤ l.length) :
    (data * 2 ^ c + natOfBits (l.take c)) * 2 ^ (n - c) + natOfBits ((l.drop c).take (n - c))
      = data * 2 ^ n + natOfBits (l.take n) := by
  have hpow : 2 ^ n = 2 ^ c * 2 ^ (n - c) := by
    rw [← pow_add, Nat.add_sub_cancel' hcn]
  have hsplit : l.take n = l.take c ++ (l.drop c).take (n - c) := by
    rw [← List.take_add, Nat.add_sub_cancel' hcn]
  have hlen : ((l.drop c).take (n - c)).length = n - c := by
    rw [List.length_take, List.length_drop]
    omega
  rw [hsplit, natOfBits_append, hlen, hpow]
  ring

/-- …and the second fits where both do. -/
theorem succ_push_take_le (data : ℕ) (l : List Bool) {c n : ℕ} (hcn : c ≤ n) :
    (data * 2 ^ c + natOfBits (l.take c) + 1) * 2 ^ (n - c) ≤ (data + 1) * 2 ^ n := by
  have hlt := natOfBits_take_lt l c
  calc (data * 2 ^ c + natOfBits (l.take c) + 1) * 2 ^ (n - c)
      ≤ (data + 1) * 2 ^ c * 2 ^ (n - c) := by
        refine Nat.mul_le_mul_right _ ?_
        rw [Nat.add_mul, Nat.one_mul]
        omega
    _ = (data + 1) * 2 ^ n := by
        rw [Nat.mul_assoc, ← pow_add, Nat.add_sub_cancel' hcn]

/-! ## Bytes -/

@[simp] theorem length_byteBits (b : UInt8) : (byteBits b).length = 8 := length_bitsOf 8 _

theorem natOfBits_byteBits (b : UInt8) : natOfBits (byteBits b) = b.toNat := by
  rw [byteBits, natOfBits_bitsOf]
  exact Nat.mod_eq_of_lt b.toNat_lt

/-- **Some bits from the middle of a byte**, by shifting out what is before them and then what is
after. -/
theorem natOfBits_middle (b : UInt8) {offset n : ℕ} (h : offset + n ≤ 8) :
    natOfBits (((byteBits b).drop offset).take n)
      = b.toNat * 2 ^ offset % 2 ^ 8 / 2 ^ (8 - n) := by
  have hword : 2 ^ 8 = 2 ^ (8 - offset) * 2 ^ offset := by
    rw [← pow_add]
    congr 1
    omega
  have hrest : 2 ^ (8 - n) = 2 ^ (8 - offset - n) * 2 ^ offset := by
    rw [← pow_add]
    congr 1
    omega
  rw [natOfBits_take, natOfBits_drop, natOfBits_byteBits, List.length_drop, length_byteBits, hword,
    Nat.mul_mod_mul_right, hrest, Nat.mul_div_mul_right _ _ (Nat.two_pow_pos _)]

/-- So many bytes from the front of a bit string. -/
def bytesOf : ℕ → List Bool → List UInt8
  | 0, _ => []
  | k + 1, l => UInt8.ofNat (natOfBits (l.take 8)) :: bytesOf k (l.drop 8)

/-- The zeros that fill up the last byte. -/
def padding (n : ℕ) : List Bool := List.replicate ((8 - n % 8) % 8) false

/-- **A bit string in bytes**, with zeros at its end. -/
def packBits (l : List Bool) : List UInt8 := bytesOf ((l.length + 7) / 8) (l ++ padding l.length)

theorem flatMap_bytesOf {k : ℕ} {l : List Bool} (h : l.length = 8 * k) :
    (bytesOf k l).flatMap byteBits = l := by
  induction k generalizing l with
  | zero =>
    rw [List.length_eq_zero_iff.mp h]
    rfl
  | succ k ih =>
    have hlen : (l.take 8).length = 8 := by
      rw [List.length_take]
      omega
    have hbyte : byteBits (UInt8.ofNat (natOfBits (l.take 8))) = l.take 8 := by
      have hlt := natOfBits_lt (l.take 8)
      rw [hlen] at hlt
      rw [byteBits, UInt8.toNat_ofNat_of_lt' hlt]
      have := bitsOf_natOfBits (l.take 8)
      rwa [hlen] at this
    rw [bytesOf, List.flatMap_cons, hbyte, ih (by rw [List.length_drop]; omega),
      List.take_append_drop]

/-- **The bits of a packed string are the string and some zeros.** -/
theorem flatMap_packBits (l : List Bool) :
    (packBits l).flatMap byteBits = l ++ padding l.length := by
  refine flatMap_bytesOf ?_
  rw [List.length_append, padding, List.length_replicate]
  omega

end Bitspend
