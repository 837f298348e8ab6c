import Bitspend.Machinery.Bytes
import Bitspend.Machinery.Fault
import Mathlib.Order.Compare

/-!
# Machinery/ByteOrder — byte arrays as little-endian numbers

A loop from the most significant byte down decides the order of two arrays by the first byte in
which they differ.  `compareBelow_eq` says it is the order of the numbers they denote, and
`ofLE_set` what an assignment to one byte does to the number.
-/

namespace Bitspend

/-! ## The number of an array -/

theorem ofLE_append (as bs : List UInt8) :
    ofLE (as ++ bs) = ofLE as + 256 ^ as.length * ofLE bs := by
  induction as with
  | nil => simp [ofLE]
  | cons a as ih =>
    rw [List.cons_append, ofLE, ofLE, ih, List.length_cons, pow_succ']
    ring

@[simp] theorem ofLE_replicate_zero (n : ℕ) : ofLE (List.replicate n 0) = 0 := by
  induction n with
  | zero => rfl
  | succ n ih => simp [List.replicate_succ, ofLE, ih]

/-- **Assigning one byte** moves the number by its place value times the change. -/
theorem ofLE_set {bs : List UInt8} {i : ℕ} (h : i < bs.length) (b : UInt8) :
    ofLE (bs.set i b) + 256 ^ i * bs[i].toNat = ofLE bs + 256 ^ i * b.toNat := by
  have hleft : (bs.take i).length = i := List.length_take_of_le h.le
  have hset : bs.set i b = bs.take i ++ b :: bs.drop (i + 1) :=
    List.set_eq_take_append_cons_drop.trans (if_pos h)
  have hsplit : bs = bs.take i ++ bs[i] :: bs.drop (i + 1) := by
    rw [List.getElem_cons_drop, List.take_append_drop]
  have hbs : ofLE bs
      = ofLE (bs.take i) + 256 ^ i * (bs[i].toNat + 256 * ofLE (bs.drop (i + 1))) := by
    conv_lhs => rw [hsplit, ofLE_append, hleft, ofLE]
  rw [hset, ofLE_append, hleft, ofLE, hbs]
  ring

/-! ## Comparing from the top -/

/-- Compare the bytes below `i`, the most significant first. -/
def compareBelow (as bs : List UInt8) : ℕ → Ordering
  | 0 => .eq
  | i + 1 =>
    if as.getD i 0 < bs.getD i 0 then .lt
    else if as.getD i 0 > bs.getD i 0 then .gt
    else compareBelow as bs i

theorem ofLE_take_succ {bs : List UInt8} {i : ℕ} (h : i < bs.length) :
    ofLE (bs.take (i + 1)) = ofLE (bs.take i) + 256 ^ i * (bs.getD i 0).toNat := by
  have hlen : (bs.take i).length = i := List.length_take_of_le h.le
  rw [← List.take_append_getElem h, ofLE_append, hlen, ← List.getElem_eq_getD (h := h) 0]
  simp [ofLE]

theorem ofLE_take_lt {bs : List UInt8} {i : ℕ} (h : i ≤ bs.length) :
    ofLE (bs.take i) < 256 ^ i := by
  have := ofLE_lt (bs.take i)
  rwa [List.length_take_of_le h] at this

/-- The more significant digit decides. -/
theorem add_mul_lt_of_lt {m a b x y : ℕ} (hx : x < m) (h : a < b) : x + m * a < y + m * b :=
  calc x + m * a < m + m * a := Nat.add_lt_add_right hx _
    _ = m * (a + 1) := by ring
    _ ≤ m * b := Nat.mul_le_mul_left m h
    _ ≤ y + m * b := Nat.le_add_left _ _

/-- **The first difference from the top decides the order of the numbers.** -/
theorem compareBelow_eq {as bs : List UInt8} {i : ℕ} (ha : i ≤ as.length) (hb : i ≤ bs.length) :
    compareBelow as bs i = compare (ofLE (as.take i)) (ofLE (bs.take i)) := by
  induction i with
  | zero => simp [compareBelow, ofLE]
  | succ i ih =>
    have hlow := ofLE_take_lt (Nat.le_of_succ_le ha)
    have hlow' := ofLE_take_lt (Nat.le_of_succ_le hb)
    rw [compareBelow, ofLE_take_succ ha, ofLE_take_succ hb]
    simp only [UInt8.lt_iff_toNat_lt, gt_iff_lt]
    rcases lt_trichotomy (as.getD i 0).toNat (bs.getD i 0).toNat with hlt | heq | hgt
    · rw [if_pos hlt, eq_comm, compare_lt_iff_lt]
      exact add_mul_lt_of_lt hlow hlt
    · rw [heq, if_neg (lt_irrefl _), if_neg (lt_irrefl _),
        ih (Nat.le_of_succ_le ha) (Nat.le_of_succ_le hb)]
      simp only [Nat.compare_eq_ite_lt, Nat.add_lt_add_iff_right]
    · rw [if_neg hgt.asymm, if_pos hgt, eq_comm, compare_gt_iff_gt]
      exact add_mul_lt_of_lt hlow' hgt

/-! ## Assignments to an array -/

namespace Bytes

variable {ε : Type} {n : ℕ}

theorem getD_zero (i : ℕ) : (zero n).toList.getD i 0 = 0 := by
  rw [zero, List.getD_eq_getElem?_getD, List.getElem?_replicate]
  split <;> rfl

/-- `array[i] = b`. -/
def assign (a : Bytes n) (i : ℕ) (b : UInt8) : Outcome ε (Bytes n) :=
  if i < n then .ok ⟨a.toList.set i b, by rw [List.length_set, a.2]⟩
  else .error (.panic "index out of bounds")

/-- **Filling in a byte that was zero** adds it at its place, and leaves the others. -/
theorem exists_assign {a : Bytes n} {i : ℕ} (h : i < n) (hzero : a.toList.getD i 0 = 0) (b : UInt8) :
    ∃ a' : Bytes n, (a.assign i b : Outcome ε (Bytes n)) = .ok a'
      ∧ ofLE a'.toList = ofLE a.toList + 256 ^ i * b.toNat
      ∧ ∀ j ≠ i, a'.toList.getD j 0 = a.toList.getD j 0 := by
  have hi : i < a.toList.length := h.trans_eq a.2.symm
  refine ⟨_, if_pos h, ?_, fun j hj => ?_⟩
  · have hset := ofLE_set hi b
    rw [List.getElem_eq_getD (h := hi) 0, hzero] at hset
    exact hset
  · rw [List.getD_eq_getElem?_getD, List.getElem?_set_ne hj.symm, List.getD_eq_getElem?_getD]

end Bytes

end Bitspend
