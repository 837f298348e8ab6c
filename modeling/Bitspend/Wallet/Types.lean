import Bitspend.Machinery.Bytes
import Bitspend.Machinery.Fault

/-!
# Wallet/Types — amounts, coins and keychains

`crates/wallet/src/types.rs`, and the part of `bitcoin` it is written in.  Amounts are satoshis: an
`Amount` is a natural number that `+` keeps below `2^64`, a `SignedAmount` an integer that `+` and
`-` keep inside `i64`; an operation that leaves its range panics, as the library's does.  A `Weight`
is a natural number of weight units.  The library's `FeeRate * Weight` and `Iterator::sum` are not
checked: they are plain `u64` operations and wrap, as in a release build.  (With overflow checks they
panic; statements about exact fees keep the products in range, by `FeeRate.Multiplies`.)
-/

namespace Bitspend.Wallet

variable {ε : Type}

/-! ## Amounts -/

namespace Amount

/-- `Amount + Amount`. -/
def add (a b : ℕ) : Outcome ε ℕ :=
  if a + b < 2 ^ 64 then pure (a + b) else .error (.panic "Amount addition error")

/-- `Amount - Amount`. -/
def sub (a b : ℕ) : Outcome ε ℕ :=
  if b ≤ a then pure (a - b) else .error (.panic "Amount subtraction error")

/-- `Amount::checked_sub`. -/
def checkedSub (a b : ℕ) : Option ℕ := if b ≤ a then some (a - b) else none

/-- `Amount::checked_add`. -/
def checkedAdd (a b : ℕ) : Option ℕ := if a + b < 2 ^ 64 then some (a + b) else none

/-- `Amount::to_signed`, also `Amount::try_into`. -/
def toSigned (a : ℕ) : Option ℤ := if a < 2 ^ 63 then some a else none

/-- `Iterator::sum`: the plain `u64` sum underneath, which wraps. -/
def sum (as : List ℕ) : ℕ := as.sum % 2 ^ 64

theorem add_eq_ok {a b c : ℕ} :
    (add a b : Outcome ε ℕ) = .ok c ↔ a + b < 2 ^ 64 ∧ c = a + b := by
  unfold add
  split <;> simp_all [pure, Except.pure, eq_comm]

theorem sub_eq_ok {a b c : ℕ} : (sub a b : Outcome ε ℕ) = .ok c ↔ b ≤ a ∧ c = a - b := by
  unfold sub
  split <;> simp_all [pure, Except.pure, eq_comm]

theorem toSigned_eq_some {a : ℕ} {s : ℤ} :
    toSigned a = some s ↔ a < 2 ^ 63 ∧ s = (a : ℤ) := by
  unfold toSigned
  split <;> simp_all [eq_comm]

theorem sum_of_lt {as : List ℕ} (h : as.sum < 2 ^ 64) : sum as = as.sum := Nat.mod_eq_of_lt h

end Amount

namespace SignedAmount

/-- The range of `i64`. -/
def InRange (a : ℤ) : Prop := -2 ^ 63 ≤ a ∧ a < 2 ^ 63

instance (a : ℤ) : Decidable (InRange a) := inferInstanceAs (Decidable (_ ∧ _))

/-- `SignedAmount + SignedAmount`. -/
def add (a b : ℤ) : Outcome ε ℤ :=
  if InRange (a + b) then pure (a + b) else .error (.panic "SignedAmount addition error")

/-- `SignedAmount - SignedAmount`. -/
def sub (a b : ℤ) : Outcome ε ℤ :=
  if InRange (a - b) then pure (a - b) else .error (.panic "SignedAmount subtraction error")

/-- `SignedAmount::to_unsigned`, also `SignedAmount::try_into`. -/
def toUnsigned (a : ℤ) : Option ℕ := if 0 ≤ a then some a.toNat else none

theorem add_eq_ok {a b c : ℤ} :
    (add a b : Outcome ε ℤ) = .ok c ↔ InRange (a + b) ∧ c = a + b := by
  unfold add
  split <;> simp_all [pure, Except.pure, eq_comm]

theorem sub_eq_ok {a b c : ℤ} :
    (sub a b : Outcome ε ℤ) = .ok c ↔ InRange (a - b) ∧ c = a - b := by
  unfold sub
  split <;> simp_all [pure, Except.pure, eq_comm]

theorem toUnsigned_eq_some {a : ℤ} {b : ℕ} :
    toUnsigned a = some b ↔ a = (b : ℤ) := by
  unfold toUnsigned
  split
  · rw [Option.some_inj]
    omega
  · simp only [reduceCtorEq, false_iff]
    omega

end SignedAmount

/-! ## Weights and fees -/

namespace Weight

/-- `Weight::checked_add`. -/
def checkedAdd (a b : ℕ) : Option ℕ := if a + b < 2 ^ 64 then some (a + b) else none

/-- `Weight::from_vb`: four weight units for each virtual byte. -/
def fromVb (vb : ℕ) : Option ℕ := if vb * 4 < 2 ^ 64 then some (vb * 4) else none

theorem checkedAdd_eq_some {a b c : ℕ} :
    checkedAdd a b = some c ↔ a + b < 2 ^ 64 ∧ c = a + b := by
  unfold checkedAdd
  split <;> simp_all [eq_comm]

theorem fromVb_eq_some {vb w : ℕ} :
    fromVb vb = some w ↔ vb * 4 < 2 ^ 64 ∧ w = vb * 4 := by
  unfold fromVb
  split <;> simp_all [eq_comm]

end Weight

/-- `bitcoin::FeeRate`, in satoshis for each thousand weight units. -/
structure FeeRate where
  satPerKwu : ℕ
  deriving Repr, DecidableEq, Inhabited

namespace FeeRate

/-- `FeeRate::from_sat_per_vb`: a virtual byte is four weight units. -/
def fromSatPerVb (r : ℕ) : Option FeeRate := if r * 250 < 2 ^ 64 then some ⟨r * 250⟩ else none

/-- `FeeRate * Weight`: rounded up to whole satoshis. -/
def mulWeight (r : FeeRate) (w : ℕ) : ℕ := (r.satPerKwu * w + 999) % 2 ^ 64 / 1000

/-- The product of a fee rate and a weight, and the rounding, stay within a `u64`. -/
def Multiplies (r : FeeRate) (w : ℕ) : Prop := r.satPerKwu * w + 999 < 2 ^ 64

instance (r : FeeRate) (w : ℕ) : Decidable (r.Multiplies w) :=
  inferInstanceAs (Decidable (_ < _))

/-- The exact fee for a weight. -/
def ceilFee (r : FeeRate) (w : ℕ) : ℕ := (r.satPerKwu * w + 999) / 1000

/-- **Within its range the product is exact.** -/
theorem Multiplies.mulWeight_eq {r : FeeRate} {w : ℕ} (h : r.Multiplies w) :
    r.mulWeight w = r.ceilFee w := by
  rw [mulWeight, ceilFee, Nat.mod_eq_of_lt h]

/-- An amount of bitcoin is far within it. -/
theorem Multiplies.of_ceilFee_le {r : FeeRate} {w : ℕ} (h : r.ceilFee w ≤ 2 ^ 53) :
    r.Multiplies w := by
  unfold Multiplies
  unfold ceilFee at h
  omega

theorem mulWeight_lt (r : FeeRate) (w : ℕ) : r.mulWeight w < 2 ^ 55 := by
  have hmod := Nat.mod_lt (r.satPerKwu * w + 999) (Nat.two_pow_pos 64)
  unfold mulWeight
  omega

end FeeRate

/-! ## Coins -/

/-- A script, as its bytes. -/
abbrev Script := List UInt8

instance : LawfulBEq Script := List.instLawfulBEq

/-- `bitcoin::OutPoint`. -/
structure OutPoint where
  txid : Bytes 32
  vout : UInt32
  deriving Repr, DecidableEq, Inhabited

/-- `bitcoin::TxOut`. -/
structure TxOut where
  value : ℕ
  scriptPubkey : Script
  deriving Repr, DecidableEq, Inhabited

/-- `KeychainKind`: the chain of receive keys and the chain of change keys. -/
inductive KeychainKind where
  | external
  | internal
  deriving Repr, DecidableEq, Inhabited

/-- `KeychainKind::as_u32`. -/
def KeychainKind.asU32 : KeychainKind → UInt32
  | external => 0
  | internal => 1

/-- `Utxo`. -/
structure Utxo where
  outpoint : OutPoint
  txout : TxOut
  keychain : KeychainKind
  isSpent : Bool
  derivationIndex : UInt32
  chainPosition : Option UInt32
  deriving Repr, DecidableEq, Inhabited

/-- `WeightedUtxo`: a coin with the weight of what will satisfy its script. -/
structure WeightedUtxo where
  satisfactionWeight : ℕ
  utxo : Utxo
  deriving Repr, DecidableEq, Inhabited

/-- `PartialUtxo`: a coin as the node reports it. -/
structure PartialUtxo where
  outpoint : OutPoint
  amount : ℕ
  script : Script
  isSpent : Bool
  deriving Repr, DecidableEq, Inhabited

/-- `impl Into<PartialUtxo> for Utxo`. -/
def Utxo.toPartial (u : Utxo) : PartialUtxo :=
  { outpoint := u.outpoint, amount := u.txout.value, script := u.txout.scriptPubkey,
    isSpent := u.isSpent }

/-- `PubkeyDetails`: where in the account a tracked script comes from. -/
structure PubkeyDetails where
  keyType : KeychainKind
  keyDepth : UInt32
  deriving Repr, DecidableEq, Inhabited

end Bitspend.Wallet
