import Bitspend.Filter.Matching

/-!
# Filter/Checked — matching with its arithmetic checked

The functions of `Filter/Gcs` again, as they run where no `u64` operation may leave its range: a sum or a
product that does is a panic, and so is a shift that loses bits.  Where the checked functions return, the
others return the same (`within_seekFrom`).

What is read is described in `ℕ`, off the bits alone: a code is a run of ones, a zero and `p` bits
(`decodeCode`), and the values are the sums of the codes (`valueAt`).
-/

namespace Bitspend.Filter

/-! ## Arithmetic -/

/-- `a + b`. -/
def addChecked (a b : UInt64) : Outcome IoError UInt64 :=
  if a.toNat + b.toNat < 2 ^ 64 then .ok (a + b)
  else .error (.panic "attempt to add with overflow")

/-- `a * b`. -/
def mulChecked (a b : UInt64) : Outcome IoError UInt64 :=
  if a.toNat * b.toNat < 2 ^ 64 then .ok (a * b)
  else .error (.panic "attempt to multiply with overflow")

/-- `a << p`, with every bit of `a` still there. -/
def shlChecked (a : UInt64) (p : UInt8) : Outcome IoError UInt64 :=
  if a.toNat * 2 ^ p.toNat < 2 ^ 64 then .ok (a <<< p.toUInt64)
  else .error (.panic "attempt to shift left with overflow")

theorem addChecked_ofNat {a b : ℕ} (h : a + b < 2 ^ 64) :
    addChecked (UInt64.ofNat a) (UInt64.ofNat b) = .ok (UInt64.ofNat (a + b)) := by
  rw [addChecked, UInt64.toNat_ofNat_of_lt' (by change a < 2 ^ 64; omega),
    UInt64.toNat_ofNat_of_lt' (by change b < 2 ^ 64; omega), if_pos h, UInt64.ofNat_add]

theorem addChecked_overflow {a b : ℕ} (ha : a < 2 ^ 64) (hb : b < 2 ^ 64) (h : 2 ^ 64 ≤ a + b) :
    ∃ msg, addChecked (UInt64.ofNat a) (UInt64.ofNat b) = .error (.panic msg) := by
  rw [addChecked, UInt64.toNat_ofNat_of_lt' ha, UInt64.toNat_ofNat_of_lt' hb, if_neg (by omega)]
  exact ⟨_, rfl⟩

theorem shlChecked_ofNat {a : ℕ} {p : UInt8} (hp : p.toNat < 64) (h : a * 2 ^ p.toNat < 2 ^ 64) :
    shlChecked (UInt64.ofNat a) p = .ok (UInt64.ofNat (a * 2 ^ p.toNat)) := by
  have ha : a < 2 ^ 64 := lt_of_le_of_lt (Nat.le_mul_of_pos_right a (Nat.two_pow_pos _)) h
  rw [shlChecked, UInt64.toNat_ofNat_of_lt' ha, if_pos h]
  refine congrArg Except.ok (UInt64.toNat_inj.mp ?_)
  rw [UInt64.toNat_shiftLeft, UInt8.toNat_toUInt64, Nat.mod_eq_of_lt hp, UInt64.toNat_ofNat_of_lt' ha,
    UInt64.toNat_ofNat_of_lt' h, Nat.shiftLeft_eq, Nat.mod_eq_of_lt h]

/-! ## The functions -/

namespace GcsFilter

/-- One round of `while reader.read(1).unwrap() == 1`. -/
def unaryRoundChecked (q : UInt64) : Op IoError BitStreamReader (UInt64 ⊕ UInt64) := do
  let bit ← unwrap (BitStreamReader.read 1)
  if bit = 1 then
    let q ← Op.lift (addChecked q 1)
    pure (.inl q)
  else pure (.inr q)

/-- `GcsFilter::golomb_rice_decode`. -/
def golombRiceDecodeChecked (filter : GcsFilter) : Op IoError BitStreamReader UInt64 := do
  let q ← Op.loopOn BitStreamReader.bitsLeft unaryRoundChecked 0
  let r ← unwrap (BitStreamReader.read filter.p.toNat)
  let high ← Op.lift (shlChecked q filter.p)
  Op.lift (addChecked high r)

end GcsFilter

namespace GcsFilterReader

/-- One round of the inner loop. -/
def seekRoundChecked (reader : GcsFilterReader) (policy : Policy) (query : UInt64)
    (x : UInt64 × UInt64) :
    Op IoError BitStreamReader ((UInt64 × UInt64) ⊕ (Bool ⊕ (UInt64 × UInt64))) :=
  match compare x.1 query with
  | .eq => pure (.inr (leave policy.onEqual x))
  | .lt => do
    if 0 < x.2 then
      let delta ← unwrap reader.filter.golombRiceDecodeChecked
      let data ← Op.lift (addChecked x.1 delta)
      pure (.inl (data, x.2 - 1))
    else pure (.inr (.inl false))
  | .gt => pure (.inr (leave policy.onGreater x))

/-- The loops over the queries and, for each, over the values. -/
def seekAllChecked (reader : GcsFilterReader) (policy : Policy) :
    List UInt64 → UInt64 × UInt64 → Op IoError BitStreamReader Bool
  | [], _ => pure policy.atEnd
  | query :: queries, x => do
    match ← Op.loop (reader.seekRoundChecked policy query) (x.2.toNat + 1) x with
    | .inl b => pure b
    | .inr x => reader.seekAllChecked policy queries x

/-- From the first value on. -/
def seekFromChecked (reader : GcsFilterReader) (policy : Policy) (count : UInt64)
    (mapped : List UInt64) : Op IoError BitStreamReader Bool := do
  let data ← unwrap reader.filter.golombRiceDecodeChecked
  reader.seekAllChecked policy mapped (data, count - 1)

/-- `GcsFilterReader::match_any`. -/
def matchAnyChecked (sip : SipHash) (reader : GcsFilterReader) (content : List UInt8)
    (queries : List (List UInt8)) : Outcome IoError Bool := do
  let (n, rest) := count content
  let _ ← mulChecked n reader.m
  let mapped := mapped sip reader n queries
  if mapped.isEmpty then .ok true
  else if n = 0 then .ok false
  else (reader.seekFromChecked .any n mapped (.new rest)).1

/-- `GcsFilterReader::match_all`. -/
def matchAllChecked (sip : SipHash) (reader : GcsFilterReader) (content : List UInt8)
    (queries : List (List UInt8)) : Outcome IoError Bool := do
  let (n, rest) := count content
  let _ ← mulChecked n reader.m
  let mapped := dedup (mapped sip reader n queries)
  if mapped.isEmpty then .ok true
  else if n = 0 then .ok false
  else (reader.seekFromChecked .all n mapped (.new rest)).1

end GcsFilterReader

namespace BlockFilter

/-- `BlockFilter::match_any`. -/
def matchAnyChecked (sip : SipHash) (filter : BlockFilter) (blockHash : Hash256)
    (queries : List (List UInt8)) : Outcome IoError Bool :=
  (blockFilterReader blockHash).matchAnyChecked sip filter.content queries

/-- `BlockFilter::match_all`. -/
def matchAllChecked (sip : SipHash) (filter : BlockFilter) (blockHash : Hash256)
    (queries : List (List UInt8)) : Outcome IoError Bool :=
  (blockFilterReader blockHash).matchAllChecked sip filter.content queries

end BlockFilter

/-! ## Where they return -/

theorem eq_of_addChecked {a b c : UInt64} (h : addChecked a b = .ok c) : c = a + b := by
  rw [addChecked] at h
  split at h
  · cases h
    rfl
  · cases h

theorem eq_of_shlChecked {a c : UInt64} {p : UInt8} (h : shlChecked a p = .ok c) :
    c = a <<< p.toUInt64 := by
  rw [shlChecked] at h
  split at h
  · cases h
    rfl
  · cases h

theorem within_unwrap {σ α : Type} {x y : Op IoError σ α} (h : Op.Within x y) :
    Op.Within (unwrap x) (unwrap y) := by
  intro s a s' ha
  exact Op.expectOk_eq_ok.mpr (h s a s' (Op.expectOk_eq_ok.mp ha))

namespace GcsFilter

theorem within_unaryRound (q : UInt64) : Op.Within (unaryRoundChecked q) (unaryRound q) := by
  refine .bind (.refl _) fun bit => ?_
  split
  · refine .of_lift_bind fun q' hq' => ?_
    rw [eq_of_addChecked hq']
    exact .refl _
  · exact .refl _

theorem within_golombRiceDecode (filter : GcsFilter) :
    Op.Within filter.golombRiceDecodeChecked filter.golombRiceDecode := by
  refine .bind (fun s => Op.Within.loop within_unaryRound _ _ s) fun q => .bind (.refl _) fun r => ?_
  refine .of_lift_bind fun high hhigh s d s' h => ?_
  obtain ⟨hd, rfl⟩ := Op.lift_eq_ok.mp h
  rw [eq_of_addChecked hd, eq_of_shlChecked hhigh]
  rfl

end GcsFilter

namespace GcsFilterReader

variable (reader : GcsFilterReader) (policy : Policy)

theorem within_seekRound (query : UInt64) (x : UInt64 × UInt64) :
    Op.Within (reader.seekRoundChecked policy query x) (reader.seekRound policy query x) := by
  rw [seekRoundChecked, seekRound]
  cases compare x.1 query with
  | eq => exact .refl _
  | gt => exact .refl _
  | lt =>
    dsimp only
    split
    · refine .bind (within_unwrap reader.filter.within_golombRiceDecode) fun delta => ?_
      refine .of_lift_bind fun data hdata => ?_
      rw [eq_of_addChecked hdata]
      exact .refl _
    · exact .refl _

theorem within_seekAll (queries : List UInt64) (x : UInt64 × UInt64) :
    Op.Within (reader.seekAllChecked policy queries x) (reader.seekAll policy queries x) := by
  induction queries generalizing x with
  | nil => exact .refl _
  | cons query queries ih =>
    refine .bind (.loop (within_seekRound reader policy query) _ _) fun r => ?_
    cases r with
    | inl b => exact .refl _
    | inr x => exact ih x

theorem within_seekFrom (count : UInt64) (mapped : List UInt64) :
    Op.Within (reader.seekFromChecked policy count mapped) (reader.seekFrom policy count mapped) :=
  .bind (within_unwrap reader.filter.within_golombRiceDecode) fun data =>
    within_seekAll reader policy mapped (data, count - 1)

end GcsFilterReader

/-! ## Codes, off the bits -/

/-- A run of ones after `q` others, up to its zero. -/
def unary : ℕ → List Bool → Option (ℕ × List Bool)
  | _, [] => none
  | q, true :: bits => unary (q + 1) bits
  | q, false :: bits => some (q, bits)

/-- **The first code of some bits**: its number, and the bits behind it; nothing where they end before
it does. -/
def decodeCode (p : ℕ) (bits : List Bool) : Option (ℕ × List Bool) :=
  match unary 0 bits with
  | none => none
  | some (q, rest) =>
    if p ≤ rest.length then some (q * 2 ^ p + natOfBits (rest.take p), rest.drop p) else none

/-- **The `j`-th value from `v` on**, if the bits hold so many codes. -/
def valueAt (p : ℕ) : ℕ → ℕ → List Bool → Option ℕ
  | v, 0, _ => some v
  | v, j + 1, bits =>
    match decodeCode p bits with
    | none => none
    | some (d, rest) => valueAt p (v + d) j rest

theorem le_of_unary {q k : ℕ} {bits rest : List Bool} (h : unary q bits = some (k, rest)) : q ≤ k := by
  induction bits generalizing q with
  | nil => cases h
  | cons b bits ih =>
    cases b with
    | true => exact (Nat.le_succ q).trans (ih h)
    | false =>
      cases h
      exact le_rfl

theorem le_of_valueAt {p v j w : ℕ} {bits : List Bool} (h : valueAt p v j bits = some w) : v ≤ w := by
  induction j generalizing v bits with
  | zero =>
    cases h
    exact le_rfl
  | succ j ih =>
    rw [valueAt] at h
    split at h
    · cases h
    · exact (Nat.le_add_right v _).trans (ih h)

/-- **What a checked run makes of the bits**: the number they spell, a panic where it is past the range,
and a panic where there is none. -/
inductive Takes (x : Op IoError BitStreamReader UInt64) (s : BitStreamReader) :
    Option (ℕ × List Bool) → Prop
  | fits {v : ℕ} {rest : List Bool} {s' : BitStreamReader} (hv : v < 2 ^ 64)
      (h : x s = (.ok (UInt64.ofNat v), s')) (hbits : s'.bits = rest) (hoff : s'.offset ≤ 8) :
      Takes x s (some (v, rest))
  | overflow {v : ℕ} {rest : List Bool} (hv : 2 ^ 64 ≤ v) (h : Panics x s) : Takes x s (some (v, rest))
  | short (h : Panics x s) : Takes x s none

theorem Takes.congr {x y : Op IoError BitStreamReader UInt64} {s t : BitStreamReader}
    {r : Option (ℕ × List Bool)} (h : Takes x s r) (heq : x s = y t) : Takes y t r := by
  cases h with
  | fits hv h hbits hoff => exact .fits hv (heq ▸ h) hbits hoff
  | overflow hv h =>
    obtain ⟨msg, s', h⟩ := h
    exact .overflow hv ⟨msg, s', heq ▸ h⟩
  | short h =>
    obtain ⟨msg, s', h⟩ := h
    exact .short ⟨msg, s', heq ▸ h⟩

/-- A sum, where it fits and where it does not. -/
theorem takes_lift_addChecked {a b : ℕ} (ha : a < 2 ^ 64) (hb : b < 2 ^ 64) {s : BitStreamReader}
    (hoff : s.offset ≤ 8) :
    Takes (Op.lift (addChecked (UInt64.ofNat a) (UInt64.ofNat b))) s (some (a + b, s.bits)) := by
  rcases lt_or_ge (a + b) (2 ^ 64) with h | h
  · exact .fits h (by rw [addChecked_ofNat h]; rfl) rfl hoff
  · obtain ⟨msg, hadd⟩ := addChecked_overflow ha hb h
    exact .overflow h ⟨msg, s, by rw [hadd]; rfl⟩

namespace GcsFilter

open BitStreamReader

/-- **One bit of the unary part.** -/
theorem unaryRoundChecked_eq {s : BitStreamReader} (hoff : s.offset ≤ 8) {b : Bool} {rest : List Bool}
    (hbits : s.bits = b :: rest) (q : UInt64) :
    ∃ s', unaryRoundChecked q s
        = (if b then Sum.inl <$> addChecked q 1 else .ok (.inr q), s') ∧ s'.bits = rest
      ∧ s'.offset ≤ 8 := by
  obtain ⟨value, s', hread, hvalue, hrest, hoff'⟩ :=
    @read_eq 1 (by decide) s hoff (by rw [hbits]; simp)
  rw [hbits] at hvalue hrest
  refine ⟨s', ?_, hrest, hoff'⟩
  rw [unaryRoundChecked, Op.bind_apply, unwrap_of_ok hread]
  rcases b with _ | _
  · obtain rfl : value = 0 := UInt64.toNat_inj.mp hvalue
    rfl
  · obtain rfl : value = 1 := UInt64.toNat_inj.mp hvalue
    rcases addChecked q 1 with _ | _ <;> rfl

/-- The unary part, after `q` ones. -/
theorem takes_unary {rounds q : ℕ} (hq : q < 2 ^ 64) {s : BitStreamReader} (hoff : s.offset ≤ 8)
    (hrounds : s.bits.length < rounds) :
    Takes (Op.loop unaryRoundChecked rounds (UInt64.ofNat q)) s (unary q s.bits) := by
  induction rounds generalizing q s with
  | zero => omega
  | succ rounds ih =>
    rcases hbits : s.bits with _ | ⟨b, bits⟩
    · refine .short (Panics.loop ?_)
      rw [unaryRoundChecked]
      exact (read_short (by decide) hoff (by rw [hbits]; decide)).unwrap.bind _
    · obtain ⟨s₁, hround, hrest, hoff'⟩ := unaryRoundChecked_eq hoff hbits (UInt64.ofNat q)
      rw [hbits, List.length_cons] at hrounds
      cases b with
      | false =>
        refine .fits hq ?_ hrest hoff'
        rw [Op.loop_succ, hround]
        rfl
      | true =>
        rcases lt_or_ge (q + 1) (2 ^ 64) with hlt | hge
        · have hnext := ih hlt hoff' (by rw [hrest]; omega)
          have hloop : Op.loop unaryRoundChecked (rounds + 1) (UInt64.ofNat q) s
              = Op.loop unaryRoundChecked rounds (UInt64.ofNat (q + 1)) s₁ := by
            have hadd : addChecked (UInt64.ofNat q) 1 = .ok (UInt64.ofNat (q + 1)) :=
              addChecked_ofNat hlt
            rw [Op.loop_succ, hround, if_pos rfl, hadd]
            rfl
          rw [hrest] at hnext
          exact hnext.congr hloop.symm
        · -- one more would not fit, whatever the bits behind it are
          have hpanic : Panics (Op.loop unaryRoundChecked (rounds + 1) (UInt64.ofNat q)) s := by
            obtain ⟨msg, hadd⟩ := addChecked_overflow hq (by decide : 1 < 2 ^ 64) hge
            refine Panics.loop ⟨msg, s₁, ?_⟩
            rw [hround, if_pos rfl]
            exact congrArg (fun r => (Sum.inl <$> r, s₁)) hadd
          rcases hunary : unary q (true :: bits) with _ | ⟨k, rest⟩
          · exact .short hpanic
          · exact .overflow (hge.trans (@le_of_unary (q + 1) k bits rest hunary)) hpanic

/-- **The remainder** behind a quotient, and their sum. -/
theorem takes_remainder {filter : GcsFilter} (hp : filter.p.toNat < 64) {s : BitStreamReader}
    (hoff : s.offset ≤ 8) {q : ℕ} (hq : q < 2 ^ 64) :
    Takes (do
        let r ← unwrap (BitStreamReader.read filter.p.toNat)
        let high ← Op.lift (shlChecked (UInt64.ofNat q) filter.p)
        Op.lift (addChecked high r)) s
      (if filter.p.toNat ≤ s.bits.length then
        some (q * 2 ^ filter.p.toNat + natOfBits (s.bits.take filter.p.toNat),
          s.bits.drop filter.p.toNat)
      else none) := by
  split
  · rename_i hlen
    obtain ⟨r, s', hread, hvalue, hbits, hoff'⟩ := @read_eq filter.p.toNat (by omega) s hoff hlen
    have hr : r = UInt64.ofNat (natOfBits (s.bits.take filter.p.toNat)) := by
      rw [← hvalue, UInt64.ofNat_toNat]
    have hr64 : natOfBits (s.bits.take filter.p.toNat) < 2 ^ 64 := by
      rw [← hvalue]
      exact r.toNat_lt
    have hrun : (do
          let r ← unwrap (BitStreamReader.read filter.p.toNat)
          let high ← Op.lift (shlChecked (UInt64.ofNat q) filter.p)
          Op.lift (addChecked high r) : Op IoError BitStreamReader UInt64) s
        = (do
          let high ← Op.lift (shlChecked (UInt64.ofNat q) filter.p)
          Op.lift (addChecked high r) : Op IoError BitStreamReader UInt64) s' := by
      rw [Op.bind_apply, unwrap_of_ok hread]
    rw [hr] at hrun
    rcases lt_or_ge (q * 2 ^ filter.p.toNat) (2 ^ 64) with hshl | hshl
    · have hsum := takes_lift_addChecked hshl hr64 hoff'
      rw [hbits] at hsum
      refine hsum.congr (Eq.trans ?_ hrun.symm)
      rw [shlChecked_ofNat hp hshl]
      rfl
    · refine .overflow (hshl.trans (Nat.le_add_right _ _)) ?_
      rw [Panics, hrun, shlChecked, UInt64.toNat_ofNat_of_lt' hq, if_neg (by omega)]
      exact ⟨_, _, rfl⟩
  · rename_i hlen
    exact .short ((read_short (by omega) hoff (by omega)).unwrap.bind _)

/-- **`golomb_rice_decode` takes the first code of the bits.** -/
theorem takes_golombRiceDecode {filter : GcsFilter} (hp : filter.p.toNat < 64) {s : BitStreamReader}
    (hoff : s.offset ≤ 8) :
    Takes filter.golombRiceDecodeChecked s (decodeCode filter.p.toNat s.bits) := by
  have hunary : Takes (Op.loopOn bitsLeft unaryRoundChecked 0) s (unary 0 s.bits) :=
    (@takes_unary (s.bitsLeft + 1) 0 (by decide) s hoff
      (by rw [length_bits]; exact Nat.lt_succ_self _)).congr rfl
  rw [decodeCode]
  rcases hr : unary 0 s.bits with _ | ⟨q, rest⟩
  · rw [hr] at hunary
    cases hunary with
    | short h => exact .short (h.bind _)
  rw [hr] at hunary
  dsimp only
  cases hunary with
  | overflow hq h =>
    split
    · refine .overflow (hq.trans ?_) (h.bind _)
      exact (Nat.le_mul_of_pos_right q (Nat.two_pow_pos _)).trans (Nat.le_add_right _ _)
    · exact .short (h.bind _)
  | @fits _ _ s₁ hq hloop hbits₁ hoff₁ =>
    subst hbits₁
    refine (takes_remainder hp hoff₁ hq).congr (Eq.symm ?_)
    rw [golombRiceDecodeChecked, Op.bind_apply, hloop]

end GcsFilter

end Bitspend.Filter
