import Bitspend.Filter.Gcs
import Mathlib.Data.List.SplitLengths

/-!
# Filter/BitReader — what the bit stream reader reads

A reader stands for the bits that are left: those of its byte from the offset on, and those of the bytes
it has not fetched yet.  `read` takes bits off the front (`read_eq`), across as many bytes as it needs, and
so `golomb_rice_decode` takes off one code (`golombRiceDecode_eq`).
-/

namespace Bitspend.Filter

/-- A run that panics. -/
def Panics {σ α : Type} (x : Op IoError σ α) (s : σ) : Prop := ∃ msg s', x s = (.error (.panic msg), s')

namespace Panics

variable {σ α β : Type} {x : Op IoError σ α} {s : σ}

theorem bind (h : Panics x s) (f : α → Op IoError σ β) : Panics (x >>= f) s := by
  obtain ⟨msg, s', h⟩ := h
  exact ⟨msg, s', by rw [Op.bind_apply, h]⟩

theorem unwrap (h : Panics x s) : Panics (Filter.unwrap x) s := by
  obtain ⟨msg, s', h⟩ := h
  refine ⟨msg, s', ?_⟩
  rw [Filter.unwrap, h]
  rfl

/-- …in the first round of a loop. -/
theorem loop {body : β → Op IoError σ (β ⊕ α)} {b : β} (h : Panics (body b) s) {rounds : ℕ} :
    Panics (Op.loop body (rounds + 1) b) s := by
  obtain ⟨msg, s', h⟩ := h
  exact ⟨msg, s', by rw [Op.loop_succ, h]⟩

end Panics

namespace BitStreamReader

/-- The bits that are left, first to last. -/
def bits (s : BitStreamReader) : List Bool :=
  (byteBits s.buffer).drop s.offset ++ s.reader.flatMap byteBits

theorem length_bits (s : BitStreamReader) : s.bits.length = s.bitsLeft := by
  rw [bits, bitsLeft, List.length_append, List.length_drop, length_byteBits, List.length_flatMap]
  simp [Nat.mul_comm]

theorem bits_new (reader : List UInt8) : (new reader).bits = reader.flatMap byteBits := by
  rw [bits, new, List.drop_of_length_le (by simp)]
  rfl

/-! ## One round -/

/-- A reader with a bit left in its byte. -/
theorem exists_refilled {s : BitStreamReader} (hoff : s.offset ≤ 8) (hpos : 0 < s.bits.length) :
    ∃ s₁ : BitStreamReader, s₁.bits = s.bits ∧ s₁.offset < 8
      ∧ refill s = (.ok (), s₁) := by
  by_cases h : s.offset = 8
  · rcases hr : s.reader with _ | ⟨b, rest⟩
    · rw [length_bits, bitsLeft, h, hr] at hpos
      simp at hpos
    · refine ⟨⟨b, 0, rest⟩, ?_, Nat.zero_lt_succ 7, ?_⟩
      · have hnil : (byteBits s.buffer).drop 8 = [] := List.drop_of_length_le (by simp)
        rw [bits, bits, h, hr, hnil]
        rfl
      · rw [refill, if_pos h, hr]
  · exact ⟨s, rfl, by omega, by rw [refill, if_neg h]⟩

/-- The bits of one byte, in their place. -/
theorem toNat_chunk (b : UInt8) {offset n : ℕ} (hn : 0 < n) (h : offset + n ≤ 8) :
    ((b <<< UInt8.ofNat offset) >>> UInt8.ofNat (8 - n)).toNat
      = natOfBits (((byteBits b).drop offset).take n) := by
  have hoff : (UInt8.ofNat offset).toNat % 8 = offset := by
    rw [UInt8.toNat_ofNat_of_lt' (by change offset < 256; omega), Nat.mod_eq_of_lt (by omega)]
  have hn' : (UInt8.ofNat (8 - n)).toNat % 8 = 8 - n := by
    rw [UInt8.toNat_ofNat_of_lt' (by change 8 - n < 256; omega), Nat.mod_eq_of_lt (by omega)]
  rw [natOfBits_middle b h, UInt8.toNat_shiftRight, UInt8.toNat_shiftLeft, hoff, hn',
    Nat.shiftLeft_eq, Nat.shiftRight_eq_div_pow]

/-- Bits put behind others. -/
theorem toNat_push {data chunk : UInt64} {c : ℕ} (hc : c < 64) (hdata : data.toNat * 2 ^ c < 2 ^ 64)
    (hchunk : chunk.toNat < 2 ^ c) :
    ((data <<< UInt64.ofNat c) ||| chunk).toNat = data.toNat * 2 ^ c + chunk.toNat := by
  have hshift : (UInt64.ofNat c).toNat % 64 = c := by
    rw [UInt64.toNat_ofNat_of_lt' (by change c < 2 ^ 64; omega), Nat.mod_eq_of_lt hc]
  rw [UInt64.toNat_or, UInt64.toNat_shiftLeft, hshift, Nat.shiftLeft_eq, Nat.mod_eq_of_lt hdata,
    ← Nat.shiftLeft_eq, Nat.shiftLeft_add_eq_or_of_lt hchunk]

/-- **A round takes some bits off the front and puts them behind what was read.** -/
theorem readRound_eq {s : BitStreamReader} (hoff : s.offset ≤ 8) {n : ℕ} (hn : 0 < n)
    (hpos : 0 < s.bits.length) (data : UInt64) :
    ∃ c data' s', 0 < c ∧ c ≤ n ∧ c ≤ s.bits.length
      ∧ readRound (n, data) s = (.ok (.inl (n - c, data')), s')
      ∧ (data.toNat * 2 ^ n < 2 ^ 64 →
        data'.toNat = data.toNat * 2 ^ c + natOfBits (s.bits.take c))
      ∧ s'.bits = s.bits.drop c ∧ s'.offset ≤ 8 := by
  obtain ⟨s₁, hbits, hlt, hrefill⟩ := exists_refilled hoff hpos
  have hc : 0 < min (8 - s₁.offset) n := by omega
  have hc8 : s₁.offset + min (8 - s₁.offset) n ≤ 8 := by omega
  have hclen : min (8 - s₁.offset) n ≤ s.bits.length := by
    rw [← hbits, length_bits, bitsLeft]
    omega
  have htake : s.bits.take (min (8 - s₁.offset) n)
      = ((byteBits s₁.buffer).drop s₁.offset).take (min (8 - s₁.offset) n) := by
    rw [← hbits, bits, List.take_append_of_le_length]
    rw [List.length_drop, length_byteBits]
    exact min_le_left _ _
  have hchunk := toNat_chunk s₁.buffer hc hc8
  have hpush (hdata : data.toNat * 2 ^ n < 2 ^ 64) :
      ((data <<< UInt64.ofNat (min (8 - s₁.offset) n)) |||
        ((s₁.buffer <<< UInt8.ofNat s₁.offset) >>>
          UInt8.ofNat (8 - min (8 - s₁.offset) n)).toUInt64).toNat
      = data.toNat * 2 ^ min (8 - s₁.offset) n + natOfBits (s.bits.take (min (8 - s₁.offset) n)) := by
    rw [toNat_push (by omega), UInt8.toNat_toUInt64, hchunk, htake]
    · refine lt_of_le_of_lt (Nat.mul_le_mul_left _ ?_) hdata
      exact Nat.pow_le_pow_right (by decide) (min_le_right _ _)
    · rw [UInt8.toNat_toUInt64, hchunk, ← htake]
      exact natOfBits_take_lt _ _
  refine ⟨min (8 - s₁.offset) n, _, { s₁ with offset := s₁.offset + min (8 - s₁.offset) n },
    hc, min_le_right _ _, hclen, ?_, hpush, ?_, hc8⟩
  · rw [readRound, if_pos hn, Op.bind_apply, hrefill]
    rfl
  · rw [← hbits, bits, bits, List.drop_append_of_le_length, List.drop_drop]
    rw [List.length_drop, length_byteBits]
    exact min_le_left _ _

/-! ## Reading -/

theorem loop_readRound {rounds n : ℕ} (hrounds : n < rounds) {s : BitStreamReader}
    (hoff : s.offset ≤ 8) (hlen : n ≤ s.bits.length) {data : UInt64}
    (hdata : (data.toNat + 1) * 2 ^ n ≤ 2 ^ 64) :
    ∃ value s', Op.loop readRound rounds (n, data) s = (.ok value, s')
      ∧ value.toNat = data.toNat * 2 ^ n + natOfBits (s.bits.take n)
      ∧ s'.bits = s.bits.drop n ∧ s'.offset ≤ 8 := by
  induction rounds generalizing n s data with
  | zero => omega
  | succ rounds ih =>
    rw [Op.loop_succ]
    rcases Nat.eq_zero_or_pos n with rfl | hn
    · exact ⟨data, s, rfl, by simp, rfl, hoff⟩
    · have hfits : data.toNat * 2 ^ n < 2 ^ 64 := by
        have := Nat.two_pow_pos n
        rw [Nat.add_mul, Nat.one_mul] at hdata
        omega
      obtain ⟨c, data', s₁, hc, hcn, -, hround, hdata', hbits, hoff'⟩ :=
        readRound_eq hoff hn (hn.trans_le hlen) data
      replace hdata' := hdata' hfits
      have hlen' : n - c ≤ s₁.bits.length := by
        rw [hbits, List.length_drop]
        omega
      have hfits' : (data'.toNat + 1) * 2 ^ (n - c) ≤ 2 ^ 64 := by
        rw [hdata']
        exact (succ_push_take_le data.toNat s.bits hcn).trans hdata
      obtain ⟨value, s', hloop, hvalue, hrest, hoff''⟩ := ih (by omega) hoff' hlen' hfits'
      refine ⟨value, s', ?_, ?_, ?_, hoff''⟩
      · rw [hround]
        exact hloop
      · rw [hvalue, hdata', hbits, push_take data.toNat hcn hlen]
      · rw [hrest, hbits, List.drop_drop, Nat.add_sub_cancel' hcn]

/-- **`read` takes its bits off the front.** -/
theorem read_eq {n : ℕ} (hn : n ≤ 64) {s : BitStreamReader} (hoff : s.offset ≤ 8)
    (hlen : n ≤ s.bits.length) :
    ∃ value s', read n s = (.ok value, s') ∧ value.toNat = natOfBits (s.bits.take n)
      ∧ s'.bits = s.bits.drop n ∧ s'.offset ≤ 8 := by
  obtain ⟨value, s', hloop, hvalue, hrest, hoff'⟩ := @loop_readRound (n + 1) n (Nat.lt_succ_self n) s
    hoff hlen 0 (by simpa using Nat.pow_le_pow_right (by decide) hn)
  refine ⟨value, s', ?_, by simpa using hvalue, hrest, hoff'⟩
  rw [read, if_neg (by omega)]
  exact hloop

/-! ## Reading past the end -/

theorem refill_empty {s : BitStreamReader} (hoff : s.offset ≤ 8) (hempty : s.bits.length = 0) :
    Panics refill s := by
  rw [length_bits, bitsLeft] at hempty
  have hreader : s.reader = [] := List.length_eq_zero_iff.mp (by omega)
  unfold Panics
  rw [refill, if_pos (by omega), hreader]
  exact ⟨_, _, rfl⟩

theorem loop_readRound_short {rounds n : ℕ} {s : BitStreamReader} (hoff : s.offset ≤ 8)
    (hlen : s.bits.length < n) (data : UInt64) : Panics (Op.loop readRound rounds (n, data)) s := by
  induction rounds generalizing n s data with
  | zero => exact ⟨_, _, rfl⟩
  | succ rounds ih =>
    have hn : 0 < n := by omega
    rcases Nat.eq_zero_or_pos s.bits.length with hempty | hpos
    · refine Panics.loop ?_
      rw [readRound, if_pos hn]
      exact (refill_empty hoff hempty).bind _
    · obtain ⟨c, data', s₁, hc, hcn, hclen, hround, -, hbits, hoff'⟩ := readRound_eq hoff hn hpos data
      obtain ⟨msg, s', hloop⟩ := @ih (n - c) s₁ hoff' (by
        rw [hbits, List.length_drop]
        omega) data'
      refine ⟨msg, s', ?_⟩
      rw [Op.loop_succ, hround]
      exact hloop

/-- **`read` panics where fewer bits are left.** -/
theorem read_short {n : ℕ} (hn : n ≤ 64) {s : BitStreamReader} (hoff : s.offset ≤ 8)
    (hlen : s.bits.length < n) : Panics (read n) s := by
  rw [read, if_neg (by omega)]
  exact loop_readRound_short hoff hlen 0

end BitStreamReader

/-! ## Golomb-Rice codes -/

theorem unwrap_of_ok {σ α : Type} {x : Op IoError σ α} {s s' : σ} {a : α} (h : x s = (.ok a, s')) :
    unwrap x s = (.ok a, s') := by
  rw [unwrap, h]
  rfl

/-- **The code of a number**: its quotient by `2 ^ p` in unary, its remainder in `p` bits. -/
def golombRiceCode (p d : ℕ) : List Bool :=
  List.replicate (d / 2 ^ p) true ++ false :: bitsOf p (d % 2 ^ p)

namespace GcsFilter

open BitStreamReader

theorem unaryRound_eq {s : BitStreamReader} (hoff : s.offset ≤ 8) {b : Bool} {rest : List Bool}
    (hbits : s.bits = b :: rest) (q : UInt64) :
    ∃ s', unaryRound q s = (.ok (if b then .inl (q + 1) else .inr q), s') ∧ s'.bits = rest
      ∧ s'.offset ≤ 8 := by
  obtain ⟨value, s', hread, hvalue, hrest, hoff'⟩ :=
    @read_eq 1 (by decide) s hoff (by rw [hbits]; simp)
  rw [hbits] at hvalue hrest
  refine ⟨s', ?_, hrest, hoff'⟩
  rw [unaryRound, Op.bind_apply, unwrap_of_ok hread]
  rcases b with _ | _
  · obtain rfl : value = 0 := UInt64.toNat_inj.mp hvalue
    rfl
  · obtain rfl : value = 1 := UInt64.toNat_inj.mp hvalue
    rfl

/-- The unary part: so many ones, and a zero. -/
theorem loop_unaryRound {rounds k : ℕ} (hrounds : k < rounds) {s : BitStreamReader}
    (hoff : s.offset ≤ 8) {rest : List Bool} (hbits : s.bits = List.replicate k true ++ false :: rest)
    (q : UInt64) :
    ∃ s', Op.loop unaryRound rounds q s = (.ok (q + UInt64.ofNat k), s') ∧ s'.bits = rest
      ∧ s'.offset ≤ 8 := by
  induction rounds generalizing k s q with
  | zero => omega
  | succ rounds ih =>
    rw [Op.loop_succ]
    rcases k with _ | k
    · obtain ⟨s', hround, hrest, hoff'⟩ := unaryRound_eq hoff hbits q
      refine ⟨s', ?_, hrest, hoff'⟩
      rw [hround]
      exact congrArg (fun q => (Except.ok q, s')) (by simp)
    · rw [List.replicate_succ, List.cons_append] at hbits
      obtain ⟨s₁, hround, hrest, hoff'⟩ := unaryRound_eq hoff hbits q
      obtain ⟨s', hloop, hrest', hoff''⟩ := ih (by omega) hoff' hrest (q + 1)
      refine ⟨s', ?_, hrest', hoff''⟩
      rw [hround]
      refine hloop.trans ?_
      rw [Nat.add_comm k 1, UInt64.ofNat_add, ← UInt64.add_assoc]
      rfl

/-- **`golomb_rice_decode` takes one code off the front.** -/
theorem golombRiceDecode_eq {filter : GcsFilter} (hp : filter.p.toNat < 64) {d : UInt64}
    {s : BitStreamReader} (hoff : s.offset ≤ 8) {rest : List Bool}
    (hbits : s.bits = golombRiceCode filter.p.toNat d.toNat ++ rest) :
    ∃ s', filter.golombRiceDecode s = (.ok d, s') ∧ s'.bits = rest ∧ s'.offset ≤ 8 := by
  rw [golombRiceCode, List.append_assoc, List.cons_append] at hbits
  obtain ⟨s₁, hunary, hrest, hoff₁⟩ := @loop_unaryRound (s.bitsLeft + 1) _
    (by rw [← length_bits, hbits, List.length_append, List.length_replicate]; omega) s hoff _ hbits 0
  obtain ⟨r, s₂, hread, hr, hrest₂, hoff₂⟩ := @read_eq filter.p.toNat (by omega) s₁ hoff₁
    (by rw [hrest]; simp)
  rw [hrest, List.drop_left' (length_bitsOf _ _)] at hrest₂
  rw [hrest, List.take_left' (length_bitsOf _ _), natOfBits_bitsOf, Nat.mod_mod] at hr
  refine ⟨s₂, ?_, hrest₂, hoff₂⟩
  rw [golombRiceDecode, Op.bind_apply, Op.loopOn, hunary]
  change (unwrap (BitStreamReader.read filter.p.toNat) >>= _ : Op _ _ _) s₁ = _
  rw [Op.bind_apply, unwrap_of_ok hread]
  have hvalue : ((0 + UInt64.ofNat (d.toNat / 2 ^ filter.p.toNat)) <<< filter.p.toUInt64) + r = d := by
    have hlt : d.toNat < 2 ^ 64 := d.toNat_lt
    have hdiv := Nat.div_mul_le_self d.toNat (2 ^ filter.p.toNat)
    have hq : d.toNat / 2 ^ filter.p.toNat < 2 ^ 64 := (Nat.div_le_self _ _).trans_lt hlt
    apply UInt64.toNat_inj.mp
    rw [UInt64.zero_add, UInt64.toNat_add, UInt64.toNat_shiftLeft, UInt8.toNat_toUInt64,
      Nat.mod_eq_of_lt hp, UInt64.toNat_ofNat_of_lt' hq, Nat.shiftLeft_eq,
      Nat.mod_eq_of_lt (hdiv.trans_lt hlt), hr, Nat.div_add_mod' d.toNat _, Nat.mod_eq_of_lt hlt]
  exact congrArg (fun v => (Except.ok v, s₂)) hvalue

end GcsFilter

/-! ## One read after another -/

theorem mapM_cons_ok {σ α β : Type} {f : β → Op IoError σ α} {b : β} {bs : List β} {a : α}
    {as : List α} {s s₁ s₂ : σ} (h : f b s = (.ok a, s₁)) (hs : bs.mapM f s₁ = (.ok as, s₂)) :
    (b :: bs).mapM f s = (.ok (a :: as), s₂) := by
  rw [List.mapM_cons, Op.bind_apply, h]
  dsimp only
  rw [Op.bind_apply, hs]
  rfl

namespace BitStreamReader

/-- **Reads in a row take consecutive groups of bits off the front.** -/
theorem mapM_read_eq {widths : List ℕ} (hwidths : ∀ w ∈ widths, w ≤ 64) {s : BitStreamReader}
    (hoff : s.offset ≤ 8) (hsum : widths.sum ≤ s.bits.length) :
    ∃ values s', widths.mapM read s = (.ok values, s')
      ∧ values.map UInt64.toNat = (widths.splitLengths s.bits).map natOfBits
      ∧ s'.bits = s.bits.drop widths.sum ∧ s'.offset ≤ 8 := by
  induction widths generalizing s with
  | nil => exact ⟨[], s, rfl, rfl, rfl, hoff⟩
  | cons w widths ih =>
    obtain ⟨hw, hrest⟩ := List.forall_mem_cons.mp hwidths
    rw [List.sum_cons] at hsum ⊢
    obtain ⟨value, s₁, hread, hvalue, hbits, hoff₁⟩ := read_eq hw hoff (by omega)
    obtain ⟨values, s', hreads, hvalues, hbits', hoff'⟩ := ih hrest hoff₁ (by
      rw [hbits, List.length_drop]
      omega)
    refine ⟨value :: values, s', mapM_cons_ok hread hreads, ?_, ?_, hoff'⟩
    · rw [List.map_cons, List.splitLengths_cons, List.map_cons, hvalue, hvalues, hbits]
    · rw [hbits', hbits, List.drop_drop]

end BitStreamReader

namespace GcsFilter

/-- **Decodes in a row take consecutive codes off the front.** -/
theorem mapM_golombRiceDecode_eq {filter : GcsFilter} (hp : filter.p.toNat < 64) {ds : List UInt64}
    {s : BitStreamReader} (hoff : s.offset ≤ 8) {rest : List Bool}
    (hbits : s.bits = (ds.flatMap fun d => golombRiceCode filter.p.toNat d.toNat) ++ rest) :
    ∃ s', (ds.mapM fun _ => filter.golombRiceDecode) s = (.ok ds, s')
      ∧ s'.bits = rest ∧ s'.offset ≤ 8 := by
  induction ds generalizing s with
  | nil => exact ⟨s, rfl, hbits, hoff⟩
  | cons d ds ih =>
    rw [List.flatMap_cons, List.append_assoc] at hbits
    obtain ⟨s₁, hdecode, hbits₁, hoff₁⟩ := golombRiceDecode_eq hp hoff hbits
    obtain ⟨s', hdecodes, hbits', hoff'⟩ := ih hoff₁ hbits₁
    exact ⟨s', mapM_cons_ok hdecode hdecodes, hbits', hoff'⟩

end GcsFilter

/-- **The reader reads consecutive bit groups**: reads in a row give the numbers of consecutive
groups of the bytes' bits, and wherever that leaves it, the codes that stand there are decoded to the
numbers they encode, up to the first bit behind them. -/
theorem reads_consecutive (bytes : List UInt8) (widths : List ℕ) (hwidths : ∀ w ∈ widths, w ≤ 64)
    (hsum : widths.sum ≤ 8 * bytes.length) :
    ∃ values s, widths.mapM BitStreamReader.read (.new bytes) = (.ok values, s)
      ∧ values.map UInt64.toNat
        = (widths.splitLengths (bytes.flatMap byteBits)).map natOfBits
      ∧ s.bits = (bytes.flatMap byteBits).drop widths.sum
      ∧ ∀ (filter : GcsFilter) (ds : List UInt64) (rest : List Bool), filter.p.toNat < 64 →
        s.bits = (ds.flatMap fun d => golombRiceCode filter.p.toNat d.toNat) ++ rest →
        ∃ s', (ds.mapM fun _ => filter.golombRiceDecode) s = (.ok ds, s') ∧ s'.bits = rest := by
  have hlen : (bytes.flatMap byteBits).length = 8 * bytes.length := by
    simp [List.length_flatMap, Nat.mul_comm]
  have hnew := BitStreamReader.bits_new bytes
  obtain ⟨values, s, hreads, hvalues, hbits, hoff⟩ :=
    @BitStreamReader.mapM_read_eq widths hwidths (.new bytes) (Nat.le_refl 8) (by
      rwa [hnew, hlen])
  rw [hnew] at hvalues hbits
  refine ⟨values, s, hreads, hvalues, hbits, fun filter ds rest hp hcodes => ?_⟩
  obtain ⟨s', hdecodes, hrest, -⟩ := GcsFilter.mapM_golombRiceDecode_eq hp hoff hcodes
  exact ⟨s', hdecodes, hrest⟩

/-- The statement for three bits of `10110011`, with the code of five at parameter two behind them
and a last bit behind that. -/
theorem reads_consecutive_five :
    ∃ values s, [3].mapM BitStreamReader.read (.new [0xb3]) = (.ok values, s)
      ∧ values.map UInt64.toNat = [5]
      ∧ ∃ s', ([5].mapM fun _ => (⟨0, 0, 2⟩ : GcsFilter).golombRiceDecode) s = (.ok [5], s')
        ∧ s'.bits = [true] := by
  obtain ⟨values, s, hreads, hvalues, hbits, hcodes⟩ :=
    reads_consecutive [0xb3] [3] (by decide) (by decide)
  exact ⟨values, s, hreads, hvalues.trans (by decide), hcodes ⟨0, 0, 2⟩ [5] [true] (by decide)
    (hbits.trans (by decide))⟩

end Bitspend.Filter
