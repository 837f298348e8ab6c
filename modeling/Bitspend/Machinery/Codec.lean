import Bitspend.Machinery.Bytes
import Bitspend.Machinery.Fault

/-!
# Machinery/Codec — decoders over a byte cursor, and the calls a writer makes

A decoder reads from a `Cursor` over a byte string and either returns a value with the bytes it left
or fails.  `Decodes p bs a` says that `p` turns `bs` into `a` *whatever follows*, so it consumes
exactly `bs`: the statement composes along `do` blocks (`Decodes.bind`) and along counted loops
(`Decodes.readMany`), and a round trip is one line per field.

A serializer is the list of `Write` calls it makes.  On an in-memory buffer only their bytes
matter (`emitted`); keeping `write` and `write_all` apart is what a sink with short writes sees.
-/

namespace Bitspend

variable {ε α β γ : Type}

/-- Error types with a value for a stream that ends early (`UnexpectedEof`). -/
class EofError (ε : Type) where
  eof : ε

/-- A decoder: the cursor's remaining bytes are its state. -/
abbrev Decoder (ε α : Type) := StateT (List UInt8) (Except (Fault ε)) α

namespace Decoder

/-- `return Err(e)` inside a decoder. -/
def fail (e : ε) : Decoder ε α := fun _ => .error (.error e)

/-- A panic inside a decoder. -/
def panicWith (msg : String) : Decoder ε α := fun _ => .error (.panic msg)

/-- `?` on a call that does not touch the cursor. -/
def lift (x : Outcome ε α) : Decoder ε α := fun s => x.map fun a => (a, s)

/-- Sequencing: the second part reads what the first one left. -/
theorem bind_apply (p : Decoder ε α) (f : α → Decoder ε β) (s : List UInt8) :
    (p >>= f) s = p s >>= fun x => f x.1 x.2 := rfl

end Decoder

/-! ## Primitive reads -/

/-- `Read::read` into a zeroed buffer of `n` bytes: a cursor gives what it has, and what is missing
stays zero. -/
def readSome (n : ℕ) : Decoder ε (Bytes n) := fun s =>
  .ok (⟨s.take n ++ List.replicate (n - s.length) 0, by simp; omega⟩, s.drop n)

section Primitive

variable [EofError ε]

/-- `Read::read_exact` into a buffer of `n` bytes. -/
def readExact (n : ℕ) : Decoder ε (Bytes n) := fun s =>
  if h : n ≤ s.length then
    .ok (⟨s.take n, by simpa using h⟩, s.drop n)
  else .error (.error EofError.eof)

/-- `read_u8`. -/
def readU8 : Decoder ε UInt8 := do
  let b ← readExact 1
  pure (UInt8.ofNat (ofLE b.toList))

/-- `read_u16::<LittleEndian>`. -/
def readU16 : Decoder ε UInt16 := do
  let b ← readExact 2
  pure (UInt16.ofNat (ofLE b.toList))

/-- `read_u16::<BigEndian>`. -/
def readU16BE : Decoder ε UInt16 := do
  let b ← readExact 2
  pure (UInt16.ofNat (ofLE b.toList.reverse))

/-- `read_u32::<LittleEndian>`. -/
def readU32 : Decoder ε UInt32 := do
  let b ← readExact 4
  pure (UInt32.ofNat (ofLE b.toList))

/-- `read_u64::<LittleEndian>`. -/
def readU64 : Decoder ε UInt64 := do
  let b ← readExact 8
  pure (UInt64.ofNat (ofLE b.toList))

/-- `read_i32::<LittleEndian>`. -/
def readI32 : Decoder ε Int32 := do
  let n ← readU32
  pure n.toInt32

/-- `read_i64::<LittleEndian>`. -/
def readI64 : Decoder ε Int64 := do
  let n ← readU64
  pure n.toInt64

end Primitive

/-- `for _ in 0..n { v.push(p(reader)?) }`. -/
def readMany : ℕ → Decoder ε α → Decoder ε (List α)
  | 0, _ => pure []
  | n + 1, p => do
    let a ← p
    let as ← readMany n p
    pure (a :: as)

/-! ## Exact decoding -/

/-- **`p` decodes `bs` to `a`, whatever follows**: it returns `a` and leaves the rest untouched. -/
def Decodes (p : Decoder ε α) (bs : List UInt8) (a : α) : Prop :=
  ∀ rest, p (bs ++ rest) = .ok (a, rest)

namespace Decodes

/-- The byte string may be spelled in any way. -/
theorem congr {p : Decoder ε α} {bs bs' : List UInt8} {a : α} (h : Decodes p bs a)
    (hb : bs' = bs) : Decodes p bs' a := hb ▸ h

theorem pure (a : α) : Decodes (Pure.pure a : Decoder ε α) [] a := fun _ => rfl

/-- **Sequencing**: two exact decoders consume the concatenation. -/
theorem bind {p : Decoder ε α} {f : α → Decoder ε β} {bs cs : List UInt8} {a : α} {b : β}
    (hp : Decodes p bs a) (hf : Decodes (f a) cs b) : Decodes (p >>= f) (bs ++ cs) b := by
  intro rest
  change (p (bs ++ cs ++ rest) >>= fun x => f x.1 x.2) = _
  rw [List.append_assoc, hp (cs ++ rest)]
  exact hf rest

/-- The last field of a record: nothing is read after it. -/
theorem map {p : Decoder ε α} {bs : List UInt8} {a : α} (g : α → β) (hp : Decodes p bs a) :
    Decodes (p >>= fun x => Pure.pure (g x)) bs (g a) := by
  have h := hp.bind (f := fun x => Pure.pure (g x)) (pure (g a))
  rwa [List.append_nil] at h

theorem lift {x : Outcome ε α} {a : α} (h : x = .ok a) : Decodes (Decoder.lift x) [] a := by
  intro rest
  simp [Decoder.lift, h, Except.map]

/-- **A counted loop decodes the concatenation of its elements.** -/
theorem readMany {p : Decoder ε α} {enc : α → List UInt8} {as : List α}
    (h : ∀ a ∈ as, Decodes p (enc a) a) :
    Decodes (Bitspend.readMany as.length p) (as.flatMap enc) as := by
  induction as with
  | nil => exact pure []
  | cons a as ih =>
    rw [List.flatMap_cons]
    exact (h a (by simp)).bind ((ih fun b hb => h b (by simp [hb])).map (a :: ·))

theorem readSome {n : ℕ} (b : Bytes n) :
    Decodes (Bitspend.readSome n : Decoder ε (Bytes n)) b.toList b := by
  intro rest
  obtain ⟨l, rfl⟩ := b
  simp [Bitspend.readSome]

section Primitive

variable [EofError ε]

theorem readExact {n : ℕ} (b : Bytes n) :
    Decodes (Bitspend.readExact n : Decoder ε (Bytes n)) b.toList b := by
  intro rest
  obtain ⟨l, rfl⟩ := b
  simp [Bitspend.readExact]

theorem readU8 (n : UInt8) : Decodes (Bitspend.readU8 : Decoder ε UInt8) [n] n := by
  have h := (readExact (ε := ε) (⟨[n], rfl⟩ : Bytes 1)).map fun b => UInt8.ofNat (ofLE b.toList)
  have hn : UInt8.ofNat (ofLE [n]) = n := by simp [ofLE]
  rwa [Bytes.toList, hn] at h

theorem readU16 (n : UInt16) : Decodes (Bitspend.readU16 : Decoder ε UInt16) (u16LE n) n := by
  have h := (readExact (ε := ε) ⟨u16LE n, length_u16LE n⟩).map
    fun b => UInt16.ofNat (ofLE b.toList)
  rwa [Bytes.toList, ofLE_u16LE] at h

theorem readU16BE (n : UInt16) : Decodes (Bitspend.readU16BE : Decoder ε UInt16) (u16BE n) n := by
  have h := (readExact (ε := ε) ⟨u16BE n, length_u16BE n⟩).map
    fun b => UInt16.ofNat (ofLE b.toList.reverse)
  have hr : (u16BE n).reverse = u16LE n := List.reverse_reverse _
  rwa [Bytes.toList, hr, ofLE_u16LE] at h

theorem readU32 (n : UInt32) : Decodes (Bitspend.readU32 : Decoder ε UInt32) (u32LE n) n := by
  have h := (readExact (ε := ε) ⟨u32LE n, length_u32LE n⟩).map
    fun b => UInt32.ofNat (ofLE b.toList)
  rwa [Bytes.toList, ofLE_u32LE] at h

theorem readU64 (n : UInt64) : Decodes (Bitspend.readU64 : Decoder ε UInt64) (u64LE n) n := by
  have h := (readExact (ε := ε) ⟨u64LE n, length_u64LE n⟩).map
    fun b => UInt64.ofNat (ofLE b.toList)
  rwa [Bytes.toList, ofLE_u64LE] at h

theorem readI32 (n : Int32) : Decodes (Bitspend.readI32 : Decoder ε Int32) (i32LE n) n := by
  have h := (readU32 (ε := ε) n.toUInt32).map UInt32.toInt32
  rwa [Int32.toInt32_toUInt32] at h

theorem readI64 (n : Int64) : Decodes (Bitspend.readI64 : Decoder ε Int64) (i64LE n) n := by
  have h := (readU64 (ε := ε) n.toUInt64).map UInt64.toInt64
  rwa [Int64.toInt64_toUInt64] at h

end Primitive

end Decodes

/-! ## Decoders that do not panic -/

/-- **A decoder does not panic**, whatever the bytes. -/
def Panicless (p : Decoder ε α) : Prop := ∀ s, Outcome.Safe (p s)

namespace Panicless

theorem pure (a : α) : Panicless (Pure.pure a : Decoder ε α) := fun s => .ok (a, s)

theorem bind {p : Decoder ε α} {f : α → Decoder ε β} (hp : Panicless p)
    (hf : ∀ a, Panicless (f a)) : Panicless (p >>= f) :=
  fun s => (hp s).bind fun x _ => hf x.1 x.2

/-- **Behind a decoder that does not panic**, only what follows may. -/
theorem safe_bind_iff {p : Decoder ε α} {f : α → Decoder ε β} (hp : Panicless p) {s : List UInt8} :
    Outcome.Safe ((p >>= f) s) ↔ ∀ a rest, p s = .ok (a, rest) → Outcome.Safe (f a rest) := by
  rw [Decoder.bind_apply, Outcome.safe_bind_iff]
  exact ⟨fun h a rest ha => h.2 (a, rest) ha, fun h => ⟨hp s, fun x hx => h x.1 x.2 hx⟩⟩

theorem fail (e : ε) : Panicless (Decoder.fail e : Decoder ε α) := fun _ => .err e

theorem lift {x : Outcome ε α} (hx : x.Safe) : Panicless (Decoder.lift x) :=
  fun _ => Outcome.safe_map_iff.mpr hx

theorem readSome (n : ℕ) : Panicless (Bitspend.readSome n : Decoder ε (Bytes n)) := fun _ => .ok _

theorem readMany {p : Decoder ε α} (hp : Panicless p) (n : ℕ) :
    Panicless (Bitspend.readMany n p) := by
  induction n with
  | zero => exact pure []
  | succ n ih => exact hp.bind fun _ => ih.bind fun _ => pure _

section Primitive

variable [EofError ε]

theorem readExact (n : ℕ) : Panicless (Bitspend.readExact n : Decoder ε (Bytes n)) := by
  intro s
  unfold Bitspend.readExact
  split
  · exact .ok _
  · exact .err _

theorem readU8 : Panicless (Bitspend.readU8 : Decoder ε UInt8) := (readExact 1).bind fun _ => pure _

theorem readU16 : Panicless (Bitspend.readU16 : Decoder ε UInt16) :=
  (readExact 2).bind fun _ => pure _

theorem readU16BE : Panicless (Bitspend.readU16BE : Decoder ε UInt16) :=
  (readExact 2).bind fun _ => pure _

theorem readU32 : Panicless (Bitspend.readU32 : Decoder ε UInt32) :=
  (readExact 4).bind fun _ => pure _

theorem readU64 : Panicless (Bitspend.readU64 : Decoder ε UInt64) :=
  (readExact 8).bind fun _ => pure _

theorem readI32 : Panicless (Bitspend.readI32 : Decoder ε Int32) := readU32.bind fun _ => pure _

theorem readI64 : Panicless (Bitspend.readI64 : Decoder ε Int64) := readU64.bind fun _ => pure _

end Primitive

end Panicless

/-- **A counted loop panics exactly when its body does, at an element it reaches.** -/
theorem safe_readMany_iff {p : Decoder ε α} {n : ℕ} {s : List UInt8} :
    Outcome.Safe (readMany n p s)
      ↔ ∀ k < n, ∀ as rest, readMany k p s = .ok (as, rest) → Outcome.Safe (p rest) := by
  induction n generalizing s with
  | zero => exact ⟨fun _ k hk => absurd hk (Nat.not_lt_zero k), fun _ => .ok _⟩
  | succ n ih =>
    have hstep : ∀ k a (s₁ : List UInt8), p s = .ok (a, s₁) → ∀ as rest,
        readMany k p s₁ = .ok (as, rest) → readMany (k + 1) p s = .ok (a :: as, rest) := by
      intro k a s₁ hp as rest hk
      rw [readMany, Decoder.bind_apply, hp, Outcome.ok_bind, Decoder.bind_apply, hk]
      rfl
    rw [readMany, Decoder.bind_apply, Outcome.safe_bind_iff]
    constructor
    · rintro ⟨hp, hrest⟩ k hk as rest hread
      rcases k with _ | k
      · cases hread
        exact hp
      · obtain ⟨⟨a, s₁⟩, ha, hread⟩ := Outcome.bind_eq_ok.mp hread
        obtain ⟨⟨as', rest'⟩, hk', hread⟩ := Outcome.bind_eq_ok.mp hread
        cases hread
        have hn := (Outcome.safe_bind_iff.mp (hrest (a, s₁) ha)).1
        exact ih.mp hn k (Nat.lt_of_succ_lt_succ hk) _ _ hk'
    · intro h
      refine ⟨h 0 (Nat.succ_pos n) [] s rfl, fun x hx => ?_⟩
      refine (ih.mpr fun k hk as rest hread => ?_).bind fun _ _ => .ok _
      exact h (k + 1) (Nat.succ_lt_succ hk) _ _ (hstep k x.1 x.2 hx as rest hread)

/-! ## A decoder with checks added -/

/-- **`p` is `q`, unless it panics with `msg`.** -/
def Unless (msg : String) (p q : Decoder ε α) : Prop := ∀ s, p s = q s ∨ p s = .error (.panic msg)

namespace Unless

variable {msg : String} {p q : Decoder ε α}

theorem refl (p : Decoder ε α) : Unless msg p p := fun _ => .inl rfl

theorem bind {f g : α → Decoder ε β} (hp : Unless msg p q) (hf : ∀ a, Unless msg (f a) (g a)) :
    Unless msg (p >>= f) (q >>= g) := by
  intro s
  rw [Decoder.bind_apply, Decoder.bind_apply]
  rcases hp s with h | h
  · rw [h]
    rcases q s with e | ⟨a, rest⟩
    · exact .inl rfl
    · exact hf a rest
  · rw [h]
    exact .inr rfl

/-- A check in front. -/
theorem lift_bind {x : Outcome ε Unit} (hx : x = .ok () ∨ x = .error (.panic msg))
    (hp : Unless msg p q) : Unless msg (Decoder.lift x >>= fun _ => p) q := by
  intro s
  rw [Decoder.bind_apply]
  rcases hx with rfl | rfl
  · exact hp s
  · exact .inr rfl

theorem readMany (hp : Unless msg p q) (n : ℕ) :
    Unless msg (Bitspend.readMany n p) (Bitspend.readMany n q) := by
  induction n with
  | zero => exact refl _
  | succ n ih => exact hp.bind fun a => ih.bind fun as => refl _

/-- What it returns is what `q` returns… -/
theorem of_ok (hp : Unless msg p q) {s : List UInt8} {x : α × List UInt8} (h : p s = .ok x) :
    q s = .ok x := by
  rcases hp s with heq | heq
  · exact heq.symm.trans h
  · rw [heq] at h
    cases h

/-- …and it is `q` wherever it does not panic. -/
theorem eq_of_safe (hp : Unless msg p q) {s : List UInt8} (h : Outcome.Safe (p s)) : p s = q s :=
  (hp s).resolve_right (h msg)

/-- **A counted loop of it panics exactly when it does, behind elements that `q` reads.** -/
theorem safe_readMany_iff (hp : Unless msg p q) {n : ℕ} {s : List UInt8} :
    Outcome.Safe (Bitspend.readMany n p s)
      ↔ ∀ k < n, ∀ as rest, Bitspend.readMany k q s = .ok (as, rest) → Outcome.Safe (p rest) := by
  rw [Bitspend.safe_readMany_iff]
  constructor
  · intro h k hk as rest hread
    have hsafe : Outcome.Safe (Bitspend.readMany k p s) :=
      Bitspend.safe_readMany_iff.mpr fun j hj => h j (hj.trans hk)
    exact h k hk as rest (((hp.readMany k).eq_of_safe hsafe).trans hread)
  · exact fun h k hk as rest hread => h k hk as rest ((hp.readMany k).of_ok hread)

end Unless

/-! ## The calls of a writer -/

/-- One call on a `Write`: `write` may accept only some of the buffer, `write_all` loops. -/
inductive WriteCall where
  | write (buf : List UInt8)
  | writeAll (buf : List UInt8)
  deriving Repr, DecidableEq

/-- The buffer handed to a call. -/
def WriteCall.buf : WriteCall → List UInt8
  | .write b => b
  | .writeAll b => b

/-- What an in-memory buffer receives: every call takes its whole buffer. -/
def emitted (ws : List WriteCall) : List UInt8 := ws.flatMap WriteCall.buf

@[simp] theorem emitted_nil : emitted [] = [] := rfl

@[simp] theorem emitted_cons (w : WriteCall) (ws : List WriteCall) :
    emitted (w :: ws) = w.buf ++ emitted ws := rfl

@[simp] theorem emitted_append (ws ws' : List WriteCall) :
    emitted (ws ++ ws') = emitted ws ++ emitted ws' := List.flatMap_append

@[simp] theorem emitted_flatMap (f : α → List WriteCall) (as : List α) :
    emitted (as.flatMap f) = as.flatMap fun a => emitted (f a) := List.flatMap_assoc

@[simp] theorem WriteCall.buf_write (b : List UInt8) : (WriteCall.write b).buf = b := rfl
@[simp] theorem WriteCall.buf_writeAll (b : List UInt8) : (WriteCall.writeAll b).buf = b := rfl

/-- **Sizes add up**: a loop of writes emits the sum of what each element emits. -/
theorem length_flatMap_eq_sum {f : α → List UInt8} {size : α → ℕ} {as : List α}
    (h : ∀ a ∈ as, (f a).length = size a) : (as.flatMap f).length = (as.map size).sum := by
  rw [List.length_flatMap, List.map_congr_left h]

/-- …and elements of one size need only be counted. -/
theorem length_flatMap_const {f : α → List UInt8} {k : ℕ} {as : List α}
    (h : ∀ a ∈ as, (f a).length = k) : (as.flatMap f).length = k * as.length := by
  rw [length_flatMap_eq_sum h]
  simp [Nat.mul_comm]

end Bitspend
