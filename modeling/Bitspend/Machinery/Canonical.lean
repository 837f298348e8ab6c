import Bitspend.Machinery.Whole

/-!
# Machinery/Canonical — decoders that accept one spelling of a value, or several

A lenient decoder `p` and a strict one `q`, which differs from it only in refusing some spellings.
`Canon p q Q` says what the difference is: where `p` returns, the bytes it consumed are the canonical
spelling `e` of the value — that `Q e a` — and `q` returns the same, or they are longer and `q`
refuses.  The statement composes like `Whole`, so it reduces to the fields where the two differ.
-/

namespace Bitspend

variable {ε α β : Type}

/-- **`q` accepts exactly the canonical spellings among those `p` accepts**, and a spelling that is
not canonical is longer. -/
def Canon (p q : Decoder ε α) (Q : List UInt8 → α → Prop) : Prop :=
  ∀ s a rest, p s = .ok (a, rest) → ∃ c e, s = c ++ rest ∧ Q e a
    ∧ ((c = e ∧ q s = .ok (a, rest)) ∨ (e.length < c.length ∧ ∀ x, q s ≠ .ok x))

/-- **A decoder of one size reads every spelling**: the bytes can be told from the value. -/
def Spells (p : Decoder ε α) (t : ℕ) (Q : List UInt8 → α → Prop) : Prop :=
  ∀ u, u.length = t → ∃ a, Q u a ∧ Decodes p u a

namespace Spells

theorem pure {a : α} {Q : List UInt8 → α → Prop} (h : Q [] a) :
    Spells (Pure.pure a : Decoder ε α) 0 Q := by
  intro u hu
  rw [List.eq_nil_of_length_eq_zero hu]
  exact ⟨a, h, Decodes.pure a⟩

theorem bind {p : Decoder ε α} {f : α → Decoder ε β} {t t' : ℕ} {Q : List UInt8 → α → Prop}
    {R : List UInt8 → β → Prop} (hp : Spells p t Q)
    (hf : ∀ a u, Q u a → Spells (f a) t' fun u' b => R (u ++ u') b) :
    Spells (p >>= f) (t + t') R := by
  intro u hu
  have hsplit := List.take_append_drop t u
  obtain ⟨a, hq, hdec⟩ := hp (u.take t) (by rw [List.length_take]; omega)
  obtain ⟨b, hr, hdec'⟩ := hf a _ hq (u.drop t) (by rw [List.length_drop]; omega)
  rw [hsplit] at hr
  exact ⟨b, hr, (hdec.bind hdec').congr hsplit.symm⟩

theorem readSome (n : ℕ) :
    Spells (Bitspend.readSome n : Decoder ε (Bytes n)) n fun u b => u = b.toList :=
  fun u hu => ⟨⟨u, hu⟩, rfl, Decodes.readSome ⟨u, hu⟩⟩

section Primitive

variable [EofError ε]

theorem readExact (n : ℕ) :
    Spells (Bitspend.readExact n : Decoder ε (Bytes n)) n fun u b => u = b.toList :=
  fun u hu => ⟨⟨u, hu⟩, rfl, Decodes.readExact ⟨u, hu⟩⟩

theorem readU8 : Spells (Bitspend.readU8 : Decoder ε UInt8) 1 fun u n => u = [n] := by
  intro u hu
  obtain ⟨n, rfl⟩ := List.length_eq_one_iff.mp hu
  exact ⟨n, rfl, Decodes.readU8 n⟩

theorem readU16 : Spells (Bitspend.readU16 : Decoder ε UInt16) 2 fun u n => u = u16LE n := by
  intro u hu
  have h := u16LE_ofLE hu
  exact ⟨_, h.symm, (Decodes.readU16 _).congr h.symm⟩

theorem readU32 : Spells (Bitspend.readU32 : Decoder ε UInt32) 4 fun u n => u = u32LE n := by
  intro u hu
  have h := u32LE_ofLE hu
  exact ⟨_, h.symm, (Decodes.readU32 _).congr h.symm⟩

theorem readU64 : Spells (Bitspend.readU64 : Decoder ε UInt64) 8 fun u n => u = u64LE n := by
  intro u hu
  have h := u64LE_ofLE hu
  exact ⟨_, h.symm, (Decodes.readU64 _).congr h.symm⟩

theorem readI32 : Spells (Bitspend.readI32 : Decoder ε Int32) 4 fun u n => u = i32LE n := by
  refine readU32.bind fun n u hu => pure ?_
  rw [hu, List.append_nil, i32LE, UInt32.toUInt32_toInt32]

theorem readI64 : Spells (Bitspend.readI64 : Decoder ε Int64) 8 fun u n => u = i64LE n := by
  refine readU64.bind fun n u hu => pure ?_
  rw [hu, List.append_nil, i64LE, UInt64.toUInt64_toInt64]

end Primitive

/-- What such a decoder has read is the spelling of what it returns. -/
theorem of_eq_ok {p : Decoder ε α} {t : ℕ} {Q : List UInt8 → α → Prop} (hs : Spells p t Q)
    (hp : Takes p t t) {s rest : List UInt8} {a : α} (h : p s = .ok (a, rest)) :
    ∃ used, s = used ++ rest ∧ Q used a := by
  obtain ⟨used, rfl, hlen, hdec⟩ := hp.whole s a rest h
  obtain ⟨a', hq, hdec'⟩ := hs used hlen
  cases (hdec rest).symm.trans (hdec' rest)
  exact ⟨used, rfl, hq⟩

end Spells

namespace Canon

variable {p q : Decoder ε α} {f g : α → Decoder ε β} {Q : List UInt8 → α → Prop}
  {R : List UInt8 → β → Prop}

theorem mono {Q' : List UInt8 → α → Prop} (hp : Canon p q Q) (h : ∀ e a, Q e a → Q' e a) :
    Canon p q Q' := by
  intro s a rest hs
  obtain ⟨c, e, hc, hq, hor⟩ := hp s a rest hs
  exact ⟨c, e, hc, h e a hq, hor⟩

theorem pure {a : α} (h : Q [] a) : Canon (Pure.pure a : Decoder ε α) (Pure.pure a) Q := by
  intro s b rest hs
  cases hs
  exact ⟨[], [], rfl, h, .inl ⟨rfl, rfl⟩⟩

theorem panicWith (msg : String) : Canon (Decoder.panicWith msg : Decoder ε α) q Q :=
  fun _ _ _ h => by cases h

/-- **A field of one size has one spelling.** -/
theorem of_takes {t : ℕ} (hp : Takes p t t) (hs : Spells p t Q) : Canon p p Q := by
  intro s a rest h
  obtain ⟨used, hused, hq⟩ := hs.of_eq_ok hp h
  exact ⟨used, used, hused, hq, .inl ⟨rfl, h⟩⟩

/-- **Sequencing**: the whole is canonical when both parts are. -/
theorem bind (hp : Canon p q Q) (hf : ∀ a e, Q e a → Canon (f a) (g a) fun e' b => R (e ++ e') b) :
    Canon (p >>= f) (q >>= g) R := by
  intro s b rest h
  obtain ⟨a, s₁, ha, hb⟩ := Decoder.bind_eq_ok.mp h
  obtain ⟨c, e, rfl, hq, hpq⟩ := hp s a s₁ ha
  obtain ⟨c', e', rfl, hr, hfg⟩ := hf a e hq s₁ b rest hb
  refine ⟨c ++ c', e ++ e', (List.append_assoc _ _ _).symm, hr, ?_⟩
  simp only [List.length_append]
  have hle : e'.length ≤ c'.length := by
    obtain ⟨rfl, -⟩ | ⟨hlt, -⟩ := hfg
    · exact le_rfl
    · exact hlt.le
  obtain ⟨rfl, hqok⟩ | ⟨hlt, hqno⟩ := hpq
  · obtain ⟨rfl, hgok⟩ | ⟨hlt, hgno⟩ := hfg
    · exact .inl ⟨rfl, Decoder.bind_eq_ok.mpr ⟨a, _, hqok, hgok⟩⟩
    · refine .inr ⟨by omega, ?_⟩
      rintro ⟨b', rest'⟩ hbad
      obtain ⟨a', s₂, ha', hb'⟩ := Decoder.bind_eq_ok.mp hbad
      cases hqok.symm.trans ha'
      exact hgno _ hb'
  · refine .inr ⟨by omega, ?_⟩
    rintro ⟨b', rest'⟩ hbad
    obtain ⟨a', s₂, ha', -⟩ := Decoder.bind_eq_ok.mp hbad
    exact hqno _ ha'

/-- **A counted loop** is canonical when every element is. -/
theorem readMany {enc : α → List UInt8} (hp : Canon p q fun e a => e = enc a) (n : ℕ) :
    Canon (Bitspend.readMany n p) (Bitspend.readMany n q)
      fun e as => as.length = n ∧ e = as.flatMap enc := by
  induction n with
  | zero => exact pure ⟨rfl, rfl⟩
  | succ n ih =>
    refine hp.bind fun a e he => ih.bind fun as e' he' => pure ⟨?_, ?_⟩
    · rw [List.length_cons, he'.1]
    · rw [he, he'.2, List.append_nil, List.flatMap_cons]

/-- **Where the lenient decoder returns**, its bytes are the canonical ones exactly when the strict one
returns. -/
theorem iff_of_eq_ok {enc : α → List UInt8} (hp : Canon p q fun e a => e = enc a) {s rest : List UInt8}
    {a : α} (h : p s = .ok (a, rest)) : s = enc a ++ rest ↔ ∃ x, q s = .ok x := by
  obtain ⟨c, e, hs, rfl, hor⟩ := hp s a rest h
  constructor
  · intro hs'
    obtain ⟨-, hq⟩ | ⟨hlt, -⟩ := hor
    · exact ⟨_, hq⟩
    · have := List.append_cancel_right (hs.symm.trans hs')
      rw [this] at hlt
      exact absurd hlt (lt_irrefl _)
  · rintro ⟨x, hx⟩
    obtain ⟨rfl, -⟩ | ⟨-, hno⟩ := hor
    · exact hs
    · exact absurd hx (hno x)

end Canon

end Bitspend
