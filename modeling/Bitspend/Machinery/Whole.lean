import Bitspend.Machinery.Codec

/-!
# Machinery/Whole — decoders that notice when the input ends

`Read::read` fills what it can and leaves the rest of its buffer alone, so a decoder built on it may
return a value made of bytes that were never sent.  `Settled p s` says that this did not happen: the
result is the same whatever follows `s`.  A decoder that is settled everywhere and never consumes
less than its value needs is `Whole`.  `Drains` is the weaker property of a short read: either the
value was there, or nothing is left — which is as good when what comes next is `Hungry`.

A `Sized` decoder consumes its bytes or what there is of them; `Takes p t l` adds from how many
bytes on it is accepted, and the two numbers then decide whether a short input is noticed.
-/

namespace Bitspend

variable {ε α β : Type}

/-- **The result does not depend on what follows**: more input is left behind what was left. -/
def Settled (p : Decoder ε α) (s : List UInt8) : Prop :=
  ∀ a rest, p s = .ok (a, rest) → ∀ more, p (s ++ more) = .ok (a, rest ++ more)

/-- **What is returned was read**: the decoder consumed a byte string that it decodes exactly, and
`Q` relates the value to its length. -/
def Whole (p : Decoder ε α) (Q : ℕ → α → Prop) : Prop :=
  ∀ s a rest, p s = .ok (a, rest) → ∃ used, s = used ++ rest ∧ Q used.length a ∧ Decodes p used a

/-- Either what is returned was read, or nothing is left to read. -/
def Drains (p : Decoder ε α) (Q : ℕ → α → Prop) : Prop :=
  ∀ s a rest, p s = .ok (a, rest) →
    (∃ used, s = used ++ rest ∧ Q used.length a ∧ Decodes p used a) ∨ rest = []

/-- The decoder needs a byte. -/
def Hungry (p : Decoder ε α) : Prop := ∀ x, p [] ≠ .ok x

namespace Decoder

/-- **A sequence of two decoders returns exactly when both do.** -/
theorem bind_eq_ok {p : Decoder ε α} {f : α → Decoder ε β} {s rest : List UInt8} {b : β} :
    (p >>= f) s = .ok (b, rest) ↔ ∃ a s₁, p s = .ok (a, s₁) ∧ f a s₁ = .ok (b, rest) := by
  rw [bind_apply, Outcome.bind_eq_ok]
  constructor
  · rintro ⟨⟨a, s₁⟩, hp, hf⟩
    exact ⟨a, s₁, hp, hf⟩
  · rintro ⟨a, s₁, hp, hf⟩
    exact ⟨(a, s₁), hp, hf⟩

/-- A counted loop that returns has run as often as asked. -/
theorem length_of_readMany {p : Decoder ε α} {n : ℕ} {s rest : List UInt8} {as : List α}
    (h : readMany n p s = .ok (as, rest)) : as.length = n := by
  induction n generalizing s rest as with
  | zero =>
    cases h
    rfl
  | succ n ih =>
    obtain ⟨a, s₁, -, h⟩ := bind_eq_ok.mp h
    obtain ⟨as', s₂, htail, h⟩ := bind_eq_ok.mp h
    cases h
    rw [List.length_cons, ih htail]

theorem lift_eq_ok {x : Outcome ε α} {s rest : List UInt8} {a : α} :
    lift x s = .ok (a, rest) ↔ x = .ok a ∧ rest = s := by
  rcases x with e | a'
  · exact ⟨fun h => (by cases h), fun h => (by cases h.1)⟩
  · constructor
    · intro h
      cases h
      exact ⟨rfl, rfl⟩
    · rintro ⟨h, rfl⟩
      cases h
      rfl

end Decoder

/-! ## Settled results -/

theorem Whole.settled {p : Decoder ε α} {Q : ℕ → α → Prop} (hp : Whole p Q) (s : List UInt8) :
    Settled p s := by
  intro a rest h more
  obtain ⟨used, rfl, -, hdec⟩ := hp s a rest h
  rw [List.append_assoc]
  exact hdec (rest ++ more)

theorem Hungry.settled {p : Decoder ε α} (hp : Hungry p) : Settled p [] :=
  fun _ _ h => absurd h (hp _)

/-- A function of the value, applied at the end, changes nothing. -/
theorem settled_map_iff {p : Decoder ε α} {g : α → β} (hg : Function.Injective g)
    {s : List UInt8} : Settled (p >>= fun a => pure (g a)) s ↔ Settled p s := by
  have hmap : ∀ s a rest, (p >>= fun a => pure (g a)) s = .ok (g a, rest) ↔ p s = .ok (a, rest) := by
    intro s a rest
    rw [Decoder.bind_eq_ok]
    constructor
    · rintro ⟨a', s₁, hp, heq⟩
      have heq : (g a', s₁) = (g a, rest) := Except.ok.inj heq
      obtain ⟨ha, rfl⟩ := Prod.mk.inj heq
      rw [← hg ha]
      exact hp
    · exact fun hp => ⟨a, rest, hp, rfl⟩
  constructor
  · intro h a rest hp more
    exact (hmap _ _ _).mp (h (g a) rest ((hmap _ _ _).mpr hp) more)
  · intro h b rest hp more
    obtain ⟨a, s₁, ha, heq⟩ := Decoder.bind_eq_ok.mp hp
    obtain ⟨rfl, rfl⟩ := Prod.mk.inj (Except.ok.inj heq)
    exact (hmap _ _ _).mpr (h a s₁ ha more)

/-- **Behind a decoder that may only run dry, a hungry one settles the whole.** -/
theorem Drains.settled_bind_iff {p : Decoder ε α} {f : α → Decoder ε β} {Q : ℕ → α → Prop}
    (hp : Drains p Q) (hf : ∀ a, Hungry (f a)) {s : List UInt8} :
    Settled (p >>= f) s ↔ ∀ a rest, p s = .ok (a, rest) → Settled (f a) rest := by
  have hrun : ∀ a used, Decodes p used a → ∀ rest more b rest',
      (p >>= f) (used ++ rest ++ more) = .ok (b, rest') ↔ f a (rest ++ more) = .ok (b, rest') := by
    intro a used hdec rest more b rest'
    rw [Decoder.bind_apply, List.append_assoc, hdec, Outcome.ok_bind]
  constructor
  · intro h a rest ha b rest' hb more
    obtain ⟨used, rfl, -, hdec⟩ | rfl := hp s a rest ha
    · refine (hrun a used hdec rest more b _).mp (h b rest' ?_ more)
      rw [← List.append_nil (used ++ rest)]
      exact (hrun a used hdec rest [] b rest').mpr (by rwa [List.append_nil])
    · exact absurd hb (hf a _)
  · intro h b rest' hbind more
    obtain ⟨a, rest, ha, hb⟩ := Decoder.bind_eq_ok.mp hbind
    obtain ⟨used, rfl, -, hdec⟩ | rfl := hp s a rest ha
    · exact (hrun a used hdec rest more b _).mpr (h a rest ha b rest' hb more)
    · exact absurd hb (hf a _)

/-- …and behind one that reads what it returns, any decoder does. -/
theorem Whole.settled_bind_iff {p : Decoder ε α} {f : α → Decoder ε β} {Q : ℕ → α → Prop}
    (hp : Whole p Q) {s : List UInt8} :
    Settled (p >>= f) s ↔ ∀ a rest, p s = .ok (a, rest) → Settled (f a) rest := by
  have hrun : ∀ a rest, p s = .ok (a, rest) → ∀ more, (p >>= f) (s ++ more) = f a (rest ++ more) := by
    intro a rest ha more
    rw [Decoder.bind_apply, hp.settled s a rest ha more, Outcome.ok_bind]
  constructor
  · intro h a rest ha b rest' hb more
    rw [← hrun a rest ha more]
    exact h b rest' (Decoder.bind_eq_ok.mpr ⟨a, rest, ha, hb⟩) more
  · intro h b rest' hb more
    obtain ⟨a, rest, ha, hb⟩ := Decoder.bind_eq_ok.mp hb
    rw [hrun a rest ha more]
    exact h a rest ha b rest' hb more

/-! ## Hunger -/

theorem Hungry.bind {p : Decoder ε α} {f : α → Decoder ε β} (hp : Hungry p) : Hungry (p >>= f) := by
  rintro ⟨b, rest⟩ h
  obtain ⟨a, s₁, ha, -⟩ := Decoder.bind_eq_ok.mp h
  exact hp _ ha

/-- A short read passes its hunger on. -/
theorem Drains.hungry_bind {p : Decoder ε α} {f : α → Decoder ε β} {Q : ℕ → α → Prop}
    (hp : Drains p Q) (hf : ∀ a, Hungry (f a)) : Hungry (p >>= f) := by
  rintro ⟨b, rest⟩ h
  obtain ⟨a, s₁, ha, hb⟩ := Decoder.bind_eq_ok.mp h
  obtain rfl : s₁ = [] := by
    obtain ⟨used, hs, -⟩ | h := hp [] a s₁ ha
    · exact (List.append_eq_nil_iff.mp hs.symm).2
    · exact h
  exact hf a _ hb

/-! ## Whole decoders -/

namespace Whole

variable {p : Decoder ε α} {f : α → Decoder ε β} {Q : ℕ → α → Prop} {R : ℕ → β → Prop}

theorem drains (hp : Whole p Q) : Drains p Q := fun s a rest h => .inl (hp s a rest h)

theorem mono {Q' : ℕ → α → Prop} (hp : Whole p Q) (h : ∀ u a, Q u a → Q' u a) : Whole p Q' := by
  intro s a rest hs
  obtain ⟨used, hused, hq, hdec⟩ := hp s a rest hs
  exact ⟨used, hused, h _ _ hq, hdec⟩

theorem pure {a : α} (h : Q 0 a) : Whole (Pure.pure a : Decoder ε α) Q := by
  intro s b rest hs
  cases hs
  exact ⟨[], rfl, h, Decodes.pure a⟩

/-- **Sequencing**: the lengths add up. -/
theorem bind (hp : Whole p Q) (hf : ∀ a u, Q u a → Whole (f a) fun u' b => R (u + u') b) :
    Whole (p >>= f) R := by
  intro s b rest h
  obtain ⟨a, s₁, ha, hb⟩ := Decoder.bind_eq_ok.mp h
  obtain ⟨used, rfl, hq, hdec⟩ := hp s a s₁ ha
  obtain ⟨used', rfl, hr, hdec'⟩ := hf a _ hq s₁ b rest hb
  refine ⟨used ++ used', (List.append_assoc _ _ _).symm, ?_, hdec.bind hdec'⟩
  rw [List.length_append]
  exact hr

theorem panicWith (msg : String) : Whole (Decoder.panicWith msg : Decoder ε α) Q :=
  fun _ _ _ h => by cases h

/-- **A counted loop** reads each of its elements. -/
theorem readMany {size : α → ℕ} (hp : Whole p fun u a => size a ≤ u) (n : ℕ) :
    Whole (Bitspend.readMany n p) fun u as => as.length = n ∧ (as.map size).sum ≤ u := by
  induction n with
  | zero => exact pure ⟨rfl, Nat.zero_le _⟩
  | succ n ih =>
    refine hp.bind fun a u hu => ih.bind fun as v hv => pure ⟨?_, ?_⟩
    · rw [List.length_cons, hv.1]
    · rw [List.map_cons, List.sum_cons]
      have := hv.2
      omega

end Whole

namespace Drains

variable {p : Decoder ε α} {f : α → Decoder ε β} {Q : ℕ → α → Prop} {R : ℕ → β → Prop}

/-- **A short read in front of a hungry decoder is no short read.** -/
theorem bind_hungry (hp : Drains p Q)
    (hf : ∀ a u, Q u a → Whole (f a) fun u' b => R (u + u') b) (hn : ∀ a, Hungry (f a)) :
    Whole (p >>= f) R := by
  intro s b rest h
  obtain ⟨a, s₁, ha, hb⟩ := Decoder.bind_eq_ok.mp h
  obtain ⟨used, rfl, hq, hdec⟩ | rfl := hp s a s₁ ha
  · obtain ⟨used', rfl, hr, hdec'⟩ := hf a _ hq s₁ b rest hb
    refine ⟨used ++ used', (List.append_assoc _ _ _).symm, ?_, hdec.bind hdec'⟩
    rw [List.length_append]
    exact hr
  · exact absurd hb (hn a _)

/-- A short read may follow what was read. -/
theorem after (hp : Whole p Q) (hf : ∀ a u, Q u a → Drains (f a) fun u' b => R (u + u') b) :
    Drains (p >>= f) R := by
  intro s b rest h
  obtain ⟨a, s₁, ha, hb⟩ := Decoder.bind_eq_ok.mp h
  obtain ⟨used, rfl, hq, hdec⟩ := hp s a s₁ ha
  obtain ⟨used', rfl, hr, hdec'⟩ | rfl := hf a _ hq s₁ b rest hb
  · refine .inl ⟨used ++ used', (List.append_assoc _ _ _).symm, ?_, hdec.bind hdec'⟩
    rw [List.length_append]
    exact hr
  · exact .inr rfl

/-- A check on the value reads nothing. -/
theorem bind_lift {g : α → Outcome ε β} (hp : Drains p Q)
    (hr : ∀ a b u, Q u a → g a = .ok b → R u b) : Drains (p >>= fun a => Decoder.lift (g a)) R := by
  intro s b rest h
  obtain ⟨a, s₁, ha, hb⟩ := Decoder.bind_eq_ok.mp h
  obtain ⟨hg, rfl⟩ := Decoder.lift_eq_ok.mp hb
  obtain ⟨used, hs, hq, hdec⟩ | rfl := hp s a _ ha
  · refine .inl ⟨used, hs, hr a b _ hq hg, ?_⟩
    exact (hdec.bind (Decodes.lift hg)).congr (List.append_nil used).symm
  · exact .inr rfl

end Drains

/-! ## Fields of one size -/

/-- **A decoder of one size** takes `t` bytes, or what there is; with `t` bytes there, its result is
settled. -/
structure Sized (p : Decoder ε α) (t : ℕ) : Prop where
  settled : ∀ s, t ≤ s.length → Settled p s
  leaves : ∀ s a rest, p s = .ok (a, rest) → rest = s.drop t

/-- …and is accepted from `l` bytes on. -/
structure Takes (p : Decoder ε α) (t l : ℕ) : Prop extends Sized p t where
  le : l ≤ t
  accepts : ∀ s, (∃ a rest, p s = .ok (a, rest)) ↔ l ≤ s.length

namespace Sized

variable {p : Decoder ε α} {f : α → Decoder ε β} {t t' : ℕ}

theorem pure (a : α) : Sized (Pure.pure a : Decoder ε α) 0 where
  settled := fun s _ => (Whole.pure (Q := fun _ _ => True) trivial).settled s
  leaves := fun s b rest h => by
    cases h
    rfl

theorem lift (x : Outcome ε α) : Sized (Decoder.lift x) 0 where
  settled := fun s _ a rest h more => by
    obtain ⟨hx, rfl⟩ := Decoder.lift_eq_ok.mp h
    exact Decoder.lift_eq_ok.mpr ⟨hx, rfl⟩
  leaves := fun s a rest h => (Decoder.lift_eq_ok.mp h).2

/-- **Sequencing**: the sizes add up. -/
theorem bind (hp : Sized p t) (hf : ∀ a, Sized (f a) t') : Sized (p >>= f) (t + t') where
  settled := fun s hs b rest h more => by
    obtain ⟨a, s₁, ha, hb⟩ := Decoder.bind_eq_ok.mp h
    obtain rfl := hp.leaves s a s₁ ha
    refine Decoder.bind_eq_ok.mpr ⟨a, _, hp.settled s (by omega) a _ ha more, ?_⟩
    refine (hf a).settled (s.drop t) ?_ b rest hb more
    rw [List.length_drop]
    omega
  leaves := fun s b rest h => by
    obtain ⟨a, s₁, ha, hb⟩ := Decoder.bind_eq_ok.mp h
    rw [(hf a).leaves s₁ b rest hb, hp.leaves s a s₁ ha, List.drop_drop]

theorem readMany (hp : Sized p t) (n : ℕ) : Sized (Bitspend.readMany n p) (t * n) := by
  induction n with
  | zero => exact pure []
  | succ n ih =>
    have h := hp.bind fun a => ih.bind fun as => pure (a :: as)
    have ht : t + (t * n + 0) = t * (n + 1) := by ring
    rwa [ht] at h

/-- **A decoder of one size is settled exactly when it refuses or all its bytes are there.** -/
theorem settled_iff (hp : Sized p t) {s : List UInt8} :
    Settled p s ↔ ∀ a rest, p s = .ok (a, rest) → t ≤ s.length := by
  constructor
  · intro h a rest ha
    by_contra ht
    -- one byte more is taken too, so it would not be left behind
    have hmore := hp.leaves _ _ _ (h a rest ha [0])
    have hlen := congrArg List.length hmore
    simp only [List.length_append, List.length_drop, List.length_singleton] at hlen
    omega
  · exact fun h a rest ha => hp.settled s (h a rest ha) a rest ha

end Sized

namespace Takes

variable {p : Decoder ε α} {f : α → Decoder ε β} {t l t' l' : ℕ}

theorem pure (a : α) : Takes (Pure.pure a : Decoder ε α) 0 0 where
  toSized := Sized.pure a
  le := le_rfl
  accepts := fun s => ⟨fun _ => Nat.zero_le _, fun _ => ⟨a, s, rfl⟩⟩

theorem readSome (n : ℕ) : Takes (Bitspend.readSome n : Decoder ε (Bytes n)) n 0 where
  le := Nat.zero_le n
  settled := fun s hs a rest h more => by
    cases h
    have hshort : n - s.length = 0 := by omega
    have hshort' : n - (s.length + more.length) = 0 := by omega
    simp only [Bitspend.readSome, List.length_append, hshort, hshort', List.replicate_zero,
      List.append_nil, List.take_append_of_le_length hs, List.drop_append_of_le_length hs]
  leaves := fun s a rest h => by
    cases h
    rfl
  accepts := fun s => ⟨fun _ => Nat.zero_le _, fun _ => ⟨_, _, rfl⟩⟩

section Primitive

variable [EofError ε]

theorem readExact (n : ℕ) : Takes (Bitspend.readExact n : Decoder ε (Bytes n)) n n where
  le := le_rfl
  settled := fun s hs a rest h more => by
    have hs' : n ≤ (s ++ more).length := by
      rw [List.length_append]
      omega
    rw [Bitspend.readExact, dif_pos hs] at h
    cases h
    rw [Bitspend.readExact, dif_pos hs']
    simp only [List.take_append_of_le_length hs, List.drop_append_of_le_length hs]
  leaves := fun s a rest h => by
    unfold Bitspend.readExact at h
    split_ifs at h
    cases h
    rfl
  accepts := fun s => by
    unfold Bitspend.readExact
    split_ifs with hs
    · exact iff_of_true ⟨_, _, rfl⟩ hs
    · exact iff_of_false (by rintro ⟨_, _, h⟩; cases h) hs

end Primitive

/-- **Sequencing**: the second part is accepted on what the first one left. -/
theorem bind (hp : Takes p t l) (hf : ∀ a, Takes (f a) t' l') :
    Takes (p >>= f) (t + t') (if l' = 0 then l else t + l') where
  le := by
    have hl := hp.le
    obtain ⟨a, -⟩ := (hp.accepts (List.replicate l 0)).mpr (by simp)
    have hl' := (hf a).le
    split_ifs <;> omega
  toSized := hp.toSized.bind fun a => (hf a).toSized
  accepts := fun s => by
    have hboth : (∃ b rest, (p >>= f) s = .ok (b, rest)) ↔ l ≤ s.length ∧ l' ≤ s.length - t := by
      constructor
      · rintro ⟨b, rest, h⟩
        obtain ⟨a, s₁, ha, hb⟩ := Decoder.bind_eq_ok.mp h
        have hb' := ((hf a).accepts s₁).mp ⟨b, rest, hb⟩
        rw [hp.leaves s a s₁ ha, List.length_drop] at hb'
        exact ⟨(hp.accepts s).mp ⟨a, s₁, ha⟩, hb'⟩
      · rintro ⟨hs, hs'⟩
        obtain ⟨a, s₁, ha⟩ := (hp.accepts s).mpr hs
        obtain ⟨b, rest, hb⟩ := ((hf a).accepts s₁).mpr (by
          rw [hp.leaves s a s₁ ha, List.length_drop]
          exact hs')
        exact ⟨b, rest, Decoder.bind_eq_ok.mpr ⟨a, s₁, ha, hb⟩⟩
    have hl := hp.le
    rw [hboth]
    split_ifs <;> omega

/-- **A counted loop of fields that need a byte**: all but the last have to be complete. -/
theorem readMany_succ (hp : Takes p t l) (hpos : 0 < l) (n : ℕ) :
    Takes (readMany (n + 1) p) (t * (n + 1)) (t * n + l) := by
  induction n with
  | zero =>
    have h := hp.bind fun a => (pure []).bind fun as => pure (a :: as)
    have ht : t + (0 + 0) = t * (0 + 1) := by ring
    have hl : l = t * 0 + l := by ring
    rw [if_pos rfl, if_pos rfl, ht] at h
    rwa [← hl]
  | succ n ih =>
    have h := hp.bind fun a => ih.bind fun as => pure (a :: as)
    have hne : t * n + l ≠ 0 := by omega
    have ht : t + (t * (n + 1) + 0) = t * (n + 1 + 1) := by ring
    have hl : t + (t * n + l) = t * (n + 1) + l := by ring
    rwa [if_pos rfl, if_neg hne, ht, hl] at h

/-- …and one of fields that need none is accepted on any input. -/
theorem readMany_zero (hp : Takes p t 0) (n : ℕ) : Takes (readMany n p) (t * n) 0 := by
  induction n with
  | zero => exact pure []
  | succ n ih =>
    have h := hp.bind fun a => ih.bind fun as => pure (a :: as)
    have ht : t + (t * n + 0) = t * (n + 1) := by ring
    rwa [if_pos rfl, if_pos rfl, ht] at h

theorem settled_iff (hp : Takes p t l) {s : List UInt8} :
    Settled p s ↔ (l ≤ s.length → t ≤ s.length) := by
  rw [hp.toSized.settled_iff, ← hp.accepts]
  exact ⟨fun h ⟨a, rest, ha⟩ => h a rest ha, fun h a rest ha => h ⟨a, rest, ha⟩⟩

section Primitive

variable [EofError ε]

theorem readU8 : Takes (Bitspend.readU8 : Decoder ε UInt8) 1 1 := (readExact 1).bind fun _ => pure _

theorem readU16 : Takes (Bitspend.readU16 : Decoder ε UInt16) 2 2 :=
  (readExact 2).bind fun _ => pure _

theorem readU16BE : Takes (Bitspend.readU16BE : Decoder ε UInt16) 2 2 :=
  (readExact 2).bind fun _ => pure _

theorem readU32 : Takes (Bitspend.readU32 : Decoder ε UInt32) 4 4 :=
  (readExact 4).bind fun _ => pure _

theorem readU64 : Takes (Bitspend.readU64 : Decoder ε UInt64) 8 8 :=
  (readExact 8).bind fun _ => pure _

theorem readI32 : Takes (Bitspend.readI32 : Decoder ε Int32) 4 4 := readU32.bind fun _ => pure _

theorem readI64 : Takes (Bitspend.readI64 : Decoder ε Int64) 8 8 := readU64.bind fun _ => pure _

end Primitive

theorem hungry (hp : Takes p t l) (hl : 0 < l) : Hungry p := by
  rintro ⟨a, rest⟩ h
  have := (hp.accepts []).mp ⟨a, rest, h⟩
  rw [List.length_nil] at this
  omega

/-- With all its bytes there, such a field reads what it returns. -/
theorem decodes_of_le (hp : Takes p t l) {s rest : List UInt8} {a : α} (hs : t ≤ s.length)
    (h : p s = .ok (a, rest)) : ∃ used, s = used ++ rest ∧ used.length = t ∧ Decodes p used a := by
  have hlen : (s.take t).length = t := by simp [hs]
  have hs' : s = s.take t ++ rest := by rw [hp.leaves s a rest h, List.take_append_drop]
  -- the first `t` bytes alone are accepted, and settled
  obtain ⟨a', rest', ha'⟩ := (hp.accepts (s.take t)).mpr (by rw [hlen]; exact hp.le)
  obtain rfl : rest' = [] := by
    rw [hp.leaves _ _ _ ha']
    exact List.drop_eq_nil_of_le hlen.le
  have hdec : Decodes p (s.take t) a' := hp.settled _ hlen.ge a' [] ha'
  have hsame := hdec rest
  rw [← hs', h] at hsame
  cases hsame
  exact ⟨s.take t, hs', hlen, hdec⟩

theorem drains (hp : Takes p t l) : Drains p fun u _ => u = t := by
  intro s a rest h
  by_cases hs : t ≤ s.length
  · exact .inl (hp.decodes_of_le hs h)
  · right
    rw [hp.leaves s a rest h]
    exact List.drop_eq_nil_of_le (by omega)

theorem whole (hp : Takes p t t) : Whole p fun u _ => u = t :=
  fun s a rest h => hp.decodes_of_le ((hp.accepts s).mp ⟨a, rest, h⟩) h

/-- **In front of a hungry decoder**, such a field only moves the place where that one starts. -/
theorem settled_bind_iff (hp : Takes p t l) (hf : ∀ a, Hungry (f a)) {C : List UInt8 → Prop}
    (hc : ∀ a s, Settled (f a) s ↔ C s) {s : List UInt8} :
    Settled (p >>= f) s ↔ C (s.drop t) := by
  rw [hp.drains.settled_bind_iff hf]
  constructor
  · intro h
    by_cases hs : l ≤ s.length
    · obtain ⟨a, rest, ha⟩ := (hp.accepts s).mpr hs
      rw [← hp.leaves s a rest ha]
      exact (hc a rest).mp (h a rest ha)
    · obtain ⟨a, -⟩ := (hp.accepts (List.replicate l 0)).mpr (by simp)
      have hl := hp.le
      rw [List.drop_eq_nil_of_le (by omega)]
      exact (hc a []).mp (hf a).settled
  · intro h a rest ha
    rw [hc, hp.leaves s a rest ha]
    exact h

/-- …and in front of one that may panic, too. -/
theorem safe_bind_iff (hp : Takes p t l) (hsafe : Panicless p) {C : List UInt8 → Prop}
    (hc : ∀ a s, Outcome.Safe (f a s) ↔ C s) {s : List UInt8} :
    Outcome.Safe ((p >>= f) s) ↔ (l ≤ s.length → C (s.drop t)) := by
  rw [hsafe.safe_bind_iff]
  constructor
  · intro h hs
    obtain ⟨a, rest, ha⟩ := (hp.accepts s).mpr hs
    rw [← hp.leaves s a rest ha]
    exact (hc a rest).mp (h a rest ha)
  · intro h a rest ha
    rw [hc, hp.leaves s a rest ha]
    exact h ((hp.accepts s).mp ⟨a, rest, ha⟩)

end Takes

theorem readU8_eq_ok [EofError ε] {s rest : List UInt8} {b : UInt8} :
    (readU8 : Decoder ε UInt8) s = .ok (b, rest) ↔ s = b :: rest := by
  constructor
  · intro h
    obtain ⟨used, rfl, hlen, hdec⟩ := Takes.readU8.whole s b rest h
    obtain ⟨c, rfl⟩ := List.length_eq_one_iff.mp hlen
    have hc := Decodes.readU8 (ε := ε) c rest
    rw [h] at hc
    cases hc
    rfl
  · rintro rfl
    exact Decodes.readU8 b rest

end Bitspend
