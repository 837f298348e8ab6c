import Mathlib.Data.List.Forall2

/-!
# Machinery/Fault — the ways a Rust call can fail

A call either returns, returns an error value, or panics.  `Except (Fault ε)` keeps the last two
apart, so that "returns `Err`" and "does not panic" are different statements.
-/

namespace Bitspend

/-- How a call can end without a value: an `Err(e)`, or a panic with its message. -/
inductive Fault (ε : Type) where
  | error (e : ε)
  | panic (msg : String)
  deriving Repr, DecidableEq

/-- The result of a Rust call: `Result<α, ε>`, or a panic. -/
abbrev Outcome (ε α : Type) := Except (Fault ε) α

namespace Outcome

variable {ε ε' α β : Type}

/-- `return Err(e)`. -/
def err (e : ε) : Outcome ε α := .error (.error e)

/-- `Option::expect`: a missing value is a panic. -/
def expect (msg : String) : Option α → Outcome ε α
  | some a => .ok a
  | none => .error (.panic msg)

/-- `Result::expect`: an error is a panic. -/
def expectOk (msg : String) : Outcome ε α → Outcome ε' α
  | .ok a => .ok a
  | .error (.error _) => .error (.panic msg)
  | .error (.panic msg') => .error (.panic msg')

/-- `Option::ok_or`: a missing value is an error. -/
def okOr (e : ε) : Option α → Outcome ε α
  | some a => .ok a
  | none => err e

/-- `Result::map_err`. -/
def mapErr (f : ε → ε') : Outcome ε α → Outcome ε' α
  | .ok a => .ok a
  | .error (.error e) => .error (.error (f e))
  | .error (.panic msg) => .error (.panic msg)

/-- **A `?` chain succeeds exactly when each of its two calls does.** -/
theorem bind_eq_ok {x : Outcome ε α} {f : α → Outcome ε β} {b : β} :
    x >>= f = .ok b ↔ ∃ a, x = .ok a ∧ f a = .ok b := by
  cases x with
  | error e => simp [bind, Except.bind]
  | ok a => simp [bind, Except.bind]

@[simp] theorem ok_bind (a : α) (f : α → Outcome ε β) : (.ok a : Outcome ε α) >>= f = f a := rfl

@[simp] theorem error_bind (e : Fault ε) (f : α → Outcome ε β) :
    (.error e : Outcome ε α) >>= f = .error e := rfl

@[simp] theorem mapErr_eq_ok {f : ε → ε'} {x : Outcome ε α} {a : α} :
    mapErr f x = .ok a ↔ x = .ok a := by
  rcases x with (_ | _) | _ <;> simp [mapErr]

@[simp] theorem expect_eq_ok {msg : String} {o : Option α} {a : α} :
    (expect msg o : Outcome ε α) = .ok a ↔ o = some a := by
  cases o <;> simp [expect]

@[simp] theorem expectOk_eq_ok {msg : String} {x : Outcome ε α} {a : α} :
    (expectOk msg x : Outcome ε' α) = .ok a ↔ x = .ok a := by
  rcases x with (_ | _) | _ <;> simp [expectOk]

@[simp] theorem okOr_eq_ok {e : ε} {o : Option α} {a : α} :
    okOr e o = .ok a ↔ o = some a := by
  cases o <;> simp [okOr, err]

theorem okOr_injective {e : ε} : Function.Injective (okOr e : Option α → Outcome ε α) := by
  rintro (_ | a) (_ | b) h
  · rfl
  · cases h
  · cases h
  · cases h
    rfl

/-! ## Loops that stop at the first fault -/

/-- Of two lists related element by element, each element has a partner on the left… -/
theorem exists_left_of_forall₂ {R : α → β → Prop} {as : List α} {bs : List β}
    (h : List.Forall₂ R as bs) {b : β} (hb : b ∈ bs) : ∃ a ∈ as, R a b := by
  induction h with
  | nil => cases hb
  | cons hab _ ih =>
    rcases List.mem_cons.mp hb with rfl | hb
    · exact ⟨_, List.mem_cons_self, hab⟩
    · obtain ⟨a, ha, hab⟩ := ih hb
      exact ⟨a, List.mem_cons_of_mem _ ha, hab⟩

/-- …and on the right. -/
theorem exists_right_of_forall₂ {R : α → β → Prop} {as : List α} {bs : List β}
    (h : List.Forall₂ R as bs) {a : α} (ha : a ∈ as) : ∃ b ∈ bs, R a b :=
  exists_left_of_forall₂ h.flip ha

/-- **A mapped call that returned, returned at every element.** -/
theorem forall₂_of_mapM_eq_ok {f : α → Outcome ε β} {as : List α} {bs : List β}
    (h : as.mapM f = .ok bs) : List.Forall₂ (fun a b => f a = .ok b) as bs := by
  induction as generalizing bs with
  | nil =>
    cases h
    exact .nil
  | cons a as ih =>
    rw [List.mapM_cons] at h
    obtain ⟨b, hb, h⟩ := bind_eq_ok.mp h
    obtain ⟨bs', hbs, h⟩ := bind_eq_ok.mp h
    cases h
    exact .cons hb (ih hbs)

/-- …so its values are those of any function it agrees with. -/
theorem mapM_eq_ok {f : α → Outcome ε β} {g : α → β} (hf : ∀ a b, f a = .ok b → b = g a)
    {as : List α} {bs : List β} (h : as.mapM f = .ok bs) : bs = as.map g := by
  have hall := (forall₂_of_mapM_eq_ok h).imp fun a b hab => (hf a b hab).symm
  rw [← List.forall₂_map_left_iff, List.forall₂_eq_eq_eq] at hall
  exact hall.symm

/-- Conversely, calls that all return make the map return. -/
theorem mapM_ok {f : α → Outcome ε β} {g : α → β} {as : List α} (h : ∀ a ∈ as, f a = .ok (g a)) :
    as.mapM f = .ok (as.map g) := by
  induction as with
  | nil => rfl
  | cons a as ih =>
    rw [List.mapM_cons, h a List.mem_cons_self, ok_bind,
      ih fun b hb => h b (List.mem_cons_of_mem a hb), ok_bind]
    rfl

/-- The values stand where their arguments did. -/
theorem getElem?_of_mapM_eq_ok {f : α → Outcome ε β} {as : List α} {bs : List β}
    (h : as.mapM f = .ok bs) {i : ℕ} {a : α} (ha : as[i]? = some a) :
    ∃ b, bs[i]? = some b ∧ f a = .ok b := by
  have hall := forall₂_of_mapM_eq_ok h
  obtain ⟨hi, rfl⟩ := List.getElem?_eq_some_iff.mp ha
  have hi' : i < bs.length := hall.length_eq ▸ hi
  exact ⟨bs[i], List.getElem?_eq_getElem hi', hall.get hi hi'⟩

/-- **A fold of calls that returned is the fold of their values.** -/
theorem foldlM_eq_ok {f : β → α → Outcome ε β} {g : β → α → β}
    (hf : ∀ b a c, f b a = .ok c → c = g b a) {as : List α} {b c : β}
    (h : as.foldlM f b = .ok c) : c = as.foldl g b := by
  induction as generalizing b with
  | nil =>
    cases h
    rfl
  | cons a as ih =>
    rw [List.foldlM_cons] at h
    obtain ⟨b', hb, h⟩ := bind_eq_ok.mp h
    rw [List.foldl_cons, ← hf b a b' hb]
    exact ih h

/-! ## Calls that do not panic -/

/-- **The call does not panic**: it returns a value or an error. -/
def Safe (x : Outcome ε α) : Prop := ∀ msg, x ≠ .error (.panic msg)

theorem Safe.ok (a : α) : Safe (.ok a : Outcome ε α) := fun _ h => by cases h

theorem Safe.err (e : ε) : Safe (Outcome.err e : Outcome ε α) := fun _ h => by cases h

theorem Safe.of_eq_ok {x : Outcome ε α} {a : α} (h : x = .ok a) : Safe x := h ▸ Safe.ok a

theorem Safe.bind {x : Outcome ε α} {f : α → Outcome ε β} (hx : Safe x)
    (hf : ∀ a, x = .ok a → Safe (f a)) : Safe (x >>= f) := by
  rcases x with e | a
  · exact fun msg h => hx msg (by cases h; rfl)
  · exact hf a rfl

/-- **A `?` chain does not panic exactly when neither of its calls does.** -/
theorem safe_bind_iff {x : Outcome ε α} {f : α → Outcome ε β} :
    Safe (x >>= f) ↔ Safe x ∧ ∀ a, x = .ok a → Safe (f a) := by
  refine ⟨fun h => ⟨fun msg hx => h msg (by rw [hx]; rfl), fun a hx => ?_⟩, fun h => h.1.bind h.2⟩
  rw [hx] at h
  exact h

theorem safe_map_iff {x : Outcome ε α} {f : α → β} : Safe (f <$> x) ↔ Safe x := by
  rcases x with (e | msg) | a
  · exact ⟨fun _ => Safe.err e, fun _ => Safe.err e⟩
  · exact ⟨fun h => absurd rfl (h msg), fun h => absurd rfl (h msg)⟩
  · exact ⟨fun _ => Safe.ok a, fun _ => Safe.ok (f a)⟩

/-! ## Calls that return or panic -/

/-- **The call does not return an error**: it returns a value or panics. -/
def Errless (x : Outcome ε α) : Prop := ∀ e, x ≠ .error (.error e)

theorem Errless.ok (a : α) : Errless (.ok a : Outcome ε α) := fun _ h => by cases h

theorem Errless.panic (msg : String) : Errless (.error (.panic msg) : Outcome ε α) :=
  fun _ h => by cases h

theorem Errless.expect (msg : String) (o : Option α) : Errless (expect msg o : Outcome ε α) := by
  rcases o with _ | a
  · exact Errless.panic msg
  · exact Errless.ok a

theorem Errless.bind {x : Outcome ε α} {f : α → Outcome ε β} (hx : Errless x)
    (hf : ∀ a, Errless (f a)) : Errless (x >>= f) := by
  rcases x with (e | msg) | a
  · exact absurd rfl (hx e)
  · exact Errless.panic msg
  · exact hf a

/-- **A `?` chain returns no error exactly when neither of its calls does.** -/
theorem errless_bind_iff {x : Outcome ε α} {f : α → Outcome ε β} :
    Errless (x >>= f) ↔ Errless x ∧ ∀ a, x = .ok a → Errless (f a) := by
  rcases x with (e | msg) | a
  · exact ⟨fun h => absurd rfl (h e), fun h => absurd rfl (h.1 e)⟩
  · exact ⟨fun _ => ⟨Errless.panic msg, fun _ h => by cases h⟩, fun _ => Errless.panic msg⟩
  · exact ⟨fun h => ⟨Errless.ok a, fun b hb => by cases hb; exact h⟩, fun h => h.2 a rfl⟩

/-- Past a call that returns no error, an error is the next call's. -/
theorem Errless.bind_eq_error {x : Outcome ε α} {f : α → Outcome ε β} {e : ε} (hx : Errless x) :
    x >>= f = .error (.error e) ↔ ∃ a, x = .ok a ∧ f a = .error (.error e) := by
  rcases x with (e' | msg) | a
  · exact absurd rfl (hx e')
  · exact ⟨fun h => (by cases h), fun ⟨_, h, _⟩ => by cases h⟩
  · exact ⟨fun h => ⟨a, rfl, h⟩, fun ⟨_, ha, h⟩ => by cases ha; exact h⟩

/-- A call that returns no error and does not panic returns. -/
theorem Errless.exists_ok {x : Outcome ε α} (hx : Errless x) (hsafe : Safe x) : ∃ a, x = .ok a := by
  rcases x with (e | msg) | a
  · exact absurd rfl (hx e)
  · exact absurd rfl (hsafe msg)
  · exact ⟨a, rfl⟩

theorem Errless.mapM {f : α → Outcome ε β} (hf : ∀ a, Errless (f a)) (as : List α) :
    Errless (as.mapM f) := by
  induction as with
  | nil => exact Errless.ok []
  | cons a as ih =>
    rw [List.mapM_cons]
    exact (hf a).bind fun _ => ih.bind fun _ => Errless.ok _

theorem Errless.foldlM {f : β → α → Outcome ε β} (hf : ∀ b a, Errless (f b a)) (as : List α)
    (b : β) : Errless (as.foldlM f b) := by
  induction as generalizing b with
  | nil => exact Errless.ok b
  | cons a as ih =>
    rw [List.foldlM_cons]
    exact (hf b a).bind ih

theorem errless_mapErr_iff {f : ε → ε'} {x : Outcome ε α} : Errless (mapErr f x) ↔ Errless x := by
  rcases x with (e | msg) | a
  · exact ⟨fun h => absurd rfl (h (f e)), fun h => absurd rfl (h e)⟩
  · exact ⟨fun _ => Errless.panic msg, fun _ => Errless.panic msg⟩
  · exact ⟨fun _ => Errless.ok a, fun _ => Errless.ok a⟩

/-- Of calls that do not panic, a map returns no error when each call returns. -/
theorem errless_mapM_iff {f : α → Outcome ε β} (hf : ∀ a, Safe (f a)) {as : List α} :
    Errless (as.mapM f) ↔ ∀ a ∈ as, ∃ b, f a = .ok b := by
  induction as with
  | nil => exact ⟨fun _ a ha => absurd ha List.not_mem_nil, fun _ => Errless.ok []⟩
  | cons a as ih =>
    rw [List.mapM_cons, errless_bind_iff, List.forall_mem_cons]
    rcases h : f a with (e | msg) | b
    · exact ⟨fun ⟨h, _⟩ => absurd rfl (h e), fun ⟨⟨_, h⟩, _⟩ => by cases h⟩
    · exact absurd h (hf a msg)
    · refine ⟨fun ⟨_, hrest⟩ => ⟨⟨b, rfl⟩, ?_⟩, fun ⟨_, hrest⟩ => ⟨Errless.ok b, fun b' _ => ?_⟩⟩
      · exact ih.mp (errless_bind_iff.mp (hrest b rfl)).1
      · exact Errless.bind (ih.mpr hrest) fun _ => Errless.ok _

end Outcome

end Bitspend
