import Bitspend.Machinery.Fault

/-!
# Machinery/Op — calls that change a state and may fail

A method on `&mut self` that returns a `Result`: it ends with an outcome and a state, also when it
fails, since a failed call keeps whatever it had changed before.  `Op.Keeps` is the invariant rule:
what every step of an operation preserves, the operation preserves, on every way out.
-/

namespace Bitspend

/-- **An operation** on a state `σ`: the outcome, and the state it leaves on success and on
failure. -/
abbrev Op (ε σ : Type) := ExceptT (Fault ε) (StateM σ)

namespace Op

variable {ε ε' σ τ α β : Type}

/-- `?` on a call that does not touch the state. -/
def lift (x : Outcome ε α) : Op ε σ α := fun s => (x, s)

/-- A `&self` method that reads the state. -/
def ask (f : σ → Outcome ε α) : Op ε σ α := fun s => (f s, s)

/-- An assignment to the state. -/
def update (f : σ → σ) : Op ε σ Unit := fun s => (.ok (), f s)

/-- A call on a part of the state. -/
def zoom (get : σ → τ) (set : τ → σ → σ) (x : Op ε τ α) : Op ε σ α := fun s =>
  ((x (get s)).1, set (x (get s)).2 s)

/-- `call.map_err(f)`. -/
def mapErr (f : ε → ε') (x : Op ε σ α) : Op ε' σ α := fun s =>
  (Outcome.mapErr f (x s).1, (x s).2)

/-- `call.expect(msg)`, also `call.unwrap()`: an error is a panic. -/
def expectOk (msg : String) (x : Op ε σ α) : Op ε' σ α := fun s =>
  (Outcome.expectOk msg (x s).1, (x s).2)

/-- `let _ = call`: an error is dropped, what the call had changed stays; a panic is still one. -/
def attempt (x : Op ε σ α) : Op ε' σ Unit := fun s =>
  match x s with
  | (.ok _, s') => (.ok (), s')
  | (.error (.error _), s') => (.ok (), s')
  | (.error (.panic msg), s') => (.error (.panic msg), s')

/-- A loop of at most so many rounds: the body hands on what the next round starts from (`inl`), or
breaks with a value (`inr`). -/
def loop (body : β → Op ε σ (β ⊕ α)) : ℕ → β → Op ε σ α
  | 0, _ => lift (.error (.panic "loop bound reached"))
  | n + 1, b => do
    match ← body b with
    | .inl b' => loop body n b'
    | .inr a => pure a

/-- `loop { … }`, where `bound` of the state falls with every round: by `loopOn_cases` the bound on
the rounds is then never what ends it. -/
def loopOn (bound : σ → ℕ) (body : β → Op ε σ (β ⊕ α)) (b : β) : Op ε σ α := fun s =>
  loop body (bound s + 1) b s

theorem eq_of_fst {x : Op ε σ α} {s : σ} {r : Outcome ε α} (h : (x s).1 = r) :
    x s = (r, (x s).2) := Prod.ext h rfl

/-- Sequencing: the second part runs on what the first one left. -/
theorem bind_apply (x : Op ε σ α) (f : α → Op ε σ β) (s : σ) :
    (x >>= f) s = match x s with
      | (.ok a, s') => f a s'
      | (.error e, s') => (.error e, s') := by
  change (match x s with | (r, s') => ExceptT.bindCont f r s') = _
  rcases x s with ⟨_ | _, _⟩ <;> rfl

theorem map_apply (g : α → β) (x : Op ε σ α) (s : σ) :
    (g <$> x) s = (g <$> (x s).1, (x s).2) := by
  rw [← bind_pure_comp, bind_apply]
  rcases x s with ⟨_ | _, _⟩ <;> rfl

/-- Running past a read that succeeds… -/
theorem ask_bind_of_ok {g : σ → Outcome ε α} {f : α → Op ε σ β} {s : σ} {a : α}
    (h : g s = .ok a) : (ask g >>= f) s = f a s := by
  rw [bind_apply, ask, h]

theorem ask_ok_bind (g : σ → α) (f : α → Op ε σ β) (s : σ) :
    ((ask fun s => .ok (g s)) >>= f) s = f (g s) s := rfl

/-- …into one that fails… -/
theorem ask_bind_of_error {g : σ → Outcome ε α} {f : α → Op ε σ β} {s : σ} {e : Fault ε}
    (h : g s = .error e) : (ask g >>= f) s = (.error e, s) := by
  rw [bind_apply, ask, h]

/-- …or, where the rest leaves the state alone, as a `?` chain beside it. -/
theorem ask_bind_eq {g : σ → Outcome ε α} {f : α → Op ε σ β} {s : σ} {h : α → Outcome ε β}
    (hf : ∀ a, f a s = (h a, s)) : (ask g >>= f) s = (g s >>= h, s) := by
  rcases hg : g s with e | a
  · exact ask_bind_of_error hg
  · exact (ask_bind_of_ok hg).trans (hf a)

/-- **A sequence succeeds exactly when both parts do**, the second from where the first ended. -/
theorem bind_eq_ok {x : Op ε σ α} {f : α → Op ε σ β} {s s'' : σ} {b : β} :
    (x >>= f) s = (.ok b, s'') ↔ ∃ a s', x s = (.ok a, s') ∧ f a s' = (.ok b, s'') := by
  rw [bind_apply]
  rcases x s with ⟨_ | a, s'⟩
  · constructor
    · intro h
      cases h
    · rintro ⟨_, _, h, _⟩
      cases h
  · constructor
    · exact fun h => ⟨a, s', rfl, h⟩
    · rintro ⟨_, _, h, hf⟩
      cases h
      exact hf

/-- …and fails exactly when one of them does. -/
theorem bind_eq_error {x : Op ε σ α} {f : α → Op ε σ β} {s s'' : σ} {e : Fault ε} :
    (x >>= f) s = (.error e, s'') ↔ x s = (.error e, s'')
      ∨ ∃ a s', x s = (.ok a, s') ∧ f a s' = (.error e, s'') := by
  rw [bind_apply]
  rcases x s with ⟨e' | a, s'⟩
  · constructor
    · rintro ⟨⟩
      exact .inl rfl
    · rintro (h | ⟨_, _, h, _⟩)
      · cases h
        rfl
      · cases h
  · constructor
    · exact fun h => .inr ⟨a, s', rfl, h⟩
    · rintro (h | ⟨_, _, h, hf⟩)
      · cases h
      · cases h
        exact hf

/-- **The state a sequence leaves** is the one its first part failed in, or the one the second part
leaves. -/
theorem snd_bind {x : Op ε σ α} {f : α → Op ε σ β} {s : σ} {C : σ → Prop}
    (herr : ∀ e s', x s = (.error e, s') → C s')
    (hok : ∀ a s', x s = (.ok a, s') → C (f a s').2) : C ((x >>= f) s).2 := by
  rw [bind_apply]
  rcases hx : x s with ⟨e | a, s'⟩
  · exact herr e s' hx
  · exact hok a s' hx

theorem lift_eq_ok {x : Outcome ε α} {s s' : σ} {a : α} :
    (lift x : Op ε σ α) s = (.ok a, s') ↔ x = .ok a ∧ s' = s := by
  constructor
  · rintro ⟨⟩
    exact ⟨rfl, rfl⟩
  · rintro ⟨rfl, rfl⟩
    rfl

theorem ask_eq_ok {f : σ → Outcome ε α} {s s' : σ} {a : α} :
    ask f s = (.ok a, s') ↔ f s = .ok a ∧ s' = s :=
  lift_eq_ok

theorem update_eq_ok {f : σ → σ} {s s' : σ} {u : Unit} :
    (update f : Op ε σ Unit) s = (.ok u, s') ↔ s' = f s := by
  constructor
  · rintro ⟨⟩
    rfl
  · rintro rfl
    rfl

theorem pure_eq_ok {s s' : σ} {a b : α} :
    (pure a : Op ε σ α) s = (.ok b, s') ↔ b = a ∧ s' = s := by
  constructor
  · rintro ⟨⟩
    exact ⟨rfl, rfl⟩
  · rintro ⟨rfl, rfl⟩
    rfl

/-- **A loop that succeeds** runs its body on the first element, then the rest. -/
theorem forM_cons_eq_ok {f : α → Op ε σ PUnit} {a : α} {as : List α} {s s'' : σ} {u : PUnit} :
    (ForM.forM (a :: as) f : Op ε σ PUnit) s = (.ok u, s'')
      ↔ ∃ v s', f a s = (.ok v, s') ∧ (ForM.forM as f : Op ε σ PUnit) s' = (.ok u, s'') := by
  rw [List.forM_cons]
  exact bind_eq_ok

/-- …and one that fails, fails at an element it reached. -/
theorem exists_of_forM_eq_error {f : α → Op ε σ PUnit} {as : List α} {s t : σ} {e : Fault ε}
    (h : (ForM.forM as f : Op ε σ PUnit) s = (.error e, t)) :
    ∃ before a after s', as = before ++ a :: after
      ∧ (ForM.forM before f : Op ε σ PUnit) s = (.ok PUnit.unit, s') ∧ f a s' = (.error e, t) := by
  induction as generalizing s with
  | nil =>
    rw [List.forM_nil] at h
    cases h
  | cons a as ih =>
    rw [List.forM_cons] at h
    obtain hfail | ⟨_, s₁, hok, hrest⟩ := bind_eq_error.mp h
    · exact ⟨[], a, as, s, rfl, rfl, hfail⟩
    · obtain ⟨before, b, after, s', rfl, hbefore, hb⟩ := ih hrest
      exact ⟨a :: before, b, after, s', rfl, forM_cons_eq_ok.mpr ⟨_, s₁, hok, hbefore⟩, hb⟩

theorem zoom_eq_ok {get : σ → τ} {set : τ → σ → σ} {x : Op ε τ α} {s s' : σ} {a : α} :
    zoom get set x s = (.ok a, s') ↔ ∃ t, x (get s) = (.ok a, t) ∧ s' = set t s := by
  rw [zoom, Prod.mk.injEq]
  constructor
  · rintro ⟨ha, rfl⟩
    exact ⟨(x (get s)).2, Prod.ext ha rfl, rfl⟩
  · rintro ⟨t, ht, rfl⟩
    rw [ht]
    exact ⟨rfl, rfl⟩

theorem mapErr_eq_ok {f : ε → ε'} {x : Op ε σ α} {s s' : σ} {a : α} :
    mapErr f x s = (.ok a, s') ↔ x s = (.ok a, s') := by
  rw [mapErr, Prod.mk.injEq, Outcome.mapErr_eq_ok]
  constructor
  · rintro ⟨ha, hs⟩
    exact Prod.ext ha hs
  · intro h
    rw [h]
    exact ⟨rfl, rfl⟩

theorem expectOk_eq_ok {msg : String} {x : Op ε σ α} {s s' : σ} {a : α} :
    (expectOk msg x : Op ε' σ α) s = (.ok a, s') ↔ x s = (.ok a, s') := by
  rw [expectOk, Prod.mk.injEq, Outcome.expectOk_eq_ok]
  exact (@Prod.ext_iff _ _ (x s) (.ok a, s')).symm

theorem attempt_of_ok {x : Op ε σ α} {s s' : σ} {a : α} (h : x s = (.ok a, s')) :
    (attempt x : Op ε' σ Unit) s = (.ok (), s') := by
  rw [attempt, h]

/-! ## Loops -/

section Loop

variable {body : β → Op ε σ (β ⊕ α)}

theorem loop_succ (n : ℕ) (b : β) (s : σ) :
    loop body (n + 1) b s = match body b s with
      | (.ok (.inl b'), s') => loop body n b' s'
      | (.ok (.inr a), s') => (.ok a, s')
      | (.error e, s') => (.error e, s') := by
  rw [loop, bind_apply]
  rcases body b s with ⟨_ | (_ | _), _⟩ <;> rfl

/-- **The rule for a loop that returns**: an invariant of its rounds, and what it gives on the way
out. -/
theorem loop_eq_ok {I : β → σ → Prop} {Q : α → σ → Prop}
    (hgo : ∀ b s b' s', I b s → body b s = (.ok (.inl b'), s') → I b' s')
    (hout : ∀ b s a s', I b s → body b s = (.ok (.inr a), s') → Q a s')
    {n : ℕ} {b : β} {s s' : σ} {a : α} (hI : I b s) (h : loop body n b s = (.ok a, s')) :
    Q a s' := by
  induction n generalizing b s with
  | zero => cases h
  | succ n ih =>
    rw [loop_succ] at h
    rcases hb : body b s with ⟨_ | (b' | a'), s₁⟩
    · rw [hb] at h
      cases h
    · rw [hb] at h
      exact ih (hgo b s b' s₁ hI hb) h
    · rw [hb] at h
      cases h
      exact hout b s a s' hI hb

/-- **A loop gets to a round**: the rounds before it all went on. -/
inductive Reached (body : β → Op ε σ (β ⊕ α)) (b : β) (s : σ) : ℕ → β → σ → Prop
  | start : Reached body b s 0 b s
  | step {n : ℕ} {b' b'' : β} {s' s'' : σ} : Reached body b s n b' s' →
    body b' s' = (.ok (.inl b''), s'') → Reached body b s (n + 1) b'' s''

theorem Reached.head {b b' b'' : β} {s s' s'' : σ} {n : ℕ} (hb : body b s = (.ok (.inl b'), s'))
    (h : Reached body b' s' n b'' s'') : Reached body b s (n + 1) b'' s'' := by
  induction h with
  | start => exact .step .start hb
  | step _ hgo ih => exact .step ih hgo

/-- A loop whose first round does not go on has no other. -/
theorem Reached.eq_start {b b' : β} {s s' : σ} {n : ℕ}
    (hb : ∀ b'' s'', body b s ≠ (.ok (.inl b''), s'')) (h : Reached body b s n b' s') :
    n = 0 ∧ b' = b ∧ s' = s := by
  induction h with
  | start => exact ⟨rfl, rfl, rfl⟩
  | step _ hgo ih =>
    obtain ⟨-, rfl, rfl⟩ := ih
    exact absurd hgo (hb _ _)

/-- **How a loop ends**: in a round it got to, which breaks or fails.  Where a round that goes on
lowers `μ`, a bound above `μ` is never reached. -/
theorem loop_cases {μ : σ → ℕ} (hμ : ∀ b s b' s', body b s = (.ok (.inl b'), s') → μ s' < μ s)
    {n : ℕ} {b : β} {s s' : σ} {r : Outcome ε α} (hn : μ s < n) (h : loop body n b s = (r, s')) :
    ∃ k b₁ s₁, Reached body b s k b₁ s₁
      ∧ ((∃ a, r = .ok a ∧ body b₁ s₁ = (.ok (.inr a), s'))
        ∨ ∃ e, r = .error e ∧ body b₁ s₁ = (.error e, s')) := by
  induction n generalizing b s with
  | zero => exact absurd hn (Nat.not_lt_zero _)
  | succ n ih =>
    rw [loop_succ] at h
    rcases hb : body b s with ⟨e | (b' | a), s₁⟩
    · rw [hb] at h
      cases h
      exact ⟨0, b, s, .start, .inr ⟨e, rfl, hb⟩⟩
    · rw [hb] at h
      have hlt := hμ b s b' s₁ hb
      obtain ⟨k, b₁, s₂, hreach, hend⟩ := ih (by omega) h
      exact ⟨k + 1, b₁, s₂, hreach.head hb, hend⟩
    · rw [hb] at h
      cases h
      exact ⟨0, b, s, .start, .inl ⟨a, rfl, hb⟩⟩

theorem loopOn_cases {μ : σ → ℕ} (hμ : ∀ b s b' s', body b s = (.ok (.inl b'), s') → μ s' < μ s)
    {b : β} {s s' : σ} {r : Outcome ε α} (h : loopOn μ body b s = (r, s')) :
    ∃ k b₁ s₁, Reached body b s k b₁ s₁
      ∧ ((∃ a, r = .ok a ∧ body b₁ s₁ = (.ok (.inr a), s'))
        ∨ ∃ e, r = .error e ∧ body b₁ s₁ = (.error e, s')) :=
  loop_cases hμ (Nat.lt_succ_self _) h

end Loop

/-! ## Invariants -/

/-- **The operation preserves `P`**, however it ends. -/
def Keeps (P : σ → Prop) (x : Op ε σ α) : Prop := ∀ s, P s → P (x s).2

namespace Keeps

variable {P : σ → Prop}

theorem of_eq {x : Op ε σ α} {s s' : σ} {r : Outcome ε α} (hx : Keeps P x) (hs : P s)
    (h : x s = (r, s')) : P s' := by
  have := hx s hs
  rwa [h] at this

theorem pure (a : α) : Keeps P (Pure.pure a : Op ε σ α) := fun _ h => h

theorem lift (x : Outcome ε α) : Keeps P (Op.lift x : Op ε σ α) := fun _ h => h

theorem ask (f : σ → Outcome ε α) : Keeps P (Op.ask f) := fun _ h => h

theorem update {f : σ → σ} (hf : ∀ s, P s → P (f s)) : Keeps P (Op.update f : Op ε σ Unit) := hf

theorem bind {x : Op ε σ α} {f : α → Op ε σ β} (hx : Keeps P x) (hf : ∀ a, Keeps P (f a)) :
    Keeps P (x >>= f) := by
  intro s hs
  have h := hx s hs
  rw [bind_apply]
  rcases hxs : x s with ⟨_ | a, s'⟩
  · rwa [hxs] at h
  · rw [hxs] at h
    exact hf a s' h

theorem zoom {get : σ → τ} {set : τ → σ → σ} {x : Op ε τ α} {Q : τ → Prop} (hx : Keeps Q x)
    (hget : ∀ s, P s → Q (get s)) (hset : ∀ s t, P s → Q t → P (set t s)) :
    Keeps P (Op.zoom get set x) := fun s hs => hset s _ hs (hx _ (hget s hs))

theorem mapErr {f : ε → ε'} {x : Op ε σ α} (hx : Keeps P x) : Keeps P (Op.mapErr f x) := hx

theorem attempt {x : Op ε σ α} (hx : Keeps P x) : Keeps P (Op.attempt x : Op ε' σ Unit) := by
  intro s hs
  have h := hx s hs
  rw [Op.attempt]
  rcases hxs : x s with ⟨(_ | _) | _, s'⟩
  · rwa [hxs] at h
  · rwa [hxs] at h
  · rwa [hxs] at h

theorem loop {body : β → Op ε σ (β ⊕ α)} (hbody : ∀ b, Keeps P (body b)) (n : ℕ) (b : β) :
    Keeps P (Op.loop body n b) := by
  induction n generalizing b with
  | zero => exact Keeps.lift _
  | succ n ih =>
    refine (hbody b).bind ?_
    rintro (b' | a)
    · exact ih b'
    · exact Keeps.pure a

theorem loopOn {bound : σ → ℕ} {body : β → Op ε σ (β ⊕ α)} (hbody : ∀ b, Keeps P (body b)) (b : β) :
    Keeps P (Op.loopOn bound body b) := fun s => Keeps.loop hbody (bound s + 1) b s

/-- A loop over a list keeps what its body keeps. -/
theorem forM {f : α → Op ε σ PUnit} {as : List α} (hf : ∀ a ∈ as, Keeps P (f a)) :
    Keeps P (ForM.forM as f) := by
  induction as with
  | nil => exact Keeps.pure _
  | cons a as ih =>
    rw [List.forM_cons]
    exact (hf a List.mem_cons_self).bind fun _ => ih fun b hb => hf b (List.mem_cons_of_mem a hb)

end Keeps

/-! ## Contracts -/

/-- **The operation meets its contract**: from a state with `P` it returns `a` in a state with `Q a`,
or fails in a state with `R`. -/
def Meets (P : σ → Prop) (x : Op ε σ α) (Q : α → σ → Prop) (R : σ → Prop) : Prop :=
  ∀ s, P s → match x s with
    | (.ok a, s') => Q a s'
    | (.error _, s') => R s'

namespace Meets

variable {P P' R : σ → Prop} {Q : α → σ → Prop} {Q' : β → σ → Prop}

theorem of_ok {x : Op ε σ α} {s s' : σ} {a : α} (hx : Meets P x Q R) (hs : P s)
    (h : x s = (.ok a, s')) : Q a s' := by
  have := hx s hs
  rwa [h] at this

/-- Whatever the way out, if both ways give it. -/
theorem snd {x : Op ε σ α} {s : σ} (hx : Meets P x (fun _ => R) R) (hs : P s) : R (x s).2 := by
  have := hx s hs
  rcases hxs : x s with ⟨_ | _, s'⟩
  · rwa [hxs] at this
  · rwa [hxs] at this

/-- What holds on every way out is such a contract. -/
theorem of_keeps {x : Op ε σ α} (hx : Keeps P x) : Meets P x (fun _ => P) P := by
  intro s hs
  have := hx s hs
  rcases hxs : x s with ⟨_ | _, s'⟩
  · rwa [hxs] at this
  · rwa [hxs] at this

theorem pre {x : Op ε σ α} (hx : Meets P x Q R) (h : ∀ s, P' s → P s) : Meets P' x Q R :=
  fun s hs => hx s (h s hs)

theorem post {x : Op ε σ α} {Q₁ : α → σ → Prop} {R₁ : σ → Prop} (hx : Meets P x Q R)
    (hQ : ∀ a s, Q a s → Q₁ a s) (hR : ∀ s, R s → R₁ s) : Meets P x Q₁ R₁ := by
  intro s hs
  have := hx s hs
  rcases hxs : x s with ⟨_ | a, s'⟩
  · rw [hxs] at this
    exact hR s' this
  · rw [hxs] at this
    exact hQ a s' this

theorem pure {a : α} (h : ∀ s, P s → Q a s) : Meets P (Pure.pure a : Op ε σ α) Q R := h

theorem lift {x : Outcome ε α} (hok : ∀ a s, P s → x = .ok a → Q a s) (herr : ∀ s, P s → R s) :
    Meets P (Op.lift x) Q R := by
  intro s hs
  rcases x with e | a
  · exact herr s hs
  · exact hok a s hs rfl

theorem ask {f : σ → Outcome ε α} (hok : ∀ a s, P s → f s = .ok a → Q a s)
    (herr : ∀ s, P s → R s) : Meets P (Op.ask f) Q R := by
  intro s hs
  rw [Op.ask]
  rcases hf : f s with e | a
  · exact herr s hs
  · exact hok a s hs hf

theorem update {f : σ → σ} {Q : Unit → σ → Prop} (h : ∀ s, P s → Q () (f s)) :
    Meets P (Op.update f : Op ε σ Unit) Q R := h

/-- **The rule of sequencing.** -/
theorem bind {x : Op ε σ α} {f : α → Op ε σ β} (hx : Meets P x Q R)
    (hf : ∀ a, Meets (Q a) (f a) Q' R) : Meets P (x >>= f) Q' R := by
  intro s hs
  have h := hx s hs
  rw [bind_apply]
  rcases hxs : x s with ⟨_ | a, s'⟩
  · rwa [hxs] at h
  · rw [hxs] at h
    exact hf a s' h

/-- A call on a part of the state meets what it meets there. -/
theorem zoom {get : σ → τ} {set : τ → σ → σ} {x : Op ε τ α} {P₁ R₁ : τ → Prop}
    {Q₁ : α → τ → Prop} (hx : Meets P₁ x Q₁ R₁) (hget : ∀ s, P s → P₁ (get s))
    (hok : ∀ a s t, P s → Q₁ a t → Q a (set t s)) (herr : ∀ s t, P s → R₁ t → R (set t s)) :
    Meets P (Op.zoom get set x) Q R := by
  intro s hs
  have h := hx (get s) (hget s hs)
  rw [Op.zoom]
  rcases hrun : x (get s) with ⟨_ | a, t⟩
  · rw [hrun] at h
    exact herr s t hs h
  · rw [hrun] at h
    exact hok a s t hs h

/-- A loop over a list meets what its body keeps. -/
theorem forM {f : α → Op ε σ PUnit} {as : List α}
    (hf : ∀ a ∈ as, Meets P (f a) (fun _ => P) R) : Meets P (ForM.forM as f) (fun _ => P) R := by
  induction as with
  | nil => exact Meets.pure fun _ h => h
  | cons a as ih =>
    rw [List.forM_cons]
    exact (hf a List.mem_cons_self).bind fun _ => ih fun b hb => hf b (List.mem_cons_of_mem a hb)

end Meets

/-! ## Returning the same -/

/-- Where `x` returns, `y` returns the same and ends where it does. -/
def Within (x y : Op ε σ α) : Prop := ∀ s a s', x s = (.ok a, s') → y s = (.ok a, s')

namespace Within

theorem refl (x : Op ε σ α) : Within x x := fun _ _ _ h => h

theorem bind {x y : Op ε σ α} {f g : α → Op ε σ β} (hx : Within x y) (hf : ∀ a, Within (f a) (g a)) :
    Within (x >>= f) (y >>= g) := by
  intro s b s'' h
  obtain ⟨a, s', ha, hb⟩ := bind_eq_ok.mp h
  exact bind_eq_ok.mpr ⟨a, s', hx s a s' ha, hf a s' b s'' hb⟩

/-- A step that only checks may be left out. -/
theorem of_lift_bind {x : Outcome ε α} {f : α → Op ε σ β} {y : Op ε σ β}
    (h : ∀ a, x = .ok a → Within (f a) y) : Within (Op.lift x >>= f) y := by
  intro s b s'' hrun
  obtain ⟨a, s', ha, hb⟩ := bind_eq_ok.mp hrun
  obtain ⟨hx, rfl⟩ := lift_eq_ok.mp ha
  exact h a hx s' b s'' hb

theorem loop {body body' : β → Op ε σ (β ⊕ α)} (hbody : ∀ b, Within (body b) (body' b)) (n : ℕ)
    (b : β) : Within (Op.loop body n b) (Op.loop body' n b) := by
  induction n generalizing b with
  | zero => exact refl _
  | succ n ih =>
    refine bind (hbody b) fun r => ?_
    cases r with
    | inl b' => exact ih b'
    | inr a => exact refl _

end Within

/-! ## A call with checks added -/

/-- **`x` is `y`, unless it panics with `msg`.** -/
def Unless (msg : String) (x y : Op ε σ α) : Prop :=
  ∀ s, x s = y s ∨ (x s).1 = .error (.panic msg)

namespace Unless

variable {msg : String}

theorem refl (x : Op ε σ α) : Unless msg x x := fun _ => .inl rfl

theorem lift {x y : Outcome ε α} (h : x = y ∨ x = .error (.panic msg)) :
    Unless msg (Op.lift x : Op ε σ α) (Op.lift y) :=
  fun _ => h.imp (fun heq => by rw [heq]) fun heq => heq

theorem bind {x y : Op ε σ α} {f g : α → Op ε σ β} (hx : Unless msg x y)
    (hf : ∀ a, Unless msg (f a) (g a)) : Unless msg (x >>= f) (y >>= g) := by
  intro s
  rw [bind_apply, bind_apply]
  rcases hx s with h | h
  · rw [h]
    rcases y s with ⟨e | a, s'⟩
    · exact .inl rfl
    · exact hf a s'
  · rw [eq_of_fst h]
    exact .inr rfl

theorem map {x y : Op ε σ α} (g : α → β) (hx : Unless msg x y) : Unless msg (g <$> x) (g <$> y) := by
  rw [← bind_pure_comp, ← bind_pure_comp]
  exact hx.bind fun a => refl _

/-- A check in front. -/
theorem lift_bind {c : Outcome ε Unit} {x y : Op ε σ α} (hc : c = .ok () ∨ c = .error (.panic msg))
    (hx : Unless msg x y) : Unless msg (Op.lift c >>= fun _ => x) y := by
  intro s
  rw [bind_apply]
  rcases hc with rfl | rfl
  · exact hx s
  · exact .inr rfl

end Unless

end Op

end Bitspend
