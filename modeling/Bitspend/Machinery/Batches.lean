import Mathlib.Data.List.Basic
import Mathlib.Order.Basic
import Mathlib.Tactic.Push

/-!
# Machinery/Batches — a mark kept over overlapping batches

The positions of a sequence are handed over in batches, each starting at or before the end of the one
before, so that some positions may come again.  One position **opens** a mark, others **set** it, and
a batch can only set what an earlier batch has opened; opening again clears it.  What the mark ends
as depends only on whether some batch with a setting position came after one with the opening one:
a mark that was cleared by a replay is set again by the rest of it.
-/

namespace Bitspend.Batches

/-- A batch holds the positions from its first component up to its second. -/
def Holds (t : ℕ × ℕ) (i : ℕ) : Prop := t.1 ≤ i ∧ i < t.2

instance (t : ℕ × ℕ) (i : ℕ) : Decidable (Holds t i) := inferInstanceAs (Decidable (_ ∧ _))

/-- **From `e` the batches reach `n`**: each starts at or before the end of the one before, and the
last ends at `n`. -/
inductive Reaches (n : ℕ) : ℕ → List (ℕ × ℕ) → Prop
  | done : Reaches n n []
  | next {e a b : ℕ} {ts : List (ℕ × ℕ)} : a ≤ e → Reaches n b ts → Reaches n e ((a, b) :: ts)

section Mark

variable {τ : Type} (opens sets : τ → Prop)

/-- The mark after a batch: absent, or present and set or not. -/
def MarkStep (t : τ) : Option Bool → Option Bool → Prop
  | none, m => (opens t → m = some false) ∧ (¬opens t → m = none)
  | some b, m => (sets t → m = some true) ∧ (¬sets t → opens t → m = some false)
    ∧ (¬sets t → ¬opens t → m = some b)

theorem MarkStep.congr {τ' : Type} {opens sets : τ → Prop} {opens' sets' : τ' → Prop} {t : τ} {t' : τ'}
    (ho : opens t ↔ opens' t') (hs : sets t ↔ sets' t') {m m' : Option Bool}
    (h : MarkStep opens sets t m m') : MarkStep opens' sets' t' m m' := by
  rcases m with _ | b
  · simpa only [MarkStep, ho] using h
  · simpa only [MarkStep, ho, hs] using h

/-- The mark over a sequence of batches. -/
inductive MarkRun : Option Bool → List τ → Option Bool → Prop
  | nil (m : Option Bool) : MarkRun m [] m
  | cons {m m' m'' : Option Bool} {t : τ} {ts : List τ} :
    MarkStep opens sets t m m' → MarkRun m' ts m'' → MarkRun m (t :: ts) m''

/-- A batch sets the mark after an earlier one has opened it. -/
def SetLater (ts : List τ) : Prop := ∃ l t r, ts = l ++ t :: r ∧ sets t ∧ ∃ t' ∈ l, opens t'

variable {opens sets}

theorem setLater_cons {t : τ} {ts : List τ} :
    SetLater opens sets (t :: ts)
      ↔ (opens t ∧ ∃ t' ∈ ts, sets t') ∨ SetLater opens sets ts := by
  constructor
  · rintro ⟨l, u, r, hsplit, hset, t', ht', hopen⟩
    rcases l with _ | ⟨v, l⟩
    · cases ht'
    · obtain ⟨rfl, rfl⟩ := List.cons_eq_cons.mp hsplit
      rcases List.mem_cons.mp ht' with rfl | ht'
      · exact .inl ⟨hopen, u, by simp, hset⟩
      · exact .inr ⟨l, u, r, rfl, hset, t', ht', hopen⟩
  · rintro (⟨hopen, u, hu, hset⟩ | ⟨l, u, r, rfl, hset, t', ht', hopen⟩)
    · obtain ⟨l, r, rfl⟩ := List.append_of_mem hu
      exact ⟨t :: l, u, r, rfl, hset, t, List.mem_cons_self, hopen⟩
    · exact ⟨t :: l, u, r, rfl, hset, t', List.mem_cons_of_mem t ht', hopen⟩

/-- One more batch. -/
theorem MarkRun.concat {m m' m'' : Option Bool} {t : τ} {ts : List τ}
    (h : MarkRun opens sets m ts m') (hstep : MarkStep opens sets t m' m'') :
    MarkRun opens sets m (ts ++ [t]) m'' := by
  induction h with
  | nil m => exact .cons hstep (.nil m'')
  | cons hfirst _ ih => exact .cons hfirst (ih hstep)

end Mark

/-! ## Marks over positions -/

section Positions

variable {n i : ℕ} {P : ℕ → Prop}

/-- Some position of the batch satisfies `P`. -/
def Has (P : ℕ → Prop) (t : ℕ × ℕ) : Prop := ∃ j, P j ∧ Holds t j

theorem Reaches.exists_holds {e : ℕ} {ts : List (ℕ × ℕ)} (h : Reaches n e ts) {j : ℕ} (he : e ≤ j)
    (hn : j < n) : ∃ t ∈ ts, Holds t j := by
  induction h with
  | done => omega
  | @next e a b ts ha _ ih =>
    rcases Nat.lt_or_ge j b with hj | hj
    · exact ⟨(a, b), List.mem_cons_self, by omega, hj⟩
    · obtain ⟨t, ht, hold⟩ := ih hj
      exact ⟨t, List.mem_cons_of_mem _ ht, hold⟩

theorem Reaches.concat {e a b : ℕ} {ts : List (ℕ × ℕ)} (h : Reaches n e ts) (ha : a ≤ n) :
    Reaches b e (ts ++ [(a, b)]) := by
  induction h with
  | done => exact .next ha .done
  | next hstart _ ih => exact .next hstart ih

/-- **Where batches are short, a far position is set later**: no batch holds both it and the one that
opens. -/
theorem Reaches.setLater_of_far {e j m : ℕ} {ts : List (ℕ × ℕ)} (h : Reaches n e ts) (he : e ≤ i)
    (hshort : ∀ t ∈ ts, t.2 ≤ t.1 + m) (hfar : i + m ≤ j) (hj : j < n) (hP : P j) :
    SetLater (Holds · i) (Has P) ts := by
  induction h with
  | done => omega
  | @next e a b ts ha hreach ih =>
    have hb : b ≤ a + m := hshort (a, b) List.mem_cons_self
    rw [setLater_cons]
    rcases Nat.lt_or_ge i b with hi | hi
    · obtain ⟨t, ht, hold⟩ := hreach.exists_holds (by omega : b ≤ j) hj
      exact .inl ⟨⟨Nat.le_trans ha he, hi⟩, t, ht, j, hP, hold⟩
    · exact .inr (ih hi fun t ht => hshort t (List.mem_cons_of_mem _ ht))

/-- **A present mark ends set if it is set or a batch to come sets it.**  A batch that opens it again
without setting it ends before every setting position, so these are still to come. -/
theorem MarkRun.of_some (hP : ∀ j, P j → i ≤ j ∧ j < n) {e : ℕ} {ts : List (ℕ × ℕ)}
    (hreach : Reaches n e ts) {b : Bool} (hb : b = true → ∃ j, P j) {m : Option Bool}
    (h : MarkRun (Holds · i) (Has P) (some b) ts m) :
    ∃ b', m = some b' ∧ (b' = true ↔ b = true ∨ ∃ t ∈ ts, Has P t) := by
  induction hreach generalizing b with
  | done =>
    cases h
    exact ⟨b, rfl, by simp⟩
  | @next e a c ts ha hreach ih =>
    obtain _ | ⟨⟨hset, hopen, hkeep⟩, hrun⟩ := h
    by_cases hs : Has P (a, c)
    · rw [hset hs] at hrun
      have hj : ∃ j, P j := hs.imp fun j hj => hj.1
      obtain ⟨b', rfl, hb'⟩ := ih (fun _ => hj) hrun
      exact ⟨b', rfl, by simp [hb', hs]⟩
    · by_cases ho : Holds (a, c) i
      · rw [hopen hs ho] at hrun
        obtain ⟨b', rfl, hb'⟩ := ih (by simp) hrun
        refine ⟨b', rfl, hb'.trans ?_⟩
        simp only [Bool.false_eq_true, false_or, List.mem_cons, exists_eq_or_imp, hs]
        refine ⟨.inr, ?_⟩
        rintro (hb₁ | hlater)
        · obtain ⟨j, hj⟩ := hb hb₁
          obtain ⟨hij, hjn⟩ := hP j hj
          have hcj : c ≤ j := by
            by_contra hlt
            exact hs ⟨j, hj, Nat.le_trans ho.1 hij, Nat.lt_of_not_le hlt⟩
          obtain ⟨t, ht, hold⟩ := hreach.exists_holds hcj hjn
          exact ⟨t, ht, j, hj, hold⟩
        · exact hlater
      · rw [hkeep hs ho] at hrun
        obtain ⟨b', rfl, hb'⟩ := ih hb hrun
        exact ⟨b', rfl, by simpa [hs] using hb'⟩

/-- **A mark that is not there yet ends present**, and set exactly when a batch sets it after one has
opened it. -/
theorem MarkRun.of_none (hP : ∀ j, P j → i ≤ j ∧ j < n) (hi : i < n) {e : ℕ} (he : e ≤ i)
    {ts : List (ℕ × ℕ)} (hreach : Reaches n e ts) {m : Option Bool}
    (h : MarkRun (Holds · i) (Has P) none ts m) :
    ∃ b, m = some b ∧ (b = true ↔ SetLater (Holds · i) (Has P) ts) := by
  induction hreach with
  | done => omega
  | @next e a c ts ha hreach ih =>
    obtain _ | ⟨⟨hopen, hnone⟩, hrun⟩ := h
    rw [setLater_cons]
    by_cases ho : Holds (a, c) i
    · rw [hopen ho] at hrun
      obtain ⟨b, rfl, hb⟩ := MarkRun.of_some hP hreach (by simp) hrun
      refine ⟨b, rfl, hb.trans ?_⟩
      simp only [Bool.false_eq_true, false_or, ho, true_and]
      refine ⟨.inl, ?_⟩
      rintro (h | ⟨l, t, r, rfl, hset, -⟩)
      · exact h
      · exact ⟨t, by simp, hset⟩
    · rw [hnone ho] at hrun
      have hci : c ≤ i := by
        by_contra hlt
        exact ho ⟨Nat.le_trans ha he, Nat.lt_of_not_le hlt⟩
      obtain ⟨b, rfl, hb⟩ := ih hci hrun
      exact ⟨b, rfl, by simpa [ho] using hb⟩

end Positions

end Bitspend.Batches
