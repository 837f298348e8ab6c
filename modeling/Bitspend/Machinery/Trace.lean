import Bitspend.Machinery.Op
import Mathlib.Computability.Language
import Mathlib.Order.CompletePartialOrder

/-!
# Machinery/Trace — what operations emit

A part of the state is a record that operations only add to.  What an operation may add is a language
(`Op.Emits`): it adds a word of it where it returns, and the beginning of a word where it fails.  The
rules go along the operation: a sequence multiplies the languages of its parts, a loop takes the star.
-/

namespace Bitspend

open Computability

variable {μ : Type}

/-! ## Beginnings of words -/

/-- **What the words of a language begin with.** -/
def begun (L : Language μ) : Language μ := {w | ∃ u, w ++ u ∈ L}

/-- The words of one letter with a property. -/
def letter (P : μ → Prop) : Language μ := {w | ∃ m, P m ∧ w = [m]}

section Begun

variable {L M : Language μ} {u w : List μ}

theorem mem_begun_of_mem (h : w ∈ L) : w ∈ begun L := ⟨[], by rwa [List.append_nil]⟩

theorem begun_mono (h : L ≤ M) : begun L ≤ begun M := by
  rintro w ⟨u, hu⟩
  exact ⟨u, h hu⟩

/-- A word, and then the beginning of another… -/
theorem append_mem_begun (hu : u ∈ L) (hw : w ∈ begun M) : u ++ w ∈ begun (L * M) := by
  obtain ⟨v, hv⟩ := hw
  refine ⟨v, ?_⟩
  rw [List.append_assoc]
  exact Language.append_mem_mul hu hv

/-- …or no other yet. -/
theorem mem_begun_mul (hw : w ∈ begun L) (hM : ∃ v, v ∈ M) : w ∈ begun (L * M) := by
  obtain ⟨u, hu⟩ := hw
  obtain ⟨v, hv⟩ := hM
  refine ⟨u ++ v, ?_⟩
  rw [← List.append_assoc]
  exact Language.append_mem_mul hu hv

end Begun

/-! ## Operations -/

namespace Op

variable {ε ε' σ τ α β : Type}

/-- **The operation adds words of the language** to the record: a whole one if it returns, the
beginning of one if it fails. -/
structure Emits (sent : σ → List μ) (x : Op ε σ α) (L : Language μ) : Prop where
  nonempty : ∃ w, w ∈ L
  adds : ∀ s, ∃ w, sent (x s).2 = sent s ++ w ∧ w ∈ begun L ∧ ∀ a, (x s).1 = .ok a → w ∈ L

namespace Emits

variable {sent : σ → List μ} {L M : Language μ}

theorem mono {x : Op ε σ α} (hx : Emits sent x L) (h : L ≤ M) : Emits sent x M := by
  obtain ⟨⟨w, hw⟩, hadds⟩ := hx
  refine ⟨⟨w, h hw⟩, fun s => ?_⟩
  obtain ⟨u, hu, hbegun, hok⟩ := hadds s
  exact ⟨u, hu, begun_mono h hbegun, fun a ha => h (hok a ha)⟩

/-- What leaves the record alone emits the empty word. -/
theorem silent {x : Op ε σ α} (hx : ∀ s, sent (x s).2 = sent s) : Emits sent x 1 := by
  refine ⟨⟨[], rfl⟩, fun s => ⟨[], ?_, ⟨[], rfl⟩, fun _ _ => rfl⟩⟩
  rw [List.append_nil, hx]

/-- What never returns emits anything that can be begun. -/
theorem fail {x : Outcome ε α} (hx : ∀ a, x ≠ .ok a) (hL : ∃ w, w ∈ L) :
    Emits sent (Op.lift x : Op ε σ α) L :=
  ⟨hL, fun s => ⟨[], (List.append_nil (sent s)).symm, hL, fun a ha => absurd ha (hx a)⟩⟩

/-- A choice adds. -/
theorem left {x : Op ε σ α} (hx : Emits sent x L) : Emits sent x (L + M) := hx.mono le_sup_left

theorem right {x : Op ε σ α} (hx : Emits sent x M) : Emits sent x (L + M) := hx.mono le_sup_right

/-- **A sequence multiplies.** -/
theorem bind [Nonempty α] {x : Op ε σ α} {f : α → Op ε σ β} (hx : Emits sent x L)
    (hf : ∀ a, Emits sent (f a) M) : Emits sent (x >>= f) (L * M) := by
  obtain ⟨⟨v, hv⟩, hxadds⟩ := hx
  obtain ⟨u, hu⟩ := (hf (Classical.arbitrary α)).nonempty
  refine ⟨⟨v ++ u, Language.append_mem_mul hv hu⟩, fun s => ?_⟩
  obtain ⟨w, hw, hbegun, hok⟩ := hxadds s
  rw [bind_apply]
  rcases hxs : x s with ⟨e | a, s'⟩
  · rw [hxs] at hw
    exact ⟨w, hw, mem_begun_mul hbegun ⟨u, hu⟩, fun b hb => by cases hb⟩
  · rw [hxs] at hw hok
    obtain ⟨w', hw', hbegun', hok'⟩ := (hf a).adds s'
    have hwL := hok a rfl
    refine ⟨w ++ w', ?_, append_mem_begun hwL hbegun', fun b hb =>
      Language.append_mem_mul hwL (hok' b hb)⟩
    rw [hw', hw, List.append_assoc]

/-- A silent first part… -/
theorem silent_bind [Nonempty α] {x : Op ε σ α} {f : α → Op ε σ β} (hx : Emits sent x 1)
    (hf : ∀ a, Emits sent (f a) L) : Emits sent (x >>= f) L := by
  have h := hx.bind hf
  rwa [one_mul] at h

/-- …or last part leaves the language as it is. -/
theorem bind_silent [Nonempty α] {x : Op ε σ α} {f : α → Op ε σ β} (hx : Emits sent x L)
    (hf : ∀ a, Emits sent (f a) 1) : Emits sent (x >>= f) L := by
  have h := hx.bind hf
  rwa [mul_one] at h

theorem zoom {get : σ → τ} {set : τ → σ → σ} {x : Op ε τ α} {sent' : τ → List μ}
    (hx : Emits sent' x L) (hget : ∀ s, sent s = sent' (get s))
    (hset : ∀ t s, sent (set t s) = sent' t) : Emits sent (Op.zoom get set x) L := by
  refine ⟨hx.nonempty, fun s => ?_⟩
  obtain ⟨w, hw, h⟩ := hx.adds (get s)
  exact ⟨w, (hset _ s).trans (hw.trans (congrArg (· ++ w) (hget s).symm)), h⟩

theorem mapErr {f : ε → ε'} {x : Op ε σ α} (hx : Emits sent x L) : Emits sent (Op.mapErr f x) L := by
  refine ⟨hx.nonempty, fun s => ?_⟩
  obtain ⟨w, hw, hbegun, hok⟩ := hx.adds s
  exact ⟨w, hw, hbegun, fun a ha => hok a (Outcome.mapErr_eq_ok.mp ha)⟩

theorem expectOk {msg : String} {x : Op ε σ α} (hx : Emits sent x L) :
    Emits sent (Op.expectOk msg x : Op ε' σ α) L := by
  refine ⟨hx.nonempty, fun s => ?_⟩
  obtain ⟨w, hw, hbegun, hok⟩ := hx.adds s
  exact ⟨w, hw, hbegun, fun a ha => hok a (Outcome.expectOk_eq_ok.mp ha)⟩

/-- **A loop takes the star**, over a list… -/
theorem forM {f : α → Op ε σ PUnit} {as : List α} (hf : ∀ a ∈ as, Emits sent (f a) L) :
    Emits sent (ForM.forM as f) L∗ := by
  induction as with
  | nil => exact (silent fun _ => rfl : Emits sent (Pure.pure PUnit.unit) 1).mono one_le_kstar
  | cons a as ih =>
    rw [List.forM_cons]
    refine Emits.mono ?_ mul_kstar_le_kstar
    exact (hf a List.mem_cons_self).bind fun _ => ih fun b hb => hf b (List.mem_cons_of_mem a hb)

/-- …or as long as its body goes on. -/
theorem loop [Nonempty α] {body : β → Op ε σ (β ⊕ α)} (hbody : ∀ b, Emits sent (body b) L) (n : ℕ)
    (b : β) : Emits sent (Op.loop body n b) L∗ := by
  induction n generalizing b with
  | zero => exact (silent fun _ => rfl : Emits sent (Op.lift _) 1).mono one_le_kstar
  | succ n ih =>
    refine Emits.mono ?_ mul_kstar_le_kstar
    refine (hbody b).bind ?_
    rintro (b' | a)
    · exact ih b'
    · exact (silent fun _ => rfl : Emits sent (Pure.pure a) 1).mono one_le_kstar

theorem loopOn [Nonempty α] {bound : σ → ℕ} {body : β → Op ε σ (β ⊕ α)}
    (hbody : ∀ b, Emits sent (body b) L) (b : β) : Emits sent (Op.loopOn bound body b) L∗ := by
  refine ⟨⟨[], Language.nil_mem_kstar L⟩, fun s => ?_⟩
  exact (loop hbody (bound s + 1) b).adds s

end Emits

end Op

end Bitspend
