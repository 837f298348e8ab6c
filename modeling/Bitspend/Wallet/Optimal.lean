import Bitspend.Wallet.RandomDraw

/-!
# Wallet/Optimal — branch and bound finds the best changeless selection

The search visits the selections depth first, inclusion before omission, and leaves a branch when
nothing below it can be in range or better than what it has.  `Ahead` says which full selections the
search has still to visit from where it stands; `Searched` that every selection in range is ahead or
is matched by the best one so far.  When the search ends nothing is ahead, so the best selection is
the best there is.
-/

namespace Bitspend.Wallet

variable {ε : Type}

/-! ## Full selections -/

theorem pick_append (ogs : List OutputGroup) (bs bs' : List Bool) :
    pick ogs (bs ++ bs') = pick ogs bs ++ pick (ogs.drop bs.length) bs' := by
  induction bs generalizing ogs with
  | nil => simp [pick_nil]
  | cons b bs ih =>
    rcases ogs with _ | ⟨og, ogs⟩
    · simp [pick]
    · rw [List.cons_append, pick_cons, ih, pick_cons, List.append_assoc, List.length_cons,
        List.drop_succ_cons]

/-- Some of the coins are the coins a full selection marks. -/
theorem exists_marks {ogs S : List OutputGroup} (h : S.Sublist ogs) :
    ∃ m : List Bool, m.length = ogs.length ∧ pick ogs m = S := by
  induction h with
  | slnil => exact ⟨[], rfl, rfl⟩
  | cons og _ ih =>
    obtain ⟨m, hlen, hpick⟩ := ih
    exact ⟨false :: m, congrArg Nat.succ hlen, by rw [pick_cons, hpick]; rfl⟩
  | cons_cons og _ ih =>
    obtain ⟨m, hlen, hpick⟩ := ih
    exact ⟨true :: m, congrArg Nat.succ hlen, by rw [pick_cons, hpick]; rfl⟩

/-- **Below a node** of the search the value lies between what is marked and that with all that is
undecided. -/
theorem eff_pick_mem {ogs : List OutputGroup} (hpos : ∀ og ∈ ogs, 0 ≤ og.effectiveValue)
    {selection m : List Bool} (h : selection.reverse <+: m) :
    marked ogs selection ≤ eff (pick ogs m)
      ∧ eff (pick ogs m) ≤ marked ogs selection + undecided ogs selection.length := by
  obtain ⟨rest, rfl⟩ := h
  rw [pick_append, eff_append, List.length_reverse, marked, undecided]
  have hdrop : ∀ og ∈ ogs.drop selection.length, 0 ≤ og.effectiveValue :=
    fun og hog => hpos og (List.mem_of_mem_drop hog)
  have hsub := pick_sublist (ogs.drop selection.length) rest
  have hnonneg := eff_nonneg fun og hog => hdrop og (hsub.subset hog)
  have hle := eff_le_of_sublist hdrop hsub
  constructor
  · omega
  · omega

/-! ## What lies ahead -/

/-- **A full selection the search has still to visit**: one below the node it stands at, or one that
omits a coin now included and agrees before it. -/
def Ahead (selection m : List Bool) : Prop :=
  selection.reverse <+: m ∨ ∃ pre, (true :: pre) <:+ selection ∧ (pre.reverse ++ [false]) <+: m

theorem ahead_nil (m : List Bool) : Ahead [] m := .inl List.nil_prefix

/-- Going forward leaves behind nothing that was ahead. -/
theorem Ahead.push {selection m : List Bool} (h : Ahead selection m)
    (hlt : selection.length < m.length) : Ahead (true :: selection) m := by
  rcases h with ⟨rest, rfl⟩ | ⟨pre, hsuff, hpre⟩
  · rcases rest with _ | ⟨b, rest⟩
    · simp at hlt
    · cases b with
      | true => exact .inl ⟨rest, by simp⟩
      | false => exact .inr ⟨selection, List.suffix_rfl, ⟨rest, by simp⟩⟩
  · exact .inr ⟨pre, hsuff.trans (List.suffix_cons _ _), hpre⟩

/-- A mark that is `true` under some that are `false`. -/
theorem suffix_of_suffix_falses {pre selection : List Bool} {k : ℕ}
    (h : (true :: pre) <:+ List.replicate k false ++ selection) : (true :: pre) <:+ selection := by
  induction k with
  | zero => simpa using h
  | succ k ih =>
    rw [List.replicate_succ, List.cons_append] at h
    rcases List.suffix_cons_iff.mp h with heq | hsuff
    · cases heq
    · exact ih hsuff

/-- **Flipping the last inclusion** leaves behind only what was below the node. -/
theorem Ahead.flip {k : ℕ} {selection m : List Bool}
    (h : Ahead (List.replicate k false ++ true :: selection) m)
    (hbelow : ¬(List.replicate k false ++ true :: selection).reverse <+: m) :
    Ahead (false :: selection) m := by
  obtain ⟨pre, hsuff, hpre⟩ := h.resolve_left hbelow
  rcases List.suffix_cons_iff.mp (suffix_of_suffix_falses hsuff) with heq | hsuff
  · cases heq
    exact .inl (by rwa [List.reverse_cons])
  · exact .inr ⟨pre, hsuff.trans (List.suffix_cons _ _), hpre⟩

/-- With every coin omitted, only what is below the node is ahead. -/
theorem Ahead.below {k : ℕ} {m : List Bool} (h : Ahead (List.replicate k false) m) :
    (List.replicate k false).reverse <+: m := by
  rcases h with h | ⟨pre, hsuff, -⟩
  · exact h
  · rw [← List.append_nil (List.replicate k false)] at hsuff
    have := suffix_of_suffix_falses hsuff
    simp at this

/-! ## The invariant -/

/-- A value in the range that needs no change. -/
def InTarget (targetAmount costOfChange v : ℤ) : Prop :=
  targetAmount ≤ v ∧ v ≤ targetAmount + costOfChange

/-- The best selection is at least as good as a value. -/
def BnbState.Beats (s : BnbState) (v : ℤ) : Prop := ∃ best, s.bestSelectionValue = some best ∧ best ≤ v

/-- **Every selection in range is ahead, or no better than the best one.** -/
def Searched (ogs : List OutputGroup) (base targetAmount costOfChange : ℤ) (s : BnbState) : Prop :=
  ∀ m : List Bool, m.length = ogs.length →
    InTarget targetAmount costOfChange (base + eff (pick ogs m)) →
      s.Beats (base + eff (pick ogs m)) ∨ Ahead s.currentSelection m

/-- **No selection in range is better than the best one.** -/
def Found (ogs : List OutputGroup) (base targetAmount costOfChange : ℤ) (s : BnbState) : Prop :=
  ∀ m : List Bool, m.length = ogs.length →
    InTarget targetAmount costOfChange (base + eff (pick ogs m)) →
      s.Beats (base + eff (pick ogs m))

section Search

variable {ogs : List OutputGroup} {base targetAmount costOfChange : ℤ} {s : BnbState}

theorem searched_init (ogs : List OutputGroup) (base targetAmount costOfChange : ℤ) :
    Searched ogs base targetAmount costOfChange
      { currentSelection := [], currValue := base, currAvailableValue := eff ogs
        bestSelection := [], bestSelectionValue := none } :=
  fun m _ _ => .inr (ahead_nil m)

/-- Keeping the current selection as the best one forgets no better one… -/
theorem BnbState.Beats.keepBest {v : ℤ} (h : s.Beats v) : s.keepBest.Beats v := by
  obtain ⟨best, hbest, hle⟩ := h
  rw [BnbState.keepBest, hbest, Option.all_some]
  split
  · rename_i hlt
    exact ⟨_, rfl, (of_decide_eq_true hlt).le.trans hle⟩
  · exact ⟨best, hbest, hle⟩

/-- …and leaves one no worse than the current value. -/
theorem BnbState.beats_keepBest (s : BnbState) {v : ℤ} (hv : s.currValue ≤ v) : s.keepBest.Beats v := by
  unfold BnbState.keepBest
  rcases hbest : s.bestSelectionValue with _ | best
  · exact ⟨_, rfl, hv⟩
  · rw [Option.all_some]
    split
    · exact ⟨_, rfl, hv⟩
    · rename_i hge
      exact ⟨best, hbest, (not_lt.mp (of_decide_eq_false (Bool.eq_false_iff.mpr hge))).trans hv⟩

@[simp] theorem BnbState.keepBest_currentSelection (s : BnbState) :
    s.keepBest.currentSelection = s.currentSelection := by
  unfold BnbState.keepBest
  split
  · rfl
  · rfl

/-- A state out of range cannot reach the target, or is past it by more than the cost of change. -/
theorem of_outOfRange_eq_true
    (h : (outOfRange targetAmount costOfChange s : Outcome ε Bool) = .ok true) :
    s.currValue + s.currAvailableValue < targetAmount
      ∨ targetAmount + costOfChange < s.currValue := by
  obtain ⟨reach, hreach, h⟩ := Outcome.bind_eq_ok.mp h
  obtain ⟨-, rfl⟩ := SignedAmount.add_eq_ok.mp hreach
  split at h
  · rename_i hlt
    exact .inl hlt
  · obtain ⟨highest, hhigh, h⟩ := Outcome.bind_eq_ok.mp h
    obtain ⟨-, rfl⟩ := SignedAmount.add_eq_ok.mp hhigh
    exact .inr (of_decide_eq_true (Except.ok.inj h))

theorem walkBack_falses {selection : List Bool} {available : ℤ} {p : List Bool × ℤ}
    (h : (walkBack ogs selection available : Outcome ε _) = .ok p) :
    ∃ k, selection = List.replicate k false ++ p.1 := by
  induction selection generalizing available with
  | nil =>
    cases h
    exact ⟨0, rfl⟩
  | cons b selection ih =>
    cases b with
    | true =>
      cases h
      exact ⟨0, rfl⟩
    | false =>
      rw [walkBack] at h
      obtain ⟨og, -, h⟩ := Outcome.bind_eq_ok.mp h
      obtain ⟨a, -, h⟩ := Outcome.bind_eq_ok.mp h
      obtain ⟨k, hk⟩ := ih h
      exact ⟨k + 1, by rw [hk, List.replicate_succ, List.cons_append]⟩

theorem errless_add (a b : ℤ) : (SignedAmount.add a b : Outcome ε ℤ).Errless := by
  unfold SignedAmount.add
  split
  · exact .ok _
  · exact .panic _

theorem errless_sub (a b : ℤ) : (SignedAmount.sub a b : Outcome ε ℤ).Errless := by
  unfold SignedAmount.sub
  split
  · exact .ok _
  · exact .panic _

theorem errless_walkBack (ogs : List OutputGroup) (selection : List Bool) (available : ℤ) :
    (walkBack ogs selection available : Outcome ε _).Errless := by
  induction selection generalizing available with
  | nil => exact .ok _
  | cons b selection ih =>
    cases b with
    | true => exact .ok _
    | false => exact .bind (.expect _ _) fun _ => .bind (errless_add _ _) fun _ => ih _

theorem errless_outOfRange (targetAmount costOfChange : ℤ) (s : BnbState) :
    (outOfRange targetAmount costOfChange s : Outcome ε Bool).Errless := by
  refine .bind (errless_add _ _) fun _ => ?_
  split
  · exact .ok _
  · exact .bind (errless_add _ _) fun _ => .ok _

/-- **What a pass may end with**: a state that has searched so far, one that has found the best, or an
error where the best selection is empty. -/
def PassSound (ogs : List OutputGroup) (base targetAmount costOfChange : ℤ) :
    Outcome BnbError BnbFlow → Prop
  | .ok (.next s) => Searched ogs base targetAmount costOfChange s
  | .ok (.stop s) => Found ogs base targetAmount costOfChange s
  | .error (.error _) => ∃ s, BnbInv ogs base targetAmount costOfChange s
    ∧ Found ogs base targetAmount costOfChange s ∧ s.bestSelection = []
  | .error (.panic _) => True

theorem PassSound.bind {α : Type} {x : Outcome BnbError α} {f : α → Outcome BnbError BnbFlow}
    (hx : x.Errless) (hf : ∀ a, x = .ok a → PassSound ogs base targetAmount costOfChange (f a)) :
    PassSound ogs base targetAmount costOfChange (x >>= f) := by
  rcases x with (e | msg) | a
  · exact absurd rfl (hx e)
  · trivial
  · exact hf a rfl

/-- **Backtracking is sound** once nothing below the node is better than the best selection. -/
theorem backtrack_sound (hinv : BnbInv ogs base targetAmount costOfChange s)
    (hs : Searched ogs base targetAmount costOfChange s)
    (hbelow : ∀ m : List Bool, InTarget targetAmount costOfChange (base + eff (pick ogs m)) →
      s.currentSelection.reverse <+: m → s.Beats (base + eff (pick ogs m))) :
    PassSound ogs base targetAmount costOfChange (backtrack ogs s) := by
  refine .bind (errless_walkBack _ _ _) fun ⟨selection, available⟩ hwalk => ?_
  obtain ⟨k, hk⟩ := walkBack_falses hwalk
  have hhead := (walkBack_eq_ok hwalk hinv.length_le hinv.available_eq).2.2.2
  dsimp only at hk hhead ⊢
  rcases selection with _ | ⟨b, selection⟩
  · -- no inclusion is left to flip, so whatever was ahead was below the node
    have hfound : Found ogs base targetAmount costOfChange s := by
      intro m hlen hin
      rcases hs m hlen hin with h | h
      · exact h
      · rw [hk, List.append_nil] at h
        exact hbelow m hin (by rw [hk, List.append_nil]; exact h.below)
    change PassSound _ _ _ _ (if s.bestSelection.isEmpty = true then _ else _)
    by_cases hempty : s.bestSelection.isEmpty = true
    · rw [if_pos hempty]
      exact ⟨s, hinv, hfound, List.isEmpty_iff.mp hempty⟩
    · rw [if_neg hempty]
      exact hfound
  · obtain rfl : b = true := by simpa using hhead
    refine .bind (.expect _ _) fun og _ => .bind (errless_sub _ _) fun v _ => ?_
    intro m hlen hin
    rcases hs m hlen hin with h | h
    · exact .inl h
    · by_cases hm : s.currentSelection.reverse <+: m
      · exact .inl (hbelow m hin hm)
      · rw [hk] at h hm
        exact .inr (h.flip hm)

theorem forward_sound (hs : Searched ogs base targetAmount costOfChange s) :
    PassSound ogs base targetAmount costOfChange (forward ogs s) := by
  refine .bind (.expect _ _) fun og hog => .bind (errless_sub _ _) fun a _ => ?_
  refine .bind (errless_add _ _) fun v _ => ?_
  obtain ⟨hlt, -⟩ := List.getElem?_eq_some_iff.mp (Outcome.expect_eq_ok.mp hog)
  intro m hlen hin
  exact (hs m hlen hin).imp id fun h => h.push (hlen ▸ hlt)

/-- **A pass is sound**: a branch is only left when nothing in it is in range, or nothing in it is
better than the node itself. -/
theorem bnbStep_sound (hpos : ∀ og ∈ ogs, 0 ≤ og.effectiveValue)
    (hinv : BnbInv ogs base targetAmount costOfChange s)
    (hs : Searched ogs base targetAmount costOfChange s) :
    PassSound ogs base targetAmount costOfChange (bnbStep ogs targetAmount costOfChange s) := by
  refine .bind (errless_outOfRange _ _ _) fun out hout => ?_
  have hvalue := hinv.value_eq
  have havailable := hinv.available_eq
  cases out with
  | true =>
    refine backtrack_sound hinv hs fun m hin hm => ?_
    obtain ⟨hlow, hhigh⟩ := eff_pick_mem hpos hm
    obtain ⟨hlow', hhigh'⟩ := hin
    have hno : s.currValue + s.currAvailableValue < targetAmount
        ∨ targetAmount + costOfChange < s.currValue := of_outOfRange_eq_true hout
    omega
  | false =>
    have hhigh := le_of_outOfRange_eq_false hout
    simp only [Bool.false_eq_true, if_false]
    split
    · rename_i hlow
      -- whatever is below the node is worth at least as much
      have hbelow : ∀ m : List Bool, s.currentSelection.reverse <+: m →
          s.keepBest.Beats (base + eff (pick ogs m)) := by
        intro m hm
        refine s.beats_keepBest ?_
        rw [hvalue]
        exact add_le_add_right (eff_pick_mem hpos hm).1 base
      split
      · rename_i heq
        intro m hlen hin
        refine s.beats_keepBest ?_
        rw [heq]
        exact hin.1
      · refine backtrack_sound (hinv.keepBest hlow hhigh) ?_ ?_
        · intro m hlen hin
          rw [BnbState.keepBest_currentSelection]
          exact (hs m hlen hin).imp BnbState.Beats.keepBest id
        · intro m hin hm
          rw [BnbState.keepBest_currentSelection] at hm
          exact hbelow m hm
    · exact forward_sound hs

/-! ## The whole search -/

/-- **The loop ends within its passes**: by a `break` or an error of its own, not by running out of
passes and not by a panic. -/
def EndsWithin (ogs : List OutputGroup) (targetAmount costOfChange : ℤ) : ℕ → BnbState → Prop
  | 0, _ => False
  | tries + 1, s =>
    match bnbStep ogs targetAmount costOfChange s with
    | .ok (.next s') => EndsWithin ogs targetAmount costOfChange tries s'
    | .ok (.stop _) => True
    | .error (.error _) => True
    | .error (.panic _) => False

/-- **A loop that ends has found the best**, or fails with the best selection empty. -/
theorem bnbLoop_found (hpos : ∀ og ∈ ogs, 0 ≤ og.effectiveValue)
    (hinv : BnbInv ogs base targetAmount costOfChange s)
    (hs : Searched ogs base targetAmount costOfChange s) {tries : ℕ}
    (hends : EndsWithin ogs targetAmount costOfChange tries s) :
    ∃ s', BnbInv ogs base targetAmount costOfChange s'
      ∧ Found ogs base targetAmount costOfChange s'
      ∧ (bnbLoop ogs targetAmount costOfChange tries s = .ok s'
        ∨ s'.bestSelection = []
          ∧ ∃ e, bnbLoop ogs targetAmount costOfChange tries s = .error (.error e)) := by
  induction tries generalizing s with
  | zero => exact hends.elim
  | succ tries ih =>
    have hsound := bnbStep_sound hpos hinv hs
    rw [EndsWithin] at hends
    rw [bnbLoop]
    rcases hstep : bnbStep ogs targetAmount costOfChange s with (e | msg) | (s' | s')
    · rw [hstep] at hsound
      obtain ⟨s', hinv', hfound, hempty⟩ := hsound
      exact ⟨s', hinv', hfound, .inr ⟨hempty, e, rfl⟩⟩
    · rw [hstep] at hends
      exact hends.elim
    · rw [hstep] at hsound hends
      exact ih (hinv.step hstep) hsound hends
    · rw [hstep] at hsound
      exact ⟨s', hinv.step hstep, hsound, .inl rfl⟩

/-- Below the target, an empty best selection is none at all. -/
theorem BnbInv.best_none_of_lt (hinv : BnbInv ogs base targetAmount costOfChange s)
    (hlt : base < targetAmount) (hempty : s.bestSelection = []) : s.bestSelectionValue = none := by
  rcases hbest : s.bestSelectionValue with _ | v
  · rfl
  · obtain ⟨hv, hlow, -⟩ := hinv.best_some v hbest
    rw [hempty, marked_nil] at hv
    omega

end Search

/-! ## Branch and bound -/

section Bnb

variable {costs : SpendCosts} {feeRate : FeeRate} {sorter : SortUnstable OutputGroup.effectiveValue}
  {required optional : List OutputGroup} {base targetAmount costOfChange : ℤ} {drainScript : Script}

/-- **The search of `bnb` ends before its budget runs out.** -/
def SearchEnds (sorter : SortUnstable OutputGroup.effectiveValue) (optional : List OutputGroup)
    (base targetAmount costOfChange : ℤ) : Prop :=
  EndsWithin (searchOrder sorter optional) targetAmount costOfChange BNB_TOTAL_TRIES
    (searchStart base (eff optional))

/-- **Some coins whose value is in the range that needs no change.** -/
def Changeless (optional : List OutputGroup) (base targetAmount costOfChange : ℤ)
    (S : List OutputGroup) : Prop :=
  S.Subperm optional ∧ InTarget targetAmount costOfChange (base + eff S)

/-- What the search has found is no worse than any changeless coins. -/
theorem Found.beats {s : BnbState}
    (h : Found (searchOrder sorter optional) base targetAmount costOfChange s)
    {S : List OutputGroup} (hS : Changeless optional base targetAmount costOfChange S) :
    s.Beats (base + eff S) := by
  obtain ⟨S', hperm, hsub⟩ := hS.1.trans (searchOrder_perm sorter optional).symm.subperm
  obtain ⟨m, hlen, rfl⟩ := exists_marks hsub
  have hin := hS.2
  rw [← eff_perm hperm] at hin ⊢
  exact h m hlen hin

/-- The search from its start. -/
theorem search_found (hpos : ∀ og ∈ optional, 0 ≤ og.effectiveValue)
    (hends : SearchEnds sorter optional base targetAmount costOfChange) :
    ∃ s, BnbInv (searchOrder sorter optional) base targetAmount costOfChange s
      ∧ Found (searchOrder sorter optional) base targetAmount costOfChange s
      ∧ (bnbLoop (searchOrder sorter optional) targetAmount costOfChange BNB_TOTAL_TRIES
          (searchStart base (eff optional)) = .ok s
        ∨ s.bestSelection = [] ∧ ∃ e, bnbLoop (searchOrder sorter optional) targetAmount
          costOfChange BNB_TOTAL_TRIES (searchStart base (eff optional)) = .error (.error e)) := by
  have hperm := searchOrder_perm sorter optional
  have hs := searched_init (searchOrder sorter optional) base targetAmount costOfChange
  rw [eff_perm hperm] at hs
  exact bnbLoop_found (fun og hog => hpos og (hperm.mem_iff.mp hog)) (.start _ _ _ _ _) hs hends

/-- **Branch and bound, below the target**: it answers with the changeless coins of the least value,
or there are none and it fails. -/
theorem bnb_optimal (hpos : ∀ og ∈ optional, 0 ≤ og.effectiveValue) (hlt : base < targetAmount)
    (hcost : costOfChange < 2 ^ 63) (hlen : (serializedLen drainScript + 8) * 4 < 2 ^ 64)
    (hends : SearchEnds sorter optional base targetAmount costOfChange) :
    (∃ picked excess, bnb costs sorter required optional base (eff optional) targetAmount
          costOfChange drainScript feeRate = .ok (calculateCsResult picked required excess)
        ∧ Changeless optional base targetAmount costOfChange picked
        ∧ ∀ S, Changeless optional base targetAmount costOfChange S → eff picked ≤ eff S)
      ∨ ((∃ e, bnb costs sorter required optional base (eff optional) targetAmount costOfChange
          drainScript feeRate = .error (.error e))
        ∧ ∀ S, ¬Changeless optional base targetAmount costOfChange S) := by
  obtain ⟨s, hinv, hfound, hend⟩ := search_found hpos hends
  have hno : s.bestSelection = [] → ∀ S, ¬Changeless optional base targetAmount costOfChange S := by
    intro hempty S hS
    obtain ⟨best, hbest, -⟩ := hfound.beats hS
    rw [hinv.best_none_of_lt hlt hempty] at hbest
    cases hbest
  rcases hend with hok | ⟨hempty, e, herr⟩
  · by_cases hempty : s.bestSelection = []
    · exact .inr ⟨⟨_, bnb_of_loop_nil hok hempty⟩, hno hempty⟩
    · obtain ⟨v, hv, hbnb⟩ := bnb_of_loop hlen hcost hok hempty
      obtain ⟨hval, hlow, hhigh⟩ := hinv.best_some v hv
      refine .inl ⟨_, _, hbnb, ⟨?_, ?_⟩, fun S hS => ?_⟩
      · exact (pick_sublist _ _).subperm.trans (searchOrder_perm sorter optional).subperm
      · rw [← marked, ← hval]
        exact ⟨hlow, hhigh⟩
      · obtain ⟨best, hbest, hle⟩ := hfound.beats hS
        rw [hv] at hbest
        cases hbest
        rw [hval] at hle
        exact le_of_add_le_add_left hle
  · exact .inr ⟨⟨e, bnb_of_loop_error herr⟩, hno hempty⟩

/-- A first pass at the target stops with nothing selected. -/
theorem bnbStep_of_inRange {ogs : List OutputGroup} {available : ℤ}
    (hout : (outOfRange targetAmount costOfChange (searchStart targetAmount available) :
      Outcome BnbError Bool) = .ok false) :
    bnbStep ogs targetAmount costOfChange (searchStart targetAmount available)
      = .ok (.stop (searchStart targetAmount available).keepBest) := by
  rw [bnbStep, hout, Outcome.ok_bind, if_neg Bool.false_ne_true,
    if_pos (show targetAmount ≤ (searchStart targetAmount available).currValue from le_rfl),
    if_pos (show (searchStart targetAmount available).currValue = targetAmount from rfl)]
  rfl

/-- The first pass of a search that ends is one. -/
theorem bnbStep_of_eq {ogs : List OutputGroup} {available : ℤ} (havailable : 0 ≤ available)
    (hcost : 0 ≤ costOfChange) {tries : ℕ}
    (hends : EndsWithin ogs targetAmount costOfChange (tries + 1)
      (searchStart targetAmount available)) :
    bnbStep ogs targetAmount costOfChange (searchStart targetAmount available)
      = .ok (.stop (searchStart targetAmount available).keepBest) := by
  rw [EndsWithin, bnbStep] at hends
  rcases hout : (outOfRange targetAmount costOfChange (searchStart targetAmount available) :
      Outcome BnbError Bool) with (e | msg) | b
  · exact absurd hout (errless_outOfRange _ _ _ e)
  · rw [hout] at hends
    exact hends.elim
  · cases b with
    | true =>
      have hno : targetAmount + available < targetAmount
          ∨ targetAmount + costOfChange < targetAmount := of_outOfRange_eq_true hout
      omega
    | false => exact bnbStep_of_inRange hout

/-- **Branch and bound, at the target**: the empty selection is the best, and is taken for none. -/
theorem bnb_of_eq (hpos : ∀ og ∈ optional, 0 ≤ og.effectiveValue) (hcost : 0 ≤ costOfChange)
    (hends : SearchEnds sorter optional targetAmount targetAmount costOfChange) :
    bnb costs sorter required optional targetAmount (eff optional) targetAmount costOfChange
      drainScript feeRate = .error (.error .totalTriesExceeded) := by
  have hends' : EndsWithin (searchOrder sorter optional) targetAmount costOfChange (99999 + 1)
      (searchStart targetAmount (eff optional)) := hends
  have hstep := bnbStep_of_eq (eff_nonneg hpos) hcost hends'
  have hloop : bnbLoop (searchOrder sorter optional) targetAmount costOfChange BNB_TOTAL_TRIES
      (searchStart targetAmount (eff optional))
        = .ok (searchStart targetAmount (eff optional)).keepBest := by
    rw [show BNB_TOTAL_TRIES = 99999 + 1 from rfl, bnbLoop, hstep]
    rfl
  exact bnb_of_loop_nil hloop rfl

end Bnb

/-! ## Coin selection -/

section CoinSelect

variable {costs : SpendCosts} {feeRate : FeeRate} {required optional : List WeightedUtxo}

/-- The weights of the groups that were made. -/
theorem weight_lt_of_mapM_new {ws : List WeightedUtxo} {ogs : List OutputGroup}
    (h : ws.mapM (OutputGroup.new costs feeRate : WeightedUtxo → Outcome ε OutputGroup) = .ok ogs) :
    ∀ w ∈ ws, costs.segwitWeight + w.satisfactionWeight < 2 ^ 64 := by
  intro w hw
  obtain ⟨og, -, hog⟩ := Outcome.exists_right_of_forall₂ (Outcome.forall₂_of_mapM_eq_ok h) hw
  obtain ⟨fee, hfee, -⟩ := Outcome.bind_eq_ok.mp hog
  obtain ⟨weight, hweight, -⟩ := Outcome.bind_eq_ok.mp hfee
  exact (Weight.checkedAdd_eq_some.mp (Outcome.expect_eq_ok.mp hweight)).1

/-- **Required coins that hit the target exactly** are what the random draw answers with. -/
theorem singleRandomDraw_of_eq {targetAmount : ℕ} {drainScript : Script}
    (hlen : (serializedLen drainScript + 8) * 4 < 2 ^ 64)
    (hweight : ∀ w ∈ required, costs.segwitWeight + w.satisfactionWeight < 2 ^ 64)
    (hfits : valueOf required < 2 ^ 64)
    (heq : eff (required.map (groupOf costs feeRate)) = targetAmount) (rand : Rng) :
    ∃ r, SingleRandomDraw.coinSelect costs required optional feeRate targetAmount drainScript rand
        = .ok r ∧ r.selected = required.map WeightedUtxo.utxo := by
  rw [eff_map_groupOf] at heq
  have hnil : drawn required optional rand 0 = required := by
    rw [drawn, List.take_zero, List.append_nil]
  have hdraw : ∃ r, SingleRandomDraw.coinSelect costs required optional feeRate targetAmount
      drainScript rand = .ok r
        ∧ r.selected = (drawn required optional rand 0).map WeightedUtxo.utxo := by
    refine singleRandomDraw_of_isLeast hlen ⟨?_, fun j _ => Nat.zero_le j⟩ ?_
    · change Sufficient costs feeRate targetAmount (drawn required optional rand 0)
      rw [hnil, Sufficient]
      omega
    · rw [hnil]
      exact ⟨hweight, hfits, by omega⟩
  rwa [hnil] at hdraw

/-- The distances of changeless coins from the target. -/
def Distances (optional : List OutputGroup) (base targetAmount costOfChange : ℤ) : Set ℤ :=
  {d | ∃ S, Changeless optional base targetAmount costOfChange S ∧ d = base + eff S - targetAmount}

/-- Coins chosen from a pool are worth no more than all of it, and something. -/
theorem eff_mem_of_subperm {pool S : List OutputGroup} (hpos : ∀ og ∈ pool, 0 ≤ og.effectiveValue)
    (h : S.Subperm pool) : 0 ≤ eff S ∧ eff S ≤ eff pool := by
  obtain ⟨S', hperm, hsub⟩ := h
  rw [← eff_perm hperm]
  exact ⟨eff_nonneg fun og hog => hpos og (hsub.subset hog), eff_le_of_sublist hpos hsub⟩

/-- At the target or past it, no coins at all are the nearest. -/
theorem isLeast_distances_of_le {pool S : List OutputGroup} {base targetAmount costOfChange : ℤ}
    (hpos : ∀ og ∈ pool, 0 ≤ og.effectiveValue)
    (hS : Changeless pool base targetAmount costOfChange S) (hle : targetAmount ≤ base) :
    IsLeast (Distances pool base targetAmount costOfChange) (base - targetAmount) := by
  have hmem := eff_mem_of_subperm hpos hS.1
  obtain ⟨-, hlow, hhigh⟩ := hS
  constructor
  · refine ⟨[], ⟨List.nil_subperm, ?_, ?_⟩, ?_⟩
    · rw [eff_nil]
      omega
    · rw [eff_nil]
      omega
    · rw [eff_nil, add_zero]
  · rintro d ⟨S', hS', rfl⟩
    have := (eff_mem_of_subperm hpos hS'.1).1
    omega

section Pool

variable {sorter : SortUnstable OutputGroup.effectiveValue} {targetAmount costOfChange : ℤ}
  {drainScript : Script}

/-- Where some coins need no change, branch and bound answers with the nearest to the target… -/
theorem bnb_isLeast (hlt : baseOf costs feeRate required < targetAmount)
    (hcost : costOfChange < 2 ^ 63) (hlen : (serializedLen drainScript + 8) * 4 < 2 ^ 64)
    (hends : SearchEnds sorter (poolOf costs feeRate optional) (baseOf costs feeRate required)
      targetAmount costOfChange) {S : List OutputGroup}
    (hS : Changeless (poolOf costs feeRate optional) (baseOf costs feeRate required) targetAmount
      costOfChange S) :
    ∃ chosen e, bnb costs sorter (required.map (groupOf costs feeRate))
        (poolOf costs feeRate optional) (baseOf costs feeRate required)
        (eff (poolOf costs feeRate optional)) targetAmount costOfChange drainScript feeRate
      = .ok (calculateCsResult (chosen.map (groupOf costs feeRate))
        (required.map (groupOf costs feeRate)) e)
      ∧ chosen.Subperm (candidates costs feeRate optional)
      ∧ IsLeast (Distances (poolOf costs feeRate optional) (baseOf costs feeRate required) targetAmount
          costOfChange)
        (eff ((chosen ++ required).map (groupOf costs feeRate)) - targetAmount) := by
  obtain ⟨picked, e, hok, hpicked, hleast⟩ | ⟨-, hno⟩ :=
    bnb_optimal (nonneg_of_mem_poolOf costs feeRate optional) hlt hcost hlen hends
  · obtain ⟨chosen, hchosen, rfl⟩ := exists_coins_of_subperm hpicked.1
    have hsum : eff ((chosen ++ required).map (groupOf costs feeRate))
        = eff (chosen.map (groupOf costs feeRate)) + baseOf costs feeRate required := by
      rw [List.map_append, eff_append]
    refine ⟨chosen, e, hok, hchosen, ?_⟩
    rw [hsum]
    constructor
    · exact ⟨chosen.map (groupOf costs feeRate), hpicked, by omega⟩
    · rintro d ⟨S', hS', rfl⟩
      have := hleast S' hS'
      omega
  · exact absurd hS (hno S)

/-- …and where none do it fails. -/
theorem bnb_error_of_not (hle : baseOf costs feeRate required ≤ targetAmount)
    (hnonneg : 0 ≤ costOfChange) (hcost : costOfChange < 2 ^ 63)
    (hlen : (serializedLen drainScript + 8) * 4 < 2 ^ 64)
    (hends : SearchEnds sorter (poolOf costs feeRate optional) (baseOf costs feeRate required)
      targetAmount costOfChange)
    (hno : ∀ S, ¬Changeless (poolOf costs feeRate optional) (baseOf costs feeRate required)
      targetAmount costOfChange S) :
    ∃ e, bnb costs sorter (required.map (groupOf costs feeRate)) (poolOf costs feeRate optional)
      (baseOf costs feeRate required) (eff (poolOf costs feeRate optional)) targetAmount costOfChange
      drainScript feeRate = .error (.error e) := by
  have hlt : baseOf costs feeRate required < targetAmount := by
    refine lt_of_le_of_ne hle fun heq => hno [] ⟨List.nil_subperm, ?_⟩
    rw [eff_nil, add_zero]
    exact ⟨heq.ge, heq.le.trans (le_add_of_nonneg_right hnonneg)⟩
  obtain ⟨picked, e, -, hpicked, -⟩ | ⟨herr, -⟩ :=
    bnb_optimal (nonneg_of_mem_poolOf costs feeRate optional) hlt hcost hlen hends
  · exact absurd hpicked (hno picked)
  · exact herr

end Pool

/-- **Coin selection reaches its search with exact fees**: besides what it checks on its way, the
fee rate times the weight of every coin, of the change it asks for and of the drain output fits a
`u64`, whose plain product checks nothing. -/
structure ReachesExactly (costs : SpendCosts) (sizeOfChange : ℕ) (feeRate : FeeRate)
    (required optional : List WeightedUtxo) (drainScript : Script) : Prop
    extends Reaches costs sizeOfChange feeRate required optional where
  coins_lt : ∀ w ∈ required ++ optional,
    feeRate.Multiplies (costs.segwitWeight + w.satisfactionWeight)
  change_lt : feeRate.Multiplies (sizeOfChange * 4)
  drain_lt : feeRate.Multiplies ((serializedLen drainScript + 8) * 4)

theorem WithinSupply.reachesExactly {sizeOfChange : ℕ} {drainScript : Script}
    (h : WithinSupply costs feeRate (required ++ optional)) (hsize : sizeOfChange * 4 < 2 ^ 64)
    (hchange : feeRate.Multiplies (sizeOfChange * 4))
    (hdrain : feeRate.Multiplies ((serializedLen drainScript + 8) * 4)) :
    ReachesExactly costs sizeOfChange feeRate required optional drainScript :=
  ⟨h.reaches hsize, h.product_lt, hchange, hdrain⟩

/-- **Coin selection with branch and bound is optimal**: when the search ends within its budget, it
answers with the required coins and some of the optional ones, whose effective value together is as
near to the target as that of any changeless coins; and where there are none, branch and bound fails.
Where the required coins alone hit the target the answer is the random draw's, whose sums are in
`u64`. -/
theorem coinSelect_optimal (costs : SpendCosts) (sorter : SortUnstable OutputGroup.effectiveValue)
    (sizeOfChange : ℕ) (required optional : List WeightedUtxo) (feeRate : FeeRate)
    (targetAmount : ℕ) (drainScript : Script) (rand : Rng)
    (hlen : (serializedLen drainScript + 8) * 4 < 2 ^ 64)
    (hreach : ReachesExactly costs sizeOfChange feeRate required optional drainScript)
    (hends : baseOf costs feeRate required ≤ targetAmount →
      SearchEnds sorter (poolOf costs feeRate optional) (baseOf costs feeRate required) targetAmount
        (changeCost feeRate sizeOfChange))
    (hfits : baseOf costs feeRate required = targetAmount → valueOf required < 2 ^ 64) :
    ((∃ S, Changeless (poolOf costs feeRate optional) (baseOf costs feeRate required) targetAmount
        (changeCost feeRate sizeOfChange) S) →
      ∃ (r : CoinSelectionResult) (chosen : List WeightedUtxo),
        BranchAndBoundCoinSelection.coinSelect costs sorter
          ⟨sizeOfChange, SingleRandomDraw.coinSelect costs⟩ required optional feeRate targetAmount
          drainScript rand = .ok r
        ∧ r.selected = (chosen ++ required).map WeightedUtxo.utxo
        ∧ chosen.Subperm (candidates costs feeRate optional)
        ∧ IsLeast (Distances (poolOf costs feeRate optional) (baseOf costs feeRate required)
            targetAmount (changeCost feeRate sizeOfChange))
          (eff ((chosen ++ required).map (groupOf costs feeRate)) - targetAmount))
    ∧ ((∀ S, ¬Changeless (poolOf costs feeRate optional) (baseOf costs feeRate required)
        targetAmount (changeCost feeRate sizeOfChange) S) →
      baseOf costs feeRate required ≤ targetAmount →
        ∃ e, bnb costs sorter (required.map (groupOf costs feeRate)) (poolOf costs feeRate optional)
          (baseOf costs feeRate required) (eff (poolOf costs feeRate optional)) targetAmount
          (changeCost feeRate sizeOfChange) drainScript feeRate = .error (.error e)) := by
  have hpos := nonneg_of_mem_poolOf costs feeRate optional
  have hchange : feeRate.mulWeight (sizeOfChange * 4) = changeCost feeRate sizeOfChange :=
    hreach.change_lt.mulWeight_eq
  have hcost : (changeCost feeRate sizeOfChange : ℤ) < 2 ^ 63 := by
    rw [← hchange]
    exact_mod_cast (feeRate.mulWeight_lt _).trans (by decide)
  constructor
  · rintro ⟨S, hS⟩
    have htotal : (targetAmount : ℤ)
        ≤ eff (poolOf costs feeRate optional) + baseOf costs feeRate required := by
      have hmem := eff_mem_of_subperm hpos hS.1
      have hlow := hS.2.1
      omega
    rw [coinSelect_of_reaches hreach.toReaches hlen, if_pos htotal, hchange]
    rcases lt_trichotomy (baseOf costs feeRate required) targetAmount with hlt | heq | hgt
    · rw [if_neg (not_lt.mpr hlt.le)]
      obtain ⟨chosen, e, hok, hchosen, hleast⟩ := bnb_isLeast hlt hcost hlen (hends hlt.le) hS
      exact ⟨_, chosen, by rw [hok], selected_calculateCsResult chosen required e, hchosen, hleast⟩
    · rw [if_neg (not_lt.mpr heq.le)]
      have hends' := hends heq.le
      have hleast := isLeast_distances_of_le hpos hS heq.ge
      rw [heq] at hends' ⊢
      rw [bnb_of_eq hpos (Int.natCast_nonneg _) hends']
      obtain ⟨r, hr, hsel⟩ := singleRandomDraw_of_eq hlen
        (weight_lt_of_mapM_new hreach.required_ok) (hfits heq) heq rand
      exact ⟨r, [], hr, hsel, List.nil_subperm, heq ▸ hleast⟩
    · rw [if_pos hgt]
      exact ⟨_, [], rfl, selected_calculateCsResult [] required _, List.nil_subperm,
        isLeast_distances_of_le hpos hS hgt.le⟩
  · exact fun hno hle => bnb_error_of_not hle (Int.natCast_nonneg _) hcost hlen (hends hle) hno

end CoinSelect

/-! ## Two selections -/

/-- Two coins, the smaller of which is worth a thousand satoshis and its fee: it is what a target of a
thousand satoshis is met with. -/
theorem coinSelect_optimal_exact :
    ∃ (r : CoinSelectionResult) (chosen : List WeightedUtxo),
      BranchAndBoundCoinSelection.coinSelect sampleCosts (.insertion _)
          ⟨31, SingleRandomDraw.coinSelect sampleCosts⟩ [] [coinWorth 5000, coinWorth 1124] ⟨750⟩ 1000
          [0x51] (fun _ => 0) = .ok r
        ∧ r.selected = (chosen ++ []).map WeightedUtxo.utxo
        ∧ chosen.Subperm (candidates sampleCosts ⟨750⟩ [coinWorth 5000, coinWorth 1124])
        ∧ IsLeast (Distances (poolOf sampleCosts ⟨750⟩ [coinWorth 5000, coinWorth 1124])
            (baseOf sampleCosts ⟨750⟩ []) (1000 : ℕ) (changeCost ⟨750⟩ 31))
          (eff ((chosen ++ []).map (groupOf sampleCosts ⟨750⟩)) - (1000 : ℕ)) := by
  have hsupply : WithinSupply sampleCosts ⟨750⟩ ([] ++ [coinWorth 5000, coinWorth 1124]) :=
    ⟨by decide, by decide, by decide, by decide⟩
  refine (coinSelect_optimal sampleCosts (.insertion _) 31 [] [coinWorth 5000, coinWorth 1124] ⟨750⟩
    1000 [0x51] (fun _ => 0) (by decide)
    (hsupply.reachesExactly (by decide) (by decide) (by decide)) (fun _ => ?_)
    (fun _ => by decide)).1 ⟨[groupOf sampleCosts ⟨750⟩ (coinWorth 1124)], ?_, ?_⟩
  · trivial
  · exact List.singleton_subperm_iff.mpr (by decide)
  · exact ⟨by decide, by decide⟩

/-- A coin at the edge of its type: of the weight `2^64 - 1000` less the input's own, which at one
satoshi per thousand weight units costs `18446744073709551` to spend, and worth one more than that. -/
def heavyCoin : WeightedUtxo :=
  { coinWorth 18446744073709552 with satisfactionWeight := 2 ^ 64 - 1000 - 165 }

/-- **A thousand and one such coins, required for a target of 1001**: the first pass of the search
ends it, the coins hit the target, and the random draw that is to answer with them panics, since their
values add up to more than `2^64`. -/
theorem not_coinSelect_optimal :
    SearchEnds (.insertion _) (poolOf sampleCosts ⟨1⟩ [])
        (baseOf sampleCosts ⟨1⟩ (List.replicate 1001 heavyCoin)) 1001 (changeCost ⟨1⟩ 31)
      ∧ Changeless (poolOf sampleCosts ⟨1⟩ [])
        (baseOf sampleCosts ⟨1⟩ (List.replicate 1001 heavyCoin)) 1001 (changeCost ⟨1⟩ 31) []
      ∧ BranchAndBoundCoinSelection.coinSelect sampleCosts (.insertion _)
          ⟨31, SingleRandomDraw.coinSelect sampleCosts⟩ (List.replicate 1001 heavyCoin) [] ⟨1⟩ 1001
          [0x51] (fun _ => 0) = .error (.panic "Amount addition error") := by
  have hbase : baseOf sampleCosts ⟨1⟩ (List.replicate 1001 heavyCoin) = 1001 := by decide +kernel
  rw [hbase]
  refine ⟨?_, ⟨List.nil_subperm, by decide, by decide⟩, by decide +kernel⟩
  trivial

end Bitspend.Wallet
