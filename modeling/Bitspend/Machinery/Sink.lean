import Bitspend.Machinery.Codec
import Bitspend.Machinery.Op
import Mathlib.Data.List.TakeDrop

/-!
# Machinery/Sink — writers that take less than they are given

`Write::write` may accept any non-empty prefix of its buffer and says how much it took;
`Write::write_all` goes on until the buffer is empty.  A serializer that mixes the two and ignores
the counts delivers its bytes exactly when every bare `write` happens to be taken whole
(`Sink.accepted_eq_iff`).
-/

namespace Bitspend

/-- **A writer**: the one required method of `std::io::Write`, with the state it leaves. -/
structure Sink (ε σ : Type) where
  write : List UInt8 → Op ε σ ℕ
  /-- A call that returns has taken a prefix, and not the empty one of a non-empty buffer. -/
  accepts : ∀ {buf s n s'}, write buf s = (.ok n, s') → n ≤ buf.length ∧ (buf ≠ [] → 0 < n)

namespace Sink

variable {ε σ : Type}

/-- The in-memory writer, `Vec<u8>`: it takes every buffer whole. -/
def vec : Sink ε Unit where
  write buf := pure buf.length
  accepts := by
    rintro buf s n s' ⟨⟩
    exact ⟨le_rfl, List.length_pos_iff.mpr⟩

/-- A writer that takes `k + 1` bytes of a buffer at most. -/
def capped (k : ℕ) : Sink ε Unit where
  write buf := pure (min (k + 1) buf.length)
  accepts := by
    rintro buf s n s' ⟨⟩
    refine ⟨min_le_right _ _, fun hne => ?_⟩
    exact lt_min k.succ_pos (List.length_pos_iff.mpr hne)

/-- **The writer answers**: no call on it fails. -/
def Answers (S : Sink ε σ) : Prop := ∀ buf s, ∃ n s', S.write buf s = (.ok n, s')

theorem answers_vec : (vec : Sink ε Unit).Answers := fun buf s => ⟨buf.length, s, rfl⟩

/-! ## Calls on a writer

The state carries, beside the writer's own, the bytes it has accepted so far. -/

variable (S : Sink ε σ)

/-- `writer.write(buf)`. -/
def call (buf : List UInt8) : Op ε (σ × List UInt8) ℕ := fun t =>
  match S.write buf t.1 with
  | (.ok n, s') => (.ok n, (s', t.2 ++ buf.take n))
  | (.error e, s') => (.error e, (s', t.2))

/-- One round of `write_all`. -/
def writeRound (buf : List UInt8) : Op ε (σ × List UInt8) (List UInt8 ⊕ Unit) :=
  if buf = [] then pure (.inr ())
  else do
    let n ← S.call buf
    pure (.inl (buf.drop n))

/-- `writer.write_all(buf)`: every round takes a byte at least, so there is one for each and a last
one that finds the buffer empty. -/
def writeAll (buf : List UInt8) : Op ε (σ × List UInt8) Unit :=
  Op.loop S.writeRound (buf.length + 1) buf

/-- One call of a serializer; the count of a bare `write` is dropped. -/
def perform1 : WriteCall → Op ε (σ × List UInt8) Unit
  | .write buf => do
    let _ ← S.call buf
    pure ()
  | .writeAll buf => S.writeAll buf

/-- The calls of a serializer, up to the first that fails. -/
def perform (ws : List WriteCall) : Op ε (σ × List UInt8) PUnit := ForM.forM ws S.perform1

variable {S}

theorem call_eq_ok {buf : List UInt8} {s s' : σ} {out out' : List UInt8} {n : ℕ} :
    S.call buf (s, out) = (.ok n, (s', out'))
      ↔ S.write buf s = (.ok n, s') ∧ out' = out ++ buf.take n := by
  change (match S.write buf s with
    | (.ok n, s') => (.ok n, (s', out ++ buf.take n))
    | (.error e, s') => (.error e, (s', out)) : Outcome ε ℕ × (σ × List UInt8)) = _ ↔ _
  rcases S.write buf s with ⟨e | m, s₁⟩
  · constructor
    · intro h
      cases h
    · rintro ⟨h, -⟩
      cases h
  · constructor
    · intro h
      cases h
      exact ⟨rfl, rfl⟩
    · rintro ⟨h, rfl⟩
      cases h
      rfl

/-- A round either finds nothing left, or takes a non-empty prefix off. -/
theorem writeRound_eq_ok {buf : List UInt8} {s s' : σ} {out out' : List UInt8}
    {r : List UInt8 ⊕ Unit} (h : S.writeRound buf (s, out) = (.ok r, (s', out'))) :
    (buf = [] ∧ r = .inr () ∧ out' = out)
      ∨ ∃ n, 0 < n ∧ r = .inl (buf.drop n) ∧ out' = out ++ buf.take n := by
  unfold writeRound at h
  split at h
  · next hnil =>
    cases h
    exact .inl ⟨hnil, rfl, rfl⟩
  · next hne =>
    obtain ⟨n, ⟨s₁, out₁⟩, hcall, hpure⟩ := Op.bind_eq_ok.mp h
    cases hpure
    obtain ⟨hw, rfl⟩ := call_eq_ok.mp hcall
    exact .inr ⟨n, (S.accepts hw).2 hne, rfl, rfl⟩

/-- **`write_all` delivers its whole buffer**, however little each call takes. -/
theorem writeAll_eq_ok {buf : List UInt8} {s s' : σ} {out out' : List UInt8}
    (h : S.writeAll buf (s, out) = (.ok (), (s', out'))) : out' = out ++ buf := by
  -- what has been accepted and what is left make up the buffer, in every round
  refine Op.loop_eq_ok (I := fun b t => t.2 ++ b = out ++ buf) (Q := fun _ t => t.2 = out ++ buf)
    ?_ ?_ rfl h
  · rintro b ⟨t, o⟩ b' ⟨t', o'⟩ hI hround
    rcases writeRound_eq_ok hround with ⟨-, h, -⟩ | ⟨n, -, hr, rfl⟩
    · cases h
    · cases hr
      simpa using hI
  · rintro b ⟨t, o⟩ ⟨⟩ ⟨t', o'⟩ hI hround
    rcases writeRound_eq_ok hround with ⟨rfl, -, rfl⟩ | ⟨n, -, hr, -⟩
    · simpa using hI
    · cases hr

/-- …and on a writer that answers it returns: the bound on the rounds is never what ends it. -/
theorem Answers.writeAll (hS : S.Answers) (buf : List UInt8) (t : σ × List UInt8) :
    ∃ t', S.writeAll buf t = (.ok (), t') := by
  suffices h : ∀ k (b : List UInt8) t, b.length < k →
      ∃ t', Op.loop S.writeRound k b t = (.ok (), t') from h _ buf t (Nat.lt_succ_self _)
  intro k
  induction k with
  | zero => exact fun b t hk => absurd hk (Nat.not_lt_zero _)
  | succ k ih =>
    rintro b ⟨s, out⟩ hk
    rw [Op.loop_succ]
    by_cases hne : b = []
    · rw [writeRound, if_pos hne]
      exact ⟨_, rfl⟩
    · obtain ⟨n, s', hw⟩ := hS b s
      have hround : S.writeRound b (s, out) = (.ok (.inl (b.drop n)), (s', out ++ b.take n)) := by
        rw [writeRound, if_neg hne]
        exact Op.bind_eq_ok.mpr ⟨n, _, call_eq_ok.mpr ⟨hw, rfl⟩, rfl⟩
      rw [hround]
      refine ih _ _ ?_
      have hn := (S.accepts hw).2 hne
      rw [List.length_drop]
      have := List.length_pos_iff.mpr hne
      omega

/-- **A writer that answers lets every serializer finish.** -/
theorem Answers.perform (hS : S.Answers) (ws : List WriteCall) (t : σ × List UInt8) :
    ∃ t', S.perform ws t = (.ok (), t') := by
  induction ws generalizing t with
  | nil => exact ⟨t, rfl⟩
  | cons w ws ih =>
    obtain ⟨t₁, h₁⟩ : ∃ t₁, S.perform1 w t = (.ok (), t₁) := by
      cases w with
      | write buf =>
        obtain ⟨n, s', hw⟩ := hS buf t.1
        exact ⟨_, Op.bind_eq_ok.mpr ⟨n, _, call_eq_ok.mpr ⟨hw, rfl⟩, rfl⟩⟩
      | writeAll buf => exact hS.writeAll buf t
    obtain ⟨t', h'⟩ := ih t₁
    exact ⟨t', Op.forM_cons_eq_ok.mpr ⟨(), t₁, h₁, h'⟩⟩

/-! ## Exactness -/

/-- A bare `write` is taken whole from a state of the writer; nothing is asked of a `write_all`. -/
def TakenWhole (S : Sink ε σ) (s : σ) : WriteCall → Prop
  | .write buf => (S.write buf s).1 = .ok buf.length
  | .writeAll _ => True

/-- **Every bare `write` is taken whole**, each from the state the calls before it left. -/
def TakesWhole (S : Sink ε σ) : List WriteCall → σ × List UInt8 → Prop
  | [], _ => True
  | w :: ws, t => S.TakenWhole t.1 w ∧ S.TakesWhole ws (S.perform1 w t).2

/-- What one call delivers: no more than its buffer, and the buffer exactly when taken whole. -/
theorem perform1_eq_ok {w : WriteCall} {s s' : σ} {out out' : List UInt8} {u : Unit}
    (h : S.perform1 w (s, out) = (.ok u, (s', out'))) :
    ∃ got, out' = out ++ got ∧ got.length ≤ w.buf.length
      ∧ (got = w.buf ↔ S.TakenWhole s w) := by
  cases w with
  | write buf =>
    obtain ⟨n, ⟨s₁, out₁⟩, hcall, hpure⟩ := Op.bind_eq_ok.mp h
    cases hpure
    obtain ⟨hw, rfl⟩ := call_eq_ok.mp hcall
    have hle := (S.accepts hw).1
    refine ⟨buf.take n, rfl, List.length_take_le' _ _, ?_⟩
    rw [TakenWhole, hw, WriteCall.buf, List.take_eq_self_iff]
    constructor
    · exact fun hge => congrArg Except.ok (hle.antisymm hge)
    · intro heq
      cases heq
      exact le_rfl
  | writeAll buf =>
    exact ⟨buf, writeAll_eq_ok h, le_rfl, iff_of_true rfl trivial⟩

/-- **A serializer's bytes arrive exactly when every bare `write` is taken whole.**  A shortfall
cannot be made up for later: no call delivers more than its own buffer. -/
theorem accepted_eq_iff {ws : List WriteCall} {s s' : σ} {out out' : List UInt8}
    (h : S.perform ws (s, out) = (.ok (), (s', out'))) :
    out' = out ++ emitted ws ↔ S.TakesWhole ws (s, out) := by
  suffices hs : ∃ got, out' = out ++ got ∧ got.length ≤ (emitted ws).length
      ∧ (got = emitted ws ↔ S.TakesWhole ws (s, out)) by
    obtain ⟨got, rfl, -, hiff⟩ := hs
    rw [List.append_cancel_left_eq, hiff]
  induction ws generalizing s out with
  | nil =>
    cases h
    exact ⟨[], by simp, le_rfl, iff_of_true rfl trivial⟩
  | cons w ws ih =>
    obtain ⟨u, ⟨s₁, out₁⟩, hw, hrest⟩ := Op.forM_cons_eq_ok.mp h
    obtain ⟨got, rfl, hle, hgot⟩ := perform1_eq_ok hw
    obtain ⟨more, rfl, hle', hmore⟩ := ih hrest
    refine ⟨got ++ more, by rw [List.append_assoc], ?_, ?_⟩
    · rw [emitted_cons, List.length_append, List.length_append]
      exact Nat.add_le_add hle hle'
    · rw [TakesWhole, hw, ← hgot, ← hmore, emitted_cons]
      constructor
      · intro heq
        have hlen := congrArg List.length heq
        rw [List.length_append, List.length_append] at hlen
        exact List.append_inj heq (by omega)
      · rintro ⟨rfl, rfl⟩
        rfl

/-- The in-memory writer takes every `write` whole… -/
theorem takesWhole_vec (ws : List WriteCall) (t : Unit × List UInt8) :
    (vec : Sink ε Unit).TakesWhole ws t := by
  induction ws generalizing t with
  | nil => trivial
  | cons w ws ih =>
    refine ⟨?_, ih _⟩
    cases w with
    | write buf => rfl
    | writeAll buf => trivial

/-- …so it holds what the calls emit. -/
theorem perform_vec (ws : List WriteCall) :
    (vec : Sink ε Unit).perform ws ((), []) = (.ok (), ((), emitted ws)) := by
  obtain ⟨⟨⟨⟩, out⟩, h⟩ := (answers_vec (ε := ε)).perform ws ((), [])
  have hout := (accepted_eq_iff h).mpr (takesWhole_vec ws _)
  rw [h, hout, List.nil_append]

end Sink

end Bitspend
