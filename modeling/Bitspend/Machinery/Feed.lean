import Bitspend.Machinery.Bytes
import Bitspend.Machinery.Op

/-!
# Machinery/Feed — readers that get their bytes in pieces

`Read::read` may return any non-empty prefix of what was asked for, and may fail with an error that is
not final.  `Read::read_exact` goes on until its buffer is full; an error on the way is returned, and the
bytes read before it are gone.

How the bytes come in pieces does not matter to `read_exact`, only where the errors stand between them:
what is left to read is a list of bytes and stalls (`items`), and `read_exact` takes its bytes off the front
of that list (`readExact_eq`).
-/

namespace Bitspend

/-- **What a reader meets next**: some bytes at once, or an error that is not final. -/
inductive Arrival (κ : Type) where
  | chunk (b : UInt8) (bs : List UInt8)
  | stall (k : κ)
  deriving Repr, DecidableEq

namespace Feed

variable {κ : Type}

/-- The bytes of an arrival, or its stall. -/
def pieces : Arrival κ → List (UInt8 ⊕ κ)
  | .chunk b bs => (b :: bs).map .inl
  | .stall k => [.inr k]

/-- **What is left to read**, byte by byte. -/
def items (as : List (Arrival κ)) : List (UInt8 ⊕ κ) := as.flatMap pieces

/-- Bytes, as the next arrival. -/
def arrive : List UInt8 → List (Arrival κ) → List (Arrival κ)
  | [], as => as
  | b :: bs, as => .chunk b bs :: as

theorem items_arrive (bs : List UInt8) (as : List (Arrival κ)) :
    items (arrive bs as) = bs.map .inl ++ items as := by
  cases bs with
  | nil => rfl
  | cons b bs => rfl

/-- `Read::read` into a buffer of `n` bytes; no bytes are read at the end only. -/
def read (n : ℕ) : Op (Option κ) (List (Arrival κ)) (List UInt8)
  | [] => (.ok [], [])
  | .stall k :: as => (Outcome.err (some k), as)
  | .chunk b bs :: as => (.ok ((b :: bs).take n), arrive ((b :: bs).drop n) as)

/-- One round of `read_exact`: the bytes still wanted, and those read. -/
def readRound (x : ℕ × List UInt8) :
    Op (Option κ) (List (Arrival κ)) ((ℕ × List UInt8) ⊕ List UInt8) :=
  if x.1 = 0 then pure (.inr x.2)
  else do
    let got ← read x.1
    if got = [] then Op.lift (Outcome.err none)
    else pure (.inl (x.1 - got.length, x.2 ++ got))

/-- `Read::read_exact`: a stall is returned as it is, the end as `none`. -/
def readExact (n : ℕ) : Op (Option κ) (List (Arrival κ)) (List UInt8) :=
  Op.loop readRound (n + 1) (n, [])

/-! ## Byte by byte -/

/-- So many bytes off the front of what is left. -/
def takeExact : ℕ → Op (Option κ) (List (UInt8 ⊕ κ)) (List UInt8)
  | 0, its => (.ok [], its)
  | _ + 1, [] => (Outcome.err none, [])
  | _ + 1, .inr k :: its => (Outcome.err (some k), its)
  | n + 1, .inl b :: its =>
    match takeExact n its with
    | (.ok bs, its') => (.ok (b :: bs), its')
    | (.error e, its') => (.error e, its')

theorem takeExact_append (bs : List UInt8) (its : List (UInt8 ⊕ κ)) :
    takeExact bs.length (bs.map .inl ++ its) = (.ok bs, its) := by
  induction bs with
  | nil => rfl
  | cons b bs ih =>
    rw [List.length_cons, List.map_cons, List.cons_append, takeExact, ih]

/-- Bytes that are there, and then the others. -/
theorem takeExact_add (bs : List UInt8) (n : ℕ) (its : List (UInt8 ⊕ κ)) :
    takeExact (bs.length + n) (bs.map .inl ++ its)
      = match takeExact n its with
        | (.ok cs, its') => (.ok (bs ++ cs), its')
        | (.error e, its') => (.error e, its') := by
  induction bs with
  | nil =>
    rw [List.length_nil, Nat.zero_add, List.map_nil, List.nil_append]
    rcases takeExact n its with ⟨_ | _, _⟩ <;> rfl
  | cons b bs ih =>
    rw [List.length_cons, Nat.add_right_comm, List.map_cons, List.cons_append, takeExact, ih]
    rcases takeExact n its with ⟨_ | _, _⟩ <;> rfl

/-- **A stall among the bytes wanted**: those before it are gone. -/
theorem takeExact_stall {bs : List UInt8} {n : ℕ} (h : bs.length < n) (k : κ)
    (its : List (UInt8 ⊕ κ)) :
    takeExact n (bs.map .inl ++ .inr k :: its) = (Outcome.err (some k), its) := by
  obtain ⟨m, rfl⟩ := Nat.exists_eq_add_of_lt h
  rw [Nat.add_assoc, takeExact_add]
  rfl

/-- The rounds from some bytes read on. -/
theorem loop_readRound {rounds n : ℕ} (hrounds : n < rounds) (got : List UInt8)
    (as : List (Arrival κ)) :
    (Op.loop readRound rounds (n, got) as).1
        = (match (takeExact n (items as)).1 with
          | .ok bs => .ok (got ++ bs)
          | .error e => .error e : Outcome (Option κ) (List UInt8))
      ∧ items (Op.loop readRound rounds (n, got) as).2 = (takeExact n (items as)).2 := by
  induction rounds generalizing n got as with
  | zero => omega
  | succ rounds ih =>
    rw [Op.loop_succ]
    rcases n with _ | n
    · refine ⟨?_, rfl⟩
      change Except.ok got = Except.ok (got ++ [])
      rw [List.append_nil]
    rcases as with _ | ⟨⟨b, bs⟩ | k, as⟩
    · exact ⟨rfl, rfl⟩
    · have hround : readRound (n + 1, got) (.chunk b bs :: as)
          = (.ok (.inl (n + 1 - ((b :: bs).take (n + 1)).length, got ++ (b :: bs).take (n + 1))),
            arrive ((b :: bs).drop (n + 1)) as) := rfl
      rw [hround]
      obtain ⟨hfst, hsnd⟩ := @ih (n + 1 - ((b :: bs).take (n + 1)).length) (by simp; omega)
        (got ++ (b :: bs).take (n + 1)) (arrive ((b :: bs).drop (n + 1)) as)
      have hitems : items (.chunk b bs :: as)
          = ((b :: bs).take (n + 1)).map .inl ++ items (arrive ((b :: bs).drop (n + 1)) as) := by
        rw [items_arrive, ← List.append_assoc, ← List.map_append, List.take_append_drop]
        rfl
      have hsum : n + 1 = ((b :: bs).take (n + 1)).length
          + (n + 1 - ((b :: bs).take (n + 1)).length) := by
        have := List.length_take_le (n + 1) (b :: bs)
        omega
      have htake := takeExact_add ((b :: bs).take (n + 1))
        (n + 1 - ((b :: bs).take (n + 1)).length) (items (arrive ((b :: bs).drop (n + 1)) as))
      rw [← hsum, ← hitems] at htake
      rw [htake, hfst, hsnd]
      rcases takeExact (n + 1 - ((b :: bs).take (n + 1)).length)
        (items (arrive ((b :: bs).drop (n + 1)) as)) with ⟨_ | cs, its⟩
      · exact ⟨rfl, rfl⟩
      · exact ⟨congrArg Except.ok (List.append_assoc _ _ _), rfl⟩
    · exact ⟨rfl, rfl⟩

/-- **`read_exact` takes its bytes off the front of what is left**, however they come in pieces. -/
theorem readExact_eq (n : ℕ) (as : List (Arrival κ)) :
    (readExact n as).1 = (takeExact n (items as)).1
      ∧ items (readExact n as).2 = (takeExact n (items as)).2 := by
  obtain ⟨hfst, hsnd⟩ := loop_readRound (Nat.lt_succ_self n) [] as
  refine ⟨hfst.trans ?_, hsnd⟩
  rcases (takeExact n (items as)).1 with _ | _ <;> rfl

/-! ## The bytes alone -/

/-- The bytes that are left. -/
def streamOf (its : List (UInt8 ⊕ κ)) : List UInt8 := its.filterMap Sum.getLeft?

@[simp] theorem streamOf_inr (k : κ) (its : List (UInt8 ⊕ κ)) : streamOf (.inr k :: its) = streamOf its :=
  rfl

@[simp] theorem streamOf_inl (b : UInt8) (its : List (UInt8 ⊕ κ)) :
    streamOf (.inl b :: its) = b :: streamOf its := rfl

theorem streamOf_append (bs : List UInt8) (its : List (UInt8 ⊕ κ)) :
    streamOf (bs.map .inl ++ its) = bs ++ streamOf its := by
  induction bs with
  | nil => rfl
  | cons b bs ih => rw [List.map_cons, List.cons_append, streamOf_inl, ih, List.cons_append]

/-- **Some bytes come first with nothing between them, or a stall stands among them.** -/
theorem whole_or_torn {bs cs : List UInt8} {its : List (UInt8 ⊕ κ)} (h : streamOf its = bs ++ cs) :
    (∃ rest, its = bs.map .inl ++ rest)
      ∨ ∃ i k rest, i < bs.length ∧ its = (bs.take i).map .inl ++ .inr k :: rest := by
  induction bs generalizing its with
  | nil => exact .inl ⟨its, rfl⟩
  | cons b bs ih =>
    rcases its with _ | ⟨c | k, its⟩
    · cases h
    · rw [streamOf_inl, List.cons_append, List.cons.injEq] at h
      obtain ⟨rfl, h⟩ := h
      obtain ⟨rest, rfl⟩ | ⟨i, k, rest, hi, rfl⟩ := ih h
      · exact .inl ⟨rest, rfl⟩
      · exact .inr ⟨i + 1, k, rest, Nat.succ_lt_succ hi, rfl⟩
    · exact .inr ⟨0, k, its, Nat.succ_pos _, rfl⟩

end Feed

end Bitspend
