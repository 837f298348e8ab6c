import Bitspend.Filter.BitReader

/-!
# Filter/Matching — a filter matches what it was made of

The content of a filter made of a sorted list is read value by value, one code each.  Where the stream is
(`Stream`) is a value and the values after it; the inner loop of the matchers goes on to the first value
that is not below the query (`ahead`).  Since the queries are sorted too, nothing that was passed is asked
for again, and the one pass decides membership for all of them.
-/

namespace Bitspend.Filter

/-! ## Filters -/

/-- The codes of the differences of a list, from a value on. -/
def gcsBits (p : ℕ) : UInt64 → List UInt64 → List Bool
  | _, [] => []
  | last, v :: vs => golombRiceCode p (v.toNat - last.toNat) ++ gcsBits p v vs

/-- **The filter of a list of values**: their number, and the codes in bytes. -/
def gcsContent (values : List UInt64) : List UInt8 :=
  emitted (VarInt.writeLen values) ++ packBits (gcsBits 19 0 values)

/-- **The stream is at a value**, with those after it still to be read. -/
structure Stream (p : ℕ) (s : BitStreamReader) (v : UInt64) (rest : List UInt64) : Prop where
  offset : s.offset ≤ 8
  bits : ∃ padding, s.bits = gcsBits p v rest ++ padding
  sorted : (v :: rest).Pairwise (· ≤ ·)

namespace Stream

variable {filter : GcsFilter} {s : BitStreamReader} {v v' : UInt64} {rest : List UInt64}

/-- **Decoding moves the stream on by one value.** -/
theorem decode (hp : filter.p.toNat < 64) (hs : Stream filter.p.toNat s v (v' :: rest)) :
    ∃ s', unwrap filter.golombRiceDecode s = (.ok (v' - v), s')
      ∧ Stream filter.p.toNat s' v' rest := by
  obtain ⟨padding, hbits⟩ := hs.bits
  have hle : v ≤ v' := (List.pairwise_cons.mp hs.sorted).1 v' List.mem_cons_self
  have hsub : (v' - v).toNat = v'.toNat - v.toNat := UInt64.toNat_sub_of_le _ _ hle
  rw [gcsBits, ← hsub, List.append_assoc] at hbits
  obtain ⟨s', hdecode, hrest, hoff⟩ := GcsFilter.golombRiceDecode_eq hp hs.offset hbits
  exact ⟨s', unwrap_of_ok hdecode, hoff, ⟨padding, hrest⟩, (List.pairwise_cons.mp hs.sorted).2⟩

end Stream

/-! ## Seeking -/

/-- The first value that is not below the query, and those after it. -/
def ahead (query : UInt64) : UInt64 → List UInt64 → Option (UInt64 × List UInt64)
  | v, [] => if v < query then none else some (v, [])
  | v, v' :: rest => if v < query then ahead query v' rest else some (v, v' :: rest)

theorem ahead_of_not_lt {query v : UInt64} (h : ¬v < query) (rest : List UInt64) :
    ahead query v rest = some (v, rest) := by
  rcases rest with _ | ⟨v', rest⟩ <;> rw [ahead, if_neg h]

/-- **What the value ahead says of the queries from here on.** -/
theorem mem_ahead {v : UInt64} {rest : List UInt64} (hsorted : (v :: rest).Pairwise (· ≤ ·))
    (query : UInt64) :
    match ahead query v rest with
    | none => ∀ x, query ≤ x → x ∉ v :: rest
    | some (v', rest') => (query ∈ v :: rest ↔ v' = query)
      ∧ ∀ x, query ≤ x → (x ∈ v :: rest ↔ x ∈ v' :: rest') := by
  have hhere : ∀ {v : UInt64} {rest : List UInt64}, (v :: rest).Pairwise (· ≤ ·) → ¬v < query →
      (query ∈ v :: rest ↔ v = query) := by
    intro v rest hsorted hlt
    refine ⟨fun hmem => ?_, fun h => h ▸ List.mem_cons_self⟩
    rcases List.mem_cons.mp hmem with h | hmem
    · exact h.symm
    · have hle := (List.pairwise_cons.mp hsorted).1 query hmem
      rw [UInt64.lt_iff_toNat_lt] at hlt
      rw [UInt64.le_iff_toNat_le] at hle
      exact UInt64.toNat_inj.mp (by omega)
  have hpassed : ∀ {v x : UInt64}, v < query → query ≤ x → x ≠ v := by
    rintro v x hlt hle rfl
    rw [UInt64.lt_iff_toNat_lt] at hlt
    rw [UInt64.le_iff_toNat_le] at hle
    omega
  induction rest generalizing v with
  | nil =>
    by_cases hlt : v < query
    · rw [ahead, if_pos hlt]
      intro x hx hmem
      exact hpassed hlt hx (List.mem_singleton.mp hmem)
    · rw [ahead, if_neg hlt]
      exact ⟨hhere hsorted hlt, fun _ _ => Iff.rfl⟩
  | cons v' rest ih =>
    by_cases hlt : v < query
    · have hskip : ∀ x, query ≤ x → (x ∈ v :: v' :: rest ↔ x ∈ v' :: rest) := fun x hx => by
        rw [List.mem_cons, or_iff_right (hpassed hlt hx)]
      have := ih (List.pairwise_cons.mp hsorted).2
      rw [ahead, if_pos hlt]
      rcases hahead : ahead query v' rest with _ | ⟨v'', rest'⟩
      · rw [hahead] at this
        exact fun x hx hmem => this x hx ((hskip x hx).mp hmem)
      · rw [hahead] at this
        exact ⟨(hskip query (UInt64.le_refl query)).trans this.1,
          fun x hx => (hskip x hx).trans (this.2 x hx)⟩
    · rw [ahead, if_neg hlt]
      exact ⟨hhere hsorted hlt, fun _ _ => Iff.rfl⟩

namespace GcsFilterReader

variable {reader : GcsFilterReader}

theorem compare_eq (a b : UInt64) :
    compare a b = if a < b then .lt else if a = b then .eq else .gt := rfl

/-- What the inner loop ends with. -/
def landing (policy : Policy) (query : UInt64) : Option (UInt64 × List UInt64) →
    Bool ⊕ (UInt64 × UInt64)
  | none => .inl false
  | some (v, rest) =>
    leave (if v = query then policy.onEqual else policy.onGreater) (v, UInt64.ofNat rest.length)

/-- **The inner loop goes on to the first value that is not below the query.** -/
theorem loop_seekRound (hp : reader.filter.p.toNat < 64) (policy : Policy) (query : UInt64)
    {rounds : ℕ} {v : UInt64} {rest : List UInt64} (hrounds : rest.length < rounds)
    (hlen : rest.length < 2 ^ 64) {s : BitStreamReader}
    (hs : Stream reader.filter.p.toNat s v rest) :
    ∃ s', Op.loop (reader.seekRound policy query) rounds (v, UInt64.ofNat rest.length) s
        = (.ok (landing policy query (ahead query v rest)), s')
      ∧ ∀ v' rest', ahead query v rest = some (v', rest') →
        Stream reader.filter.p.toNat s' v' rest' := by
  induction rounds generalizing v rest s with
  | zero => omega
  | succ rounds ih =>
    rw [Op.loop_succ, seekRound, compare_eq]
    by_cases hlt : v < query
    · rw [if_pos hlt]
      rcases rest with _ | ⟨v', rest⟩
      · refine ⟨s, ?_, ?_⟩
        · rw [ahead, if_pos hlt]
          rfl
        · rw [ahead, if_pos hlt]
          rintro _ _ ⟨⟩
      · obtain ⟨s₁, hdecode, hs₁⟩ := hs.decode hp
        rw [List.length_cons] at hrounds hlen
        obtain ⟨s', hloop, hs'⟩ := ih (Nat.lt_of_succ_lt_succ hrounds) (Nat.lt_of_succ_lt hlen) hs₁
        have hpos : 0 < UInt64.ofNat (rest.length + 1) := by
          rw [UInt64.lt_iff_toNat_lt, UInt64.toNat_ofNat_of_lt' hlen]
          exact Nat.succ_pos _
        have hdata : v + (v' - v) = v' := by rw [UInt64.add_comm, UInt64.sub_add_cancel]
        have hleft : UInt64.ofNat (rest.length + 1) - 1 = UInt64.ofNat rest.length := by
          rw [UInt64.ofNat_add]
          exact UInt64.add_sub_cancel _ _
        refine ⟨s', ?_, by rw [ahead, if_pos hlt]; exact hs'⟩
        rw [ahead, if_pos hlt, ← hloop, ← hdata, ← hleft, List.length_cons]
        simp only [if_pos hpos, Op.bind_apply, hdecode, hdata]
        rfl
    · rw [if_neg hlt, ahead_of_not_lt hlt]
      refine ⟨s, ?_, ?_⟩
      · rw [landing]
        split_ifs <;> rfl
      · rintro _ _ ⟨⟩
        exact hs

theorem length_ahead {query v v' : UInt64} {rest rest' : List UInt64}
    (h : ahead query v rest = some (v', rest')) : rest'.length ≤ rest.length := by
  induction rest generalizing v with
  | nil =>
    rw [ahead] at h
    split_ifs at h
    cases h
    exact le_rfl
  | cons w rest ih =>
    rw [ahead] at h
    split_ifs at h
    · exact (ih h).trans (Nat.le_succ _)
    · cases h
      exact le_rfl

section Pass

variable (hp : reader.filter.p.toNat < 64) {v : UInt64} {rest : List UInt64} {s : BitStreamReader}

include hp

/-- The inner loop for the next query, and then the others. -/
theorem seekAll_cons (policy : Policy) (query : UInt64) (queries : List UInt64)
    (hlen : rest.length < 2 ^ 64) (hs : Stream reader.filter.p.toNat s v rest) :
    ∃ s', reader.seekAll policy (query :: queries) (v, UInt64.ofNat rest.length) s
        = (match landing policy query (ahead query v rest) with
          | .inl b => pure b
          | .inr x => reader.seekAll policy queries x : Op IoError BitStreamReader Bool) s'
      ∧ ∀ v' rest', ahead query v rest = some (v', rest') →
        Stream reader.filter.p.toNat s' v' rest' := by
  have hcount : (UInt64.ofNat rest.length).toNat = rest.length := UInt64.toNat_ofNat_of_lt' hlen
  obtain ⟨s', hloop, hs'⟩ := loop_seekRound hp policy query (Nat.lt_succ_self _) hlen hs
  refine ⟨s', ?_, hs'⟩
  refine Eq.trans (by rw [seekAll, Op.bind_apply, hcount, hloop]) ?_
  rcases landing policy query (ahead query v rest) with _ | _ <;> rfl

/-- **One pass finds whether any query is a value…** -/
theorem seekAll_any {queries : List UInt64} (hqueries : queries.Pairwise (· ≤ ·))
    (hlen : rest.length < 2 ^ 64) (hs : Stream reader.filter.p.toNat s v rest) :
    (reader.seekAll .any queries (v, UInt64.ofNat rest.length) s).1
      = .ok (decide (∃ q ∈ queries, q ∈ v :: rest)) := by
  induction queries generalizing v rest s with
  | nil =>
    change (.ok false : Outcome IoError Bool) = _
    simp
  | cons query queries ih =>
    obtain ⟨hfirst, hothers⟩ := List.pairwise_cons.mp hqueries
    obtain ⟨s', hrun, hs'⟩ := seekAll_cons hp .any query queries hlen hs
    have hmem := mem_ahead hs.sorted query
    rw [hrun]
    rcases hahead : ahead query v rest with _ | ⟨v', rest'⟩
    · rw [hahead] at hmem
      have hno : ¬∃ q ∈ query :: queries, q ∈ v :: rest := by
        rintro ⟨q, hq, hin⟩
        rcases List.mem_cons.mp hq with rfl | hq
        · exact hmem q (UInt64.le_refl q) hin
        · exact hmem q (hfirst q hq) hin
      rw [decide_eq_false hno]
      rfl
    · rw [hahead] at hmem
      by_cases heq : v' = query
      · have hyes : ∃ q ∈ query :: queries, q ∈ v :: rest :=
          ⟨query, List.mem_cons_self, hmem.1.mpr heq⟩
        rw [decide_eq_true hyes, landing, if_pos heq]
        rfl
      · have hiff : (∃ q ∈ query :: queries, q ∈ v :: rest) ↔ ∃ q ∈ queries, q ∈ v' :: rest' := by
          constructor
          · rintro ⟨q, hq, hin⟩
            rcases List.mem_cons.mp hq with rfl | hq
            · exact absurd (hmem.1.mp hin) heq
            · exact ⟨q, hq, (hmem.2 q (hfirst q hq)).mp hin⟩
          · rintro ⟨q, hq, hin⟩
            exact ⟨q, List.mem_cons_of_mem _ hq, (hmem.2 q (hfirst q hq)).mpr hin⟩
        rw [decide_eq_decide.mpr hiff, landing, if_neg heq]
        exact ih hothers ((length_ahead hahead).trans_lt hlen) (hs' v' rest' hahead)

/-- **…and whether all are.** -/
theorem seekAll_all {queries : List UInt64} (hqueries : queries.Pairwise (· ≤ ·))
    (hlen : rest.length < 2 ^ 64) (hs : Stream reader.filter.p.toNat s v rest) :
    (reader.seekAll .all queries (v, UInt64.ofNat rest.length) s).1
      = .ok (queries.all fun q => decide (q ∈ v :: rest)) := by
  have hall : ∀ qs vs : List UInt64,
      (qs.all fun q => decide (q ∈ vs)) = true ↔ ∀ q ∈ qs, q ∈ vs := by simp
  induction queries generalizing v rest s with
  | nil => rfl
  | cons query queries ih =>
    obtain ⟨hfirst, hothers⟩ := List.pairwise_cons.mp hqueries
    obtain ⟨s', hrun, hs'⟩ := seekAll_cons hp .all query queries hlen hs
    have hmem := mem_ahead hs.sorted query
    rw [hrun]
    rcases hahead : ahead query v rest with _ | ⟨v', rest'⟩
    · rw [hahead] at hmem
      have hno : ((query :: queries).all fun q => decide (q ∈ v :: rest)) = false :=
        Bool.eq_false_iff.mpr fun h =>
          hmem query (UInt64.le_refl query) ((hall _ _).mp h query List.mem_cons_self)
      rw [hno]
      rfl
    · rw [hahead] at hmem
      by_cases heq : v' = query
      · have hiff : (∀ q ∈ query :: queries, q ∈ v :: rest) ↔ ∀ q ∈ queries, q ∈ v' :: rest' := by
          constructor
          · exact fun h q hq => (hmem.2 q (hfirst q hq)).mp (h q (List.mem_cons_of_mem _ hq))
          · intro h q hq
            rcases List.mem_cons.mp hq with rfl | hq
            · exact hmem.1.mpr heq
            · exact (hmem.2 q (hfirst q hq)).mpr (h q hq)
        rw [Bool.eq_iff_iff.mpr ((hall _ _).trans (hiff.trans (hall _ _).symm)), landing, if_pos heq]
        exact ih hothers ((length_ahead hahead).trans_lt hlen) (hs' v' rest' hahead)
      · have hno : ((query :: queries).all fun q => decide (q ∈ v :: rest)) = false :=
          Bool.eq_false_iff.mpr fun h => heq (hmem.1.mp ((hall _ _).mp h query List.mem_cons_self))
        rw [hno, landing, if_neg heq]
        rfl

end Pass

/-! ## Queries -/

theorem pairwise_mapped (sip : SipHash) (reader : GcsFilterReader) (n : UInt64)
    (queries : List (List UInt8)) : (mapped sip reader n queries).Pairwise (· ≤ ·) := by
  have hsorted := @List.pairwise_mergeSort _ (fun a b : UInt64 => decide (a ≤ b))
    (fun a b c hab hbc => by
      rw [decide_eq_true_eq] at hab hbc ⊢
      exact UInt64.le_trans hab hbc)
    (fun a b => by
      rw [Bool.or_eq_true, decide_eq_true_eq, decide_eq_true_eq]
      exact UInt64.le_total a b)
    (queries.map fun e => mapToRange (reader.filter.hash sip e) (n * reader.m))
  exact hsorted.imp fun h => decide_eq_true_eq.mp h

theorem mem_mapped {sip : SipHash} {reader : GcsFilterReader} {n : UInt64}
    {queries : List (List UInt8)} {x : UInt64} :
    x ∈ mapped sip reader n queries
      ↔ ∃ q ∈ queries, mapToRange (reader.filter.hash sip q) (n * reader.m) = x := by
  rw [mapped, List.mem_mergeSort, List.mem_map]

theorem mem_dedup {x : UInt64} {l : List UInt64} : x ∈ dedup l ↔ x ∈ l := by
  fun_induction dedup l with
  | case1 => rfl
  | case2 => rfl
  | case3 b l ih => rw [ih, List.mem_cons, List.mem_cons, List.mem_cons, or_self_left]
  | case4 a b l _ ih => rw [List.mem_cons, ih, ← List.mem_cons]

theorem dedup_sublist (l : List UInt64) : (dedup l).Sublist l := by
  fun_induction dedup l with
  | case1 => exact .slnil
  | case2 => exact List.Sublist.refl _
  | case3 b l ih => exact ih.cons b
  | case4 a b l _ ih => exact ih.cons_cons a

/-! ## Filters and queries -/

theorem isEmpty_iff_of_mem {α β : Type} {l : List α} {l' : List β} (f : β → α)
    (h : ∀ x, x ∈ l ↔ ∃ y ∈ l', f y = x) : l.isEmpty = true ↔ l' = [] := by
  rw [List.isEmpty_iff, List.eq_nil_iff_forall_not_mem, List.eq_nil_iff_forall_not_mem]
  constructor
  · exact fun hl y hy => hl (f y) ((h _).mpr ⟨y, hy, rfl⟩)
  · intro hl' x hx
    obtain ⟨y, hy, -⟩ := (h x).mp hx
    exact hl' y hy

theorem count_gcsContent {values : List UInt64} :
    count (gcsContent values)
      = (UInt64.ofNat values.length, packBits (gcsBits 19 0 values)) := by
  have := VarInt.decodes (UInt64.ofNat values.length) (packBits (gcsBits 19 0 values))
  rw [count, gcsContent, VarInt.writeLen, this]

/-- **The pass over a filter starts at its first value.** -/
theorem seekFrom_gcsContent {reader : GcsFilterReader} (hp : reader.filter.p = 19) (policy : Policy)
    {v : UInt64} {rest : List UInt64} (hsorted : (v :: rest).Pairwise (· ≤ ·))
    (queries : List UInt64) :
    ∃ s, reader.seekFrom policy (UInt64.ofNat (rest.length + 1)) queries
        (.new (packBits (gcsBits 19 0 (v :: rest))))
        = reader.seekAll policy queries (v, UInt64.ofNat rest.length) s
      ∧ Stream reader.filter.p.toNat s v rest := by
  have hstart : Stream reader.filter.p.toNat (.new (packBits (gcsBits 19 0 (v :: rest)))) 0
      (v :: rest) := by
    refine ⟨le_rfl, ⟨padding (gcsBits 19 0 (v :: rest)).length, ?_⟩,
      List.pairwise_cons.mpr ⟨fun _ _ => ?_, hsorted⟩⟩
    · rw [BitStreamReader.bits_new, flatMap_packBits, hp]
      rfl
    · rw [UInt64.le_iff_toNat_le]
      exact Nat.zero_le _
  obtain ⟨s, hdecode, hs⟩ := hstart.decode (by rw [hp]; decide)
  refine ⟨s, ?_, hs⟩
  have hleft : UInt64.ofNat (rest.length + 1) - 1 = UInt64.ofNat rest.length := by
    rw [UInt64.ofNat_add]
    exact UInt64.add_sub_cancel _ _
  rw [seekFrom, Op.bind_apply, hdecode, hleft, UInt64.sub_zero]

end GcsFilterReader

open GcsFilterReader

/-- A filter of values below `N * M` has fewer than `2 ^ 64` of them. -/
theorem length_lt_of_below {m : UInt64} {v : UInt64} {rest : List UInt64}
    (hrange : (v :: rest).length * m.toNat < 2 ^ 64)
    (hbelow : ∀ x ∈ v :: rest, x.toNat < (v :: rest).length * m.toNat) :
    rest.length + 1 < 2 ^ 64 := by
  have hv := hbelow v List.mem_cons_self
  rw [List.length_cons] at hrange hv
  have hm : 1 ≤ m.toNat := Nat.pos_of_ne_zero fun h => by rw [h] at hv; omega
  exact (Nat.le_mul_of_pos_right _ hm).trans_lt hrange

theorem ofNat_ne_zero {n : ℕ} (h : n + 1 < 2 ^ 64) : UInt64.ofNat (n + 1) ≠ 0 := by
  intro h0
  have := congrArg UInt64.toNat h0
  rw [UInt64.toNat_ofNat_of_lt' h] at this
  cases this

section Filter

variable (sip : SipHash) (k0 k1 m : UInt64) {values : List UInt64} (queries : List (List UInt8))

/-- The queries are brought into the range of the values. -/
theorem mem_mapped_new (x : UInt64) :
    x ∈ mapped sip (.new k0 k1 m 19) (UInt64.ofNat values.length) queries
      ↔ ∃ q ∈ queries,
        mapToRange (sip k0 k1 q) (UInt64.ofNat (values.length * m.toNat)) = x := by
  rw [mem_mapped, UInt64.ofNat_mul, UInt64.ofNat_toNat]
  rfl

variable (hsorted : values.Pairwise (· ≤ ·)) (hrange : values.length * m.toNat < 2 ^ 64)
  (hbelow : ∀ v ∈ values, v.toNat < values.length * m.toNat)

include hsorted hrange hbelow

theorem matchAny_gcsContent :
    (GcsFilterReader.new k0 k1 m 19).matchAny sip (gcsContent values) queries
      = .ok (decide (queries = [] ∨ ∃ q ∈ queries,
        mapToRange (sip k0 k1 q) (UInt64.ofNat (values.length * m.toNat)) ∈ values)) := by
  have hmapped := @mem_mapped_new sip k0 k1 m values queries
  have hpairs := pairwise_mapped sip (.new k0 k1 m 19) (UInt64.ofNat values.length) queries
  simp only [matchAny, count_gcsContent]
  by_cases hq : queries = []
  · rw [if_pos ((isEmpty_iff_of_mem _ hmapped).mpr hq), decide_eq_true (.inl hq)]
  · rw [if_neg fun h => hq ((isEmpty_iff_of_mem _ hmapped).mp h)]
    rcases values with _ | ⟨v, rest⟩
    · have hzero : UInt64.ofNat ([] : List UInt64).length = 0 := rfl
      rw [if_pos hzero, decide_eq_false (by simp [hq])]
    · have hlt := length_lt_of_below hrange hbelow
      rw [List.length_cons] at hmapped hpairs ⊢
      rw [if_neg (ofNat_ne_zero hlt)]
      obtain ⟨s, hrun, hs⟩ := @seekFrom_gcsContent (.new k0 k1 m 19) rfl .any v rest hsorted
        (mapped sip (.new k0 k1 m 19) (UInt64.ofNat (rest.length + 1)) queries)
      rw [hrun, seekAll_any (by change 19 < 64; decide) hpairs (Nat.lt_of_succ_lt hlt) hs]
      refine congrArg Except.ok (decide_eq_decide.mpr ?_)
      rw [or_iff_right hq]
      constructor
      · rintro ⟨x, hx, hin⟩
        obtain ⟨q, hq, rfl⟩ := (hmapped x).mp hx
        exact ⟨q, hq, hin⟩
      · rintro ⟨q, hq, hin⟩
        exact ⟨_, (hmapped _).mpr ⟨q, hq, rfl⟩, hin⟩

theorem matchAll_gcsContent :
    (GcsFilterReader.new k0 k1 m 19).matchAll sip (gcsContent values) queries
      = .ok (decide (∀ q ∈ queries,
        mapToRange (sip k0 k1 q) (UInt64.ofNat (values.length * m.toNat)) ∈ values)) := by
  have hmapped := fun x => mem_dedup.trans (@mem_mapped_new sip k0 k1 m values queries x)
  have hpairs := (pairwise_mapped sip (.new k0 k1 m 19) (UInt64.ofNat values.length)
    queries).sublist (dedup_sublist _)
  simp only [matchAll, count_gcsContent]
  by_cases hq : queries = []
  · rw [if_pos ((isEmpty_iff_of_mem _ hmapped).mpr hq), decide_eq_true (by simp [hq])]
  · rw [if_neg fun h => hq ((isEmpty_iff_of_mem _ hmapped).mp h)]
    rcases values with _ | ⟨v, rest⟩
    · obtain ⟨q, hmem⟩ := List.exists_mem_of_ne_nil _ hq
      have hzero : UInt64.ofNat ([] : List UInt64).length = 0 := rfl
      rw [if_pos hzero, decide_eq_false fun h => List.not_mem_nil (h q hmem)]
    · have hlt := length_lt_of_below hrange hbelow
      rw [List.length_cons] at hmapped hpairs ⊢
      rw [if_neg (ofNat_ne_zero hlt)]
      obtain ⟨s, hrun, hs⟩ := @seekFrom_gcsContent (.new k0 k1 m 19) rfl .all v rest hsorted
        (dedup (mapped sip (.new k0 k1 m 19) (UInt64.ofNat (rest.length + 1)) queries))
      rw [hrun, seekAll_all (by change 19 < 64; decide) hpairs (Nat.lt_of_succ_lt hlt) hs]
      refine congrArg Except.ok (Bool.eq_iff_iff.mpr ?_)
      simp only [List.all_eq_true, decide_eq_true_eq]
      constructor
      · exact fun h q hq => h _ ((hmapped _).mpr ⟨q, hq, rfl⟩)
      · intro h x hx
        obtain ⟨q, hq, rfl⟩ := (hmapped x).mp hx
        exact h q hq

/-- **A filter matches exactly what it was made of**: any query in its range among the values, or all of
them. -/
theorem match_gcsContent :
    (GcsFilterReader.new k0 k1 m 19).matchAny sip (gcsContent values) queries
        = .ok (decide (queries = [] ∨ ∃ q ∈ queries,
          mapToRange (sip k0 k1 q) (UInt64.ofNat (values.length * m.toNat)) ∈ values))
      ∧ (GcsFilterReader.new k0 k1 m 19).matchAll sip (gcsContent values) queries
        = .ok (decide (∀ q ∈ queries,
          mapToRange (sip k0 k1 q) (UInt64.ofNat (values.length * m.toNat)) ∈ values)) :=
  ⟨matchAny_gcsContent sip k0 k1 m queries hsorted hrange hbelow,
    matchAll_gcsContent sip k0 k1 m queries hsorted hrange hbelow⟩

end Filter

/-- The statement for two values, at a hash that brings one query to a value and another beside it. -/
theorem match_two_values :
    (GcsFilterReader.new 1 2 M 19).matchAny (fun _ _ q => if q = [7] then 0x8000000000000000 else 0)
        (gcsContent [5, 784931]) [[7], [8]] = .ok true
      ∧ (GcsFilterReader.new 1 2 M 19).matchAll (fun _ _ q => if q = [7] then 0x8000000000000000 else 0)
        (gcsContent [5, 784931]) [[7], [8]] = .ok false := by
  obtain ⟨hany, hall⟩ := @match_gcsContent (fun _ _ q => if q = [7] then 0x8000000000000000 else 0) 1 2 M
    [5, 784931] [[7], [8]] (by decide) (by decide)
    (List.forall_mem_cons.mpr ⟨by decide, List.forall_mem_singleton.mpr (by decide)⟩)
  refine ⟨hany.trans ?_, hall.trans ?_⟩
  · decide +kernel
  · decide +kernel

end Bitspend.Filter
