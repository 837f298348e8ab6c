import Bitspend.Filter.Checked

/-!
# Filter/Returns — when matching returns

The content of a filter is the sender's: its count may be any, and its bits may end anywhere.  The pass
of a matcher reads the values in order up to the one it ends at (`Stops`); it returns exactly when the
bits hold the codes up to there and the value is in range (`Ends`).
-/

namespace Bitspend.Filter

/-! ## Which values are read -/

/-- **The pass ends at the `k`-th value**, which is `w`: no query is above it, or it is one and that is
enough, or a query was passed and that is enough. -/
def Stops (policy : GcsFilterReader.Policy) (queries : List UInt64) (value : ℕ → Option ℕ)
    (k w : ℕ) : Prop :=
  (∀ q ∈ queries, q.toNat ≤ w)
    ∨ (policy.onEqual.isSome ∧ ∃ q ∈ queries, q.toNat = w)
    ∨ (policy.onGreater.isSome ∧ ∃ q ∈ queries, q.toNat < w ∧ ∀ i ≤ k, value i ≠ some q.toNat)

/-- **The pass ends** at a value that is there and in range, the last of them at the latest. -/
def Ends (policy : GcsFilterReader.Policy) (queries : List UInt64) (value : ℕ → Option ℕ) (last : ℕ) :
    Prop :=
  ∃ k ≤ last, ∃ w < 2 ^ 64, value k = some w ∧ (k = last ∨ Stops policy queries value k w)

/-- A run that returns where a condition holds, and panics where it does not. -/
def ReturnsIff (x : Op IoError BitStreamReader Bool) (s : BitStreamReader) (p : Prop) : Prop :=
  (p ∧ ∃ b s', x s = (.ok b, s')) ∨ (¬p ∧ Panics x s)

section Ends

variable {policy : GcsFilterReader.Policy} {query : UInt64} {queries : List UInt64}
  {value : ℕ → Option ℕ} {v last : ℕ}

/-- A value below the next query is not where the pass ends. -/
theorem ends_succ_iff (hsorted : ∀ q ∈ queries, query ≤ q) (hzero : value 0 = some v)
    (hlt : v < query.toNat) :
    Ends policy (query :: queries) value (last + 1)
      ↔ Ends policy (query :: queries) (fun k => value (k + 1)) last := by
  have habove : ∀ q ∈ query :: queries, v < q.toNat := by
    intro q hq
    rcases List.mem_cons.mp hq with rfl | hq
    · exact hlt
    · exact hlt.trans_le (UInt64.le_iff_toNat_le.mp (hsorted q hq))
  have hstops : ∀ k w, Stops policy (query :: queries) value (k + 1) w
      ↔ Stops policy (query :: queries) (fun k => value (k + 1)) k w := by
    intro k w
    refine or_congr_right (or_congr_right (and_congr_right fun _ => ?_))
    refine exists_congr fun q => and_congr_right fun hq => and_congr_right fun _ => ?_
    constructor
    · exact fun h i hi => h (i + 1) (Nat.succ_le_succ hi)
    · intro h i hi
      rcases i with _ | i
      · rw [hzero]
        rintro ⟨⟩
        exact lt_irrefl _ (habove q hq)
      · exact h i (Nat.le_of_succ_le_succ hi)
  constructor
  · rintro ⟨k, hk, w, hw, hvalue, hend⟩
    rcases k with _ | k
    · -- at the value itself the pass does not end
      obtain rfl : v = w := Option.some.inj (hzero.symm.trans hvalue)
      rcases hend with h | h | ⟨-, q, hq, h⟩ | ⟨-, q, hq, h, -⟩
      · cases h
      · exact absurd (h query List.mem_cons_self) (not_le.mpr hlt)
      · exact absurd h (habove q hq).ne'
      · exact absurd h (habove q hq).le.not_gt
    · exact ⟨k, Nat.le_of_succ_le_succ hk, w, hw, hvalue,
        hend.imp Nat.succ.inj (hstops k w).mp⟩
  · rintro ⟨k, hk, w, hw, hvalue, hend⟩
    exact ⟨k + 1, Nat.succ_le_succ hk, w, hw, hvalue,
      hend.imp (congrArg Nat.succ) (hstops k w).mpr⟩

/-- A query that is met, or passed, where that is not enough, is done with. -/
theorem ends_cons_iff (hmono : ∀ k w, value k = some w → v ≤ w) (hzero : value 0 = some v)
    (hle : query.toNat ≤ v) (hequal : query.toNat = v → policy.onEqual = none)
    (hgreater : query.toNat < v → policy.onGreater = none) :
    Ends policy (query :: queries) value last ↔ Ends policy queries value last := by
  refine exists_congr fun k => and_congr_right fun _ => exists_congr fun w =>
    and_congr_right fun _ => and_congr_right fun hvalue => or_congr_right ?_
  have hvw := hmono k w hvalue
  rw [Stops, Stops, List.forall_mem_cons, and_iff_right (hle.trans hvw)]
  refine or_congr_right (or_congr ?_ ?_)
  · refine and_congr_right fun hsome => ?_
    rw [List.exists_mem_cons_iff, or_iff_right]
    rintro rfl
    obtain heq : query.toNat = v := le_antisymm hle hvw
    rw [hequal heq] at hsome
    cases hsome
  · refine and_congr_right fun hsome => ?_
    rw [List.exists_mem_cons_iff, or_iff_right]
    rintro ⟨-, hnew⟩
    rcases hle.lt_or_eq with hlt | heq
    · rw [hgreater hlt] at hsome
      cases hsome
    · exact hnew 0 (Nat.zero_le k) (by rw [hzero, heq])

/-- The values after the next code. -/
theorem ends_next_iff {p : ℕ} {bits : List Bool} :
    Ends policy queries (fun k => valueAt p v (k + 1) bits) last
      ↔ ∃ d rest, decodeCode p bits = some (d, rest) ∧ v + d < 2 ^ 64
        ∧ Ends policy queries (fun k => valueAt p (v + d) k rest) last := by
  rcases hcode : decodeCode p bits with _ | ⟨d, rest⟩
  · refine iff_of_false ?_ ?_
    · rintro ⟨k, -, w, -, hvalue, -⟩
      simp only [valueAt, hcode] at hvalue
      cases hvalue
    · rintro ⟨d, rest, h, -⟩
      cases h
  · simp only [valueAt, hcode]
    constructor
    · rintro ⟨k, hk, w, hw, hvalue, hend⟩
      exact ⟨d, rest, rfl, (le_of_valueAt hvalue).trans_lt hw, k, hk, w, hw, hvalue, hend⟩
    · rintro ⟨d', rest', h, -, hends⟩
      cases h
      exact hends

end Ends

namespace ReturnsIff

variable {x y : Op IoError BitStreamReader Bool} {s t : BitStreamReader} {p p' : Prop}

theorem congr (h : ReturnsIff x s p) (heq : x s = y t) (hp : p ↔ p') : ReturnsIff y t p' := by
  rw [ReturnsIff, Panics, ← heq, ← hp]
  exact h

theorem of_ok {b : Bool} {s' : BitStreamReader} (h : x s = (.ok b, s')) (hp : p) : ReturnsIff x s p :=
  .inl ⟨hp, b, s', h⟩

theorem safe_iff (h : ReturnsIff x s p) : Outcome.Safe (x s).1 ↔ p := by
  rcases h with ⟨hp, b, s', h⟩ | ⟨hp, msg, s', h⟩
  · rw [h]
    exact iff_of_true (.ok b) hp
  · rw [h]
    exact iff_of_false (fun hsafe => hsafe msg rfl) hp

/-- Reading a code and going on from there. -/
theorem decode {filter : GcsFilter} (hp : filter.p.toNat < 64) (hoff : s.offset ≤ 8)
    {f : UInt64 → Op IoError BitStreamReader Bool} {E : ℕ → List Bool → Prop}
    (h : ∀ d < 2 ^ 64, ∀ s' : BitStreamReader, s'.offset ≤ 8 →
      ReturnsIff (f (UInt64.ofNat d)) s' (E d s'.bits)) :
    ReturnsIff (unwrap filter.golombRiceDecodeChecked >>= f) s
      (∃ d rest, decodeCode filter.p.toNat s.bits = some (d, rest) ∧ d < 2 ^ 64 ∧ E d rest) := by
  have htakes := GcsFilter.takes_golombRiceDecode hp hoff
  rcases hcode : decodeCode filter.p.toNat s.bits with _ | ⟨d, rest⟩
  · rw [hcode] at htakes
    cases htakes with
    | short hpanic =>
      refine .inr ⟨?_, hpanic.unwrap.bind _⟩
      rintro ⟨d, rest, h, -⟩
      cases h
  · rw [hcode] at htakes
    cases htakes with
    | overflow hd hpanic =>
      refine .inr ⟨?_, hpanic.unwrap.bind _⟩
      rintro ⟨d', rest', h, hd', -⟩
      cases h
      omega
    | @fits _ _ s₁ hd hdecode hbits₁ hoff₁ =>
      refine (h d hd s₁ hoff₁).congr ?_ ?_
      · rw [Op.bind_apply, unwrap_of_ok hdecode]
      · rw [hbits₁]
        constructor
        · exact fun hE => ⟨d, rest, rfl, hd, hE⟩
        · rintro ⟨d', rest', h, -, hE⟩
          cases h
          exact hE

/-- Adding and going on from there. -/
theorem add {a b : ℕ} (ha : a < 2 ^ 64) (hb : b < 2 ^ 64)
    {f : UInt64 → Op IoError BitStreamReader Bool}
    (h : a + b < 2 ^ 64 → ReturnsIff (f (UInt64.ofNat (a + b))) s p) :
    ReturnsIff (Op.lift (addChecked (UInt64.ofNat a) (UInt64.ofNat b)) >>= f) s
      (a + b < 2 ^ 64 ∧ p) := by
  rcases lt_or_ge (a + b) (2 ^ 64) with hsum | hsum
  · refine (h hsum).congr ?_ (and_iff_right hsum).symm
    rw [Op.bind_apply, addChecked_ofNat hsum]
    rfl
  · obtain ⟨msg, hadd⟩ := addChecked_overflow ha hb hsum
    refine .inr ⟨fun h => not_lt.mpr hsum h.1, msg, s, ?_⟩
    rw [Op.bind_apply, hadd]
    rfl

end ReturnsIff

namespace GcsFilterReader

section Rounds

variable {reader : GcsFilterReader} {policy : Policy} {query : UInt64} {queries : List UInt64}
  {x : UInt64 × UInt64} {s : BitStreamReader}

/-- A query that ends its loop in the first round, with the answer… -/
theorem seekAllChecked_of_answer (queries : List UInt64) {b : Bool}
    (h : reader.seekRoundChecked policy query x s = (.ok (.inr (leave (some b) x)), s)) :
    reader.seekAllChecked policy (query :: queries) x s = (.ok b, s) := by
  rw [seekAllChecked, Op.bind_apply, Op.loop_succ, h]
  rfl

/-- …or for the next query. -/
theorem seekAllChecked_of_next (queries : List UInt64)
    (h : reader.seekRoundChecked policy query x s = (.ok (.inr (leave none x)), s)) :
    reader.seekAllChecked policy (query :: queries) x s
      = reader.seekAllChecked policy queries x s := by
  rw [seekAllChecked, Op.bind_apply, Op.loop_succ, h]
  rfl

/-- At the query itself a round leaves by the first of the policy's answers… -/
theorem seekRoundChecked_of_eq (heq : x.1 = query) :
    reader.seekRoundChecked policy query x s = (.ok (.inr (leave policy.onEqual x)), s) := by
  rw [seekRoundChecked, compare_eq, if_neg (heq ▸ UInt64.lt_irrefl _), if_pos heq]
  rfl

/-- …and past it by the second. -/
theorem seekRoundChecked_of_gt (hgt : query < x.1) :
    reader.seekRoundChecked policy query x s = (.ok (.inr (leave policy.onGreater x)), s) := by
  rw [seekRoundChecked, compare_eq, if_neg (UInt64.lt_asymm hgt), if_neg (UInt64.ne_of_lt hgt).symm]
  rfl

/-- At a value below the query the stream is moved on by one. -/
theorem seekAllChecked_of_lt (hlt : x.1 < query) (hpos : 0 < x.2) :
    reader.seekAllChecked policy (query :: queries) x s = (do
      let delta ← unwrap reader.filter.golombRiceDecodeChecked
      let data ← Op.lift (addChecked x.1 delta)
      reader.seekAllChecked policy (query :: queries) (data, x.2 - 1) :
        Op IoError BitStreamReader Bool) s := by
  have hrounds : x.2.toNat = (x.2 - 1).toNat + 1 := by
    have hone : (1 : UInt64) ≤ x.2 := by
      rw [UInt64.le_iff_toNat_le]
      exact UInt64.lt_iff_toNat_lt.mp hpos
    have hsub := UInt64.toNat_sub_of_le _ _ hone
    rw [UInt64.le_iff_toNat_le] at hone
    change 1 ≤ x.2.toNat at hone
    change (x.2 - 1).toNat = x.2.toNat - 1 at hsub
    omega
  rw [seekAllChecked, Op.bind_apply, Op.loop_succ, seekRoundChecked, compare_eq, if_pos hlt]
  dsimp only
  rw [if_pos hpos, Op.bind_apply, Op.bind_apply]
  rcases unwrap reader.filter.golombRiceDecodeChecked s with ⟨_ | delta, s'⟩
  · rfl
  · dsimp only
    rw [Op.bind_apply, Op.bind_apply]
    rcases (Op.lift (addChecked x.1 delta) : Op IoError BitStreamReader UInt64) s' with ⟨_ | data, s''⟩
    · rfl
    · dsimp only
      rw [seekAllChecked, Op.bind_apply, ← hrounds]
      rfl

end Rounds

section Pass

variable {reader : GcsFilterReader} (hp : reader.filter.p.toNat < 64) (policy : Policy)

/-- A query that the value has reached, once the others are settled. -/
theorem returnsIff_cons_of_le {query : UInt64} {queries : List UInt64} {v m : ℕ} (hv : v < 2 ^ 64)
    {s : BitStreamReader} (hle : query.toNat ≤ v)
    (h : ReturnsIff (reader.seekAllChecked policy queries (UInt64.ofNat v, UInt64.ofNat m)) s
      (Ends policy queries (fun k => valueAt reader.filter.p.toNat v k s.bits) m)) :
    ReturnsIff (reader.seekAllChecked policy (query :: queries) (UInt64.ofNat v, UInt64.ofNat m)) s
      (Ends policy (query :: queries) (fun k => valueAt reader.filter.p.toNat v k s.bits) m) := by
  have hvN : (UInt64.ofNat v).toNat = v := UInt64.toNat_ofNat_of_lt' hv
  have hmono : ∀ k w, valueAt reader.filter.p.toNat v k s.bits = some w → v ≤ w :=
    fun k w h => le_of_valueAt h
  rcases hle.eq_or_lt with heq | hlt
  · have hround : reader.seekRoundChecked policy query (UInt64.ofNat v, UInt64.ofNat m) s
        = (.ok (.inr (leave policy.onEqual (UInt64.ofNat v, UInt64.ofNat m))), s) :=
      seekRoundChecked_of_eq (UInt64.toNat_inj.mp (hvN.trans heq.symm))
    rcases hanswer : policy.onEqual with _ | b
    · rw [hanswer] at hround
      refine h.congr (seekAllChecked_of_next queries hround).symm ?_
      exact (ends_cons_iff hmono rfl hle (fun _ => hanswer) fun h => absurd h heq.ge.not_gt).symm
    · rw [hanswer] at hround
      refine .of_ok (seekAllChecked_of_answer queries hround)
        ⟨0, Nat.zero_le m, v, hv, rfl, .inr (.inr (.inl ⟨?_, query, List.mem_cons_self, heq⟩))⟩
      rw [hanswer]
      rfl
  · have hround : reader.seekRoundChecked policy query (UInt64.ofNat v, UInt64.ofNat m) s
        = (.ok (.inr (leave policy.onGreater (UInt64.ofNat v, UInt64.ofNat m))), s) := by
      refine seekRoundChecked_of_gt ?_
      rw [UInt64.lt_iff_toNat_lt]
      exact hlt.trans_eq hvN.symm
    rcases hanswer : policy.onGreater with _ | b
    · rw [hanswer] at hround
      refine h.congr (seekAllChecked_of_next queries hround).symm ?_
      exact (ends_cons_iff hmono rfl hle (fun h => absurd h hlt.ne) fun _ => hanswer).symm
    · rw [hanswer] at hround
      refine .of_ok (seekAllChecked_of_answer queries hround)
        ⟨0, Nat.zero_le m, v, hv, rfl, .inr (.inr (.inr ⟨?_, query, List.mem_cons_self, hlt, ?_⟩))⟩
      · rw [hanswer]
        rfl
      · intro i hi
        obtain rfl := Nat.le_zero.mp hi
        rintro ⟨⟩
        exact lt_irrefl _ hlt

include hp

/-- A value below the query, once the values after it are settled: the next code is read and added. -/
theorem returnsIff_cons_of_lt {query : UInt64} {queries : List UInt64}
    (hsorted : ∀ q ∈ queries, query ≤ q) {v m : ℕ} (hv : v < 2 ^ 64) (hm : m + 1 < 2 ^ 64)
    {s : BitStreamReader} (hoff : s.offset ≤ 8) (hlt : v < query.toNat)
    (h : ∀ v' < 2 ^ 64, ∀ s' : BitStreamReader, s'.offset ≤ 8 →
      ReturnsIff (reader.seekAllChecked policy (query :: queries) (UInt64.ofNat v', UInt64.ofNat m)) s'
        (Ends policy (query :: queries) (fun k => valueAt reader.filter.p.toNat v' k s'.bits) m)) :
    ReturnsIff (reader.seekAllChecked policy (query :: queries)
        (UInt64.ofNat v, UInt64.ofNat (m + 1))) s
      (Ends policy (query :: queries) (fun k => valueAt reader.filter.p.toNat v k s.bits) (m + 1)) := by
  have hltU : UInt64.ofNat v < query := by rwa [UInt64.lt_iff_toNat_lt, UInt64.toNat_ofNat_of_lt' hv]
  have hpos : 0 < UInt64.ofNat (m + 1) := by
    rw [UInt64.lt_iff_toNat_lt, UInt64.toNat_ofNat_of_lt' hm]
    exact Nat.succ_pos m
  have hleft : UInt64.ofNat (m + 1) - 1 = UInt64.ofNat m := by
    rw [UInt64.ofNat_add]
    exact UInt64.add_sub_cancel _ _
  have hrun := @seekAllChecked_of_lt reader policy query queries
    (UInt64.ofNat v, UInt64.ofNat (m + 1)) s hltU hpos
  dsimp only at hrun
  rw [hleft] at hrun
  refine (ReturnsIff.decode (E := fun d rest => v + d < 2 ^ 64 ∧ Ends policy (query :: queries)
    (fun k => valueAt reader.filter.p.toNat (v + d) k rest) m) hp hoff fun d hd s₁ hoff₁ =>
      .add hv hd fun hsum => h (v + d) hsum s₁ hoff₁).congr hrun.symm ?_
  have hends := @ends_succ_iff policy query queries
    (fun k => valueAt reader.filter.p.toNat v k s.bits) v m hsorted rfl hlt
  rw [hends, ends_next_iff]
  refine exists_congr fun d => exists_congr fun rest => and_congr_right fun _ => ?_
  exact and_iff_right_of_imp fun hsum => by omega

/-- **The pass returns exactly where it ends.** -/
theorem seekAllChecked_returnsIff {queries : List UInt64} (hsorted : queries.Pairwise (· ≤ ·))
    {v m : ℕ} (hv : v < 2 ^ 64) (hm : m < 2 ^ 64) {s : BitStreamReader} (hoff : s.offset ≤ 8) :
    ReturnsIff (reader.seekAllChecked policy queries (UInt64.ofNat v, UInt64.ofNat m)) s
      (Ends policy queries (fun k => valueAt reader.filter.p.toNat v k s.bits) m) := by
  induction queries generalizing v m s with
  | nil =>
    refine .of_ok rfl ⟨0, Nat.zero_le m, v, hv, rfl, .inr (.inl ?_)⟩
    exact fun q hq => absurd hq List.not_mem_nil
  | cons query queries ih =>
    obtain ⟨hfirst, hothers⟩ := List.pairwise_cons.mp hsorted
    induction m generalizing v s with
    | zero =>
      rcases le_or_gt query.toNat v with hle | hlt
      · exact returnsIff_cons_of_le policy hv hle (ih hothers hv hm hoff)
      · have hround : reader.seekRoundChecked policy query (UInt64.ofNat v, UInt64.ofNat 0) s
            = (.ok (.inr (leave (some false) (UInt64.ofNat v, UInt64.ofNat 0))), s) := by
          rw [seekRoundChecked, compare_eq, if_pos]
          · rfl
          · rwa [UInt64.lt_iff_toNat_lt, UInt64.toNat_ofNat_of_lt' hv]
        exact .of_ok (seekAllChecked_of_answer queries hround) ⟨0, le_rfl, v, hv, rfl, .inl rfl⟩
    | succ m ihm =>
      rcases le_or_gt query.toNat v with hle | hlt
      · exact returnsIff_cons_of_le policy hv hle (ih hothers hv hm hoff)
      · exact returnsIff_cons_of_lt hp policy hfirst hv hm hoff hlt
          fun v' hv' s' hoff' => ihm hv' (Nat.lt_of_succ_lt hm) hoff'

/-- **…from the first value on.** -/
theorem seekFromChecked_returnsIff {queries : List UInt64} (hsorted : queries.Pairwise (· ≤ ·))
    {n : UInt64} (hn : n ≠ 0) {s : BitStreamReader} (hoff : s.offset ≤ 8) :
    ReturnsIff (reader.seekFromChecked policy n queries) s
      (Ends policy queries (fun k => valueAt reader.filter.p.toNat 0 (k + 1) s.bits)
        (n.toNat - 1)) := by
  have hone : (1 : UInt64) ≤ n := by
    rw [UInt64.le_iff_toNat_le]
    exact Nat.one_le_iff_ne_zero.mpr fun h => hn (UInt64.toNat_inj.mp h)
  have hleft : n - 1 = UInt64.ofNat (n.toNat - 1) := by
    apply UInt64.toNat_inj.mp
    have hlt : n.toNat - 1 < 2 ^ 64 := (Nat.sub_le _ _).trans_lt n.toNat_lt
    rw [UInt64.toNat_ofNat_of_lt' hlt, UInt64.toNat_sub_of_le _ _ hone]
    rfl
  have hlt : n.toNat - 1 < 2 ^ 64 := (Nat.sub_le _ _).trans_lt n.toNat_lt
  refine (ReturnsIff.decode (f := fun data => reader.seekAllChecked policy queries
    (data, UInt64.ofNat (n.toNat - 1))) (E := fun d rest => Ends policy queries
    (fun k => valueAt reader.filter.p.toNat d k rest) (n.toNat - 1)) hp hoff fun d hd s₁ hoff₁ =>
      seekAllChecked_returnsIff hp policy hsorted hd hlt hoff₁).congr ?_ ?_
  · rw [seekFromChecked, hleft]
  · rw [ends_next_iff]
    simp only [Nat.zero_add]

end Pass

/-- What `match_any` and `match_all` do once the queries are in their range. -/
theorem seek_safe_iff {reader : GcsFilterReader} (hp : reader.filter.p.toNat < 64) (policy : Policy)
    {queries : List UInt64} (hsorted : queries.Pairwise (· ≤ ·)) (hne : queries ≠ []) (n : UInt64)
    (rest : List UInt8) :
    Outcome.Safe (do
        let _ ← mulChecked n reader.m
        if queries.isEmpty then .ok true
        else if n = 0 then .ok false
        else (reader.seekFromChecked policy n queries (.new rest)).1 : Outcome IoError Bool)
      ↔ n = 0 ∨ (n.toNat * reader.m.toNat < 2 ^ 64
        ∧ Ends policy queries
          (fun k => valueAt reader.filter.p.toNat 0 (k + 1) (rest.flatMap byteBits))
          (n.toNat - 1)) := by
  have hempty : ¬queries.isEmpty = true := fun h => hne (List.isEmpty_iff.mp h)
  rw [if_neg hempty, mulChecked]
  by_cases hn : n = 0
  · have hzero : n.toNat * reader.m.toNat < 2 ^ 64 := by
      rw [hn]
      exact Nat.zero_mul reader.m.toNat ▸ by decide
    rw [if_pos hzero, if_pos hn]
    exact iff_of_true (.ok false) (.inl hn)
  · rw [if_neg hn, or_iff_right hn]
    by_cases hmul : n.toNat * reader.m.toNat < 2 ^ 64
    · rw [if_pos hmul, and_iff_right hmul]
      have hreturns := seekFromChecked_returnsIff hp policy hsorted hn
        (s := BitStreamReader.new rest) le_rfl
      rw [BitStreamReader.bits_new] at hreturns
      exact hreturns.safe_iff
    · rw [if_neg hmul]
      exact iff_of_false (fun hsafe => hsafe _ rfl) fun h => hmul h.1

/-- Where the checked run does not panic, the other one does not. -/
theorem safe_of_checked {reader : GcsFilterReader} (hp : reader.filter.p.toNat < 64) (policy : Policy)
    {queries : List UInt64} (hsorted : queries.Pairwise (· ≤ ·)) (n : UInt64) (rest : List UInt8)
    (h : Outcome.Safe (do
        let _ ← mulChecked n reader.m
        if queries.isEmpty then .ok true
        else if n = 0 then .ok false
        else (reader.seekFromChecked policy n queries (.new rest)).1 : Outcome IoError Bool)) :
    Outcome.Safe (if queries.isEmpty then .ok true
      else if n = 0 then .ok false
      else (reader.seekFrom policy n queries (.new rest)).1 : Outcome IoError Bool) := by
  split
  · exact .ok true
  · rename_i hempty
    split
    · exact .ok false
    · rename_i hn
      rw [if_neg hempty, if_neg hn, mulChecked] at h
      split at h
      · rcases seekFromChecked_returnsIff hp policy hsorted hn
          (s := BitStreamReader.new rest) le_rfl with ⟨-, b, s', hok⟩ | ⟨-, msg, s', hpanic⟩
        · rw [within_seekFrom reader policy n queries _ b s' hok]
          exact .ok b
        · exact absurd (congrArg Prod.fst hpanic) (h msg)
      · exact absurd rfl (h _)

end GcsFilterReader

/-- The pass ends or not by which queries there are, whatever their order. -/
theorem ends_congr {policy : GcsFilterReader.Policy} {queries queries' : List UInt64}
    (h : ∀ q, q ∈ queries ↔ q ∈ queries') {value : ℕ → Option ℕ} {last : ℕ} :
    Ends policy queries value last ↔ Ends policy queries' value last := by
  simp only [Ends, Stops, h]

/-! ## Block filters -/

namespace BlockFilter

/-- **A content that can be matched**: no elements; or so many that their range fits a `u64`, and bits
that hold, below `2^64`, the value at which the pass ends. -/
def Readable (policy : GcsFilterReader.Policy) (sip : SipHash) (filter : BlockFilter)
    (blockHash : Hash256) (queries : List (List UInt8)) : Prop :=
  (GcsFilterReader.count filter.content).1 = 0
    ∨ ((GcsFilterReader.count filter.content).1.toNat * M.toNat < 2 ^ 64
      ∧ Ends policy
        (GcsFilterReader.mapped sip (blockFilterReader blockHash)
          (GcsFilterReader.count filter.content).1 queries)
        (fun k => valueAt P.toNat 0 (k + 1)
          ((GcsFilterReader.count filter.content).2.flatMap byteBits))
        ((GcsFilterReader.count filter.content).1.toNat - 1))

section Match

variable (sip : SipHash) (filter : BlockFilter) (blockHash : Hash256) {queries : List (List UInt8)}

theorem p_toNat_lt (blockHash : Hash256) : (blockFilterReader blockHash).filter.p.toNat < 64 := by
  change 19 < 64
  decide

theorem mapped_ne_nil {reader : GcsFilterReader} {n : UInt64} (h : queries ≠ []) :
    GcsFilterReader.mapped sip reader n queries ≠ [] := by
  intro hnil
  have hempty := GcsFilterReader.isEmpty_iff_of_mem _ fun x => @GcsFilterReader.mem_mapped sip reader n queries x
  exact h (hempty.mp (List.isEmpty_iff.mpr hnil))

theorem matchAnyChecked_safe_iff (h : queries ≠ []) :
    Outcome.Safe (filter.matchAnyChecked sip blockHash queries)
      ↔ filter.Readable .any sip blockHash queries :=
  GcsFilterReader.seek_safe_iff (p_toNat_lt blockHash) .any
    (GcsFilterReader.pairwise_mapped sip _ _ queries) (mapped_ne_nil sip h) _ _

theorem matchAllChecked_safe_iff (h : queries ≠ []) :
    Outcome.Safe (filter.matchAllChecked sip blockHash queries)
      ↔ filter.Readable .all sip blockHash queries := by
  have hmem := fun n q => @GcsFilterReader.mem_dedup q
    (GcsFilterReader.mapped sip (blockFilterReader blockHash) n queries)
  have hne : GcsFilterReader.dedup (GcsFilterReader.mapped sip (blockFilterReader blockHash)
      (GcsFilterReader.count filter.content).1 queries) ≠ [] := by
    obtain ⟨q, hq⟩ := List.exists_mem_of_ne_nil _ (mapped_ne_nil sip h)
    exact List.ne_nil_of_mem ((hmem _ q).mpr hq)
  refine (GcsFilterReader.seek_safe_iff (p_toNat_lt blockHash) .all
    ((GcsFilterReader.pairwise_mapped sip _ _ queries).sublist (GcsFilterReader.dedup_sublist _))
    hne _ _).trans ?_
  exact or_congr_right (and_congr_right fun _ => ends_congr (hmem _))

/-- **Matching panics on no readable content, and on every other**: neither matcher, as it is and with
its arithmetic checked, panics exactly when the content can be matched. -/
theorem match_safe_iff (h : queries ≠ []) :
    (Outcome.Safe (filter.matchAny sip blockHash queries)
        ∧ Outcome.Safe (filter.matchAnyChecked sip blockHash queries)
      ↔ filter.Readable .any sip blockHash queries)
    ∧ (Outcome.Safe (filter.matchAll sip blockHash queries)
        ∧ Outcome.Safe (filter.matchAllChecked sip blockHash queries)
      ↔ filter.Readable .all sip blockHash queries) := by
  rw [← matchAnyChecked_safe_iff sip filter blockHash h,
    ← matchAllChecked_safe_iff sip filter blockHash h]
  constructor
  · exact and_iff_right_of_imp (GcsFilterReader.safe_of_checked (p_toNat_lt blockHash) .any
      (GcsFilterReader.pairwise_mapped sip _ _ queries) _ _)
  · exact and_iff_right_of_imp (GcsFilterReader.safe_of_checked (p_toNat_lt blockHash) .all
      ((GcsFilterReader.pairwise_mapped sip _ _ queries).sublist (GcsFilterReader.dedup_sublist _))
      _ _)

end Match

/-- Two values, looked through to the second. -/
theorem match_safe_iff_two_values :
    Outcome.Safe (BlockFilter.matchAny (fun _ _ q => if q = [7] then 0x8000000000000000 else 0xffffffffffffffff)
        ⟨gcsContent [5, 784931]⟩ ⟨List.replicate 32 0, by simp⟩ [[8]])
      ∧ Outcome.Safe (BlockFilter.matchAll (fun _ _ q => if q = [7] then 0x8000000000000000 else 0xffffffffffffffff)
        ⟨gcsContent [5, 784931]⟩ ⟨List.replicate 32 0, by simp⟩ [[8]]) := by
  obtain ⟨hany, hall⟩ := @match_safe_iff (fun _ _ q => if q = [7] then 0x8000000000000000 else 0xffffffffffffffff)
    ⟨gcsContent [5, 784931]⟩ ⟨List.replicate 32 0, by simp⟩ [[8]] (by decide)
  have hvalue : valueAt 19 0 2 ((GcsFilterReader.count (gcsContent [5, 784931])).2.flatMap byteBits)
      = some 784931 := by decide +kernel
  exact ⟨(hany.mpr (.inr ⟨by decide +kernel, 1, by decide +kernel, 784931, by decide, hvalue,
      .inl (by decide +kernel)⟩)).1,
    (hall.mpr (.inr ⟨by decide +kernel, 1, by decide +kernel, 784931, by decide, hvalue,
      .inl (by decide +kernel)⟩)).1⟩

/-- **One byte is enough**: a count of one, with no bits behind it. -/
theorem not_match_safe :
    BlockFilter.matchAny (fun _ _ _ => 0) ⟨[1]⟩ ⟨List.replicate 32 0, by simp⟩ [[0x51]]
        = .error (.panic "called `Result::unwrap()` on an `Err` value")
      ∧ BlockFilter.matchAll (fun _ _ _ => 0) ⟨[1]⟩ ⟨List.replicate 32 0, by simp⟩ [[0x51]]
        = .error (.panic "called `Result::unwrap()` on an `Err` value") := by
  constructor
  · decide +kernel
  · decide +kernel

end BlockFilter

end Bitspend.Filter
