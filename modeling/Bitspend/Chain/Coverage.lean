import Bitspend.Chain.CompactChain

/-!
# Chain/Coverage — which blocks a sync has looked at

A block whose range was never scanned is never looked at again once the state has moved past it, so
the question is whether the ranges of a round reach its last height.  They start at every
`FILTER_SIZE`-th height *before* the last one; so the last height is missed exactly when it would
start a range of its own.
-/

namespace Bitspend.Chain

open Wire Wallet

variable {Xpub : Type}

/-! ## The ranges of a round -/

/-- The first and last heights of the ranges of a round of `n` headers that starts at `start`. -/
def roundRanges (start n : ℕ) : List (ℕ × ℕ) :=
  (rangeStarts start (start + (n - 1))).map fun x => (x.1, start + min (x.2 - 1) (n - 1))

/-- **The ranges tile an interval of heights**: no two share a height, and together they hold exactly
those of the interval. -/
structure Tiles (ranges : List (ℕ × ℕ)) (lo hi : ℕ) : Prop where
  disjoint : ranges.Pairwise fun a b => ∀ h, ¬((a.1 ≤ h ∧ h ≤ a.2) ∧ b.1 ≤ h ∧ h ≤ b.2)
  union : ∀ h, (∃ r ∈ ranges, r.1 ≤ h ∧ h ≤ r.2) ↔ lo ≤ h ∧ h ≤ hi

/-- How many ranges a round of `n` headers has. -/
def rangeCount (n : ℕ) : ℕ := if n ≤ 1 then 1 else (n - 1 + 499) / 500

theorem length_blockNumbers (start n : ℕ) :
    (blockNumbers start (start + (n - 1))).length = rangeCount n := by
  unfold blockNumbers rangeCount stepBy FILTER_SIZE
  split_ifs with h₁ h₂ h₂
  · omega
  · simp
  · rfl
  · omega

theorem getElem?_blockNumbers {start n i : ℕ} (hi : i < rangeCount n) :
    (blockNumbers start (start + (n - 1)))[i]? = some (start + 500 * i) := by
  unfold rangeCount at hi
  unfold blockNumbers stepBy FILTER_SIZE
  split_ifs at hi ⊢ with h₁ h₂ h₂
  · omega
  · rw [List.getElem?_map, List.getElem?_range (by omega)]
    rfl
  · obtain rfl : i = 0 := by omega
    rfl
  · omega

/-- The ranges, in closed form: full ones, and a last one cut off at the last header. -/
theorem roundRanges_eq (start n : ℕ) :
    roundRanges start n = (List.range (rangeCount n)).map fun i =>
      (start + 500 * i, start + min (500 * i + 499) (n - 1)) := by
  refine List.ext_getElem? fun i => ?_
  rcases Nat.lt_or_ge i (rangeCount n) with hi | hi
  · rw [roundRanges, rangeStarts, List.map_map, List.getElem?_map, List.getElem?_map,
      List.getElem?_zipIdx, getElem?_blockNumbers hi, List.getElem?_range hi]
    simp only [Option.map_some, Function.comp_apply, FILTER_SIZE, zero_add, Option.some_inj,
      Prod.mk.injEq, true_and]
    omega
  · have hlen := length_blockNumbers start n
    rw [List.getElem?_eq_none (by simpa [roundRanges, rangeStarts, hlen] using hi),
      List.getElem?_eq_none (by simpa using hi)]

theorem mem_roundRanges {start n : ℕ} {r : ℕ × ℕ} :
    r ∈ roundRanges start n ↔ ∃ i < rangeCount n,
      r = (start + 500 * i, start + min (500 * i + 499) (n - 1)) := by
  rw [roundRanges_eq, List.mem_map]
  simp only [List.mem_range, eq_comm]

theorem roundRanges_disjoint (start n : ℕ) :
    (roundRanges start n).Pairwise fun a b => ∀ h, ¬((a.1 ≤ h ∧ h ≤ a.2) ∧ b.1 ≤ h ∧ h ≤ b.2) := by
  rw [roundRanges_eq, List.pairwise_map]
  refine List.pairwise_lt_range.imp fun {i j} hij h => ?_
  simp only
  omega

/-- Unless the last height would start a range, every height of the round is in one… -/
theorem roundRanges_covers {start n h : ℕ} (hn : n = 1 ∨ n % FILTER_SIZE ≠ 1) (hlo : start ≤ h)
    (hhi : h ≤ start + (n - 1)) (hpos : 1 ≤ n) :
    ∃ r ∈ roundRanges start n, r.1 ≤ h ∧ h ≤ r.2 := by
  refine ⟨_, mem_roundRanges.mpr ⟨(h - start) / 500, ?_, rfl⟩, ?_, ?_⟩
  · unfold rangeCount
    unfold FILTER_SIZE at hn
    split_ifs <;> omega
  · simp only
    omega
  · simp only
    omega

/-- …**and the ranges tile the round in no other case.** -/
theorem tiles_roundRanges_iff (start : ℕ) {n : ℕ} (hn : 1 ≤ n) :
    Tiles (roundRanges start n) start (start + (n - 1)) ↔ n = 1 ∨ n % FILTER_SIZE ≠ 1 := by
  constructor
  · intro ht
    by_contra hbad
    obtain ⟨r, hr, hlo, hhi⟩ := (ht.union (start + (n - 1))).mpr ⟨by omega, le_rfl⟩
    obtain ⟨i, hi, rfl⟩ := mem_roundRanges.mp hr
    unfold FILTER_SIZE at hbad
    unfold rangeCount at hi
    simp only at hlo hhi
    split_ifs at hi <;> omega
  · intro hok
    refine ⟨roundRanges_disjoint start n, fun h => ⟨?_, fun hh => ?_⟩⟩
    · rintro ⟨r, hr, hlo, hhi⟩
      obtain ⟨i, -, rfl⟩ := mem_roundRanges.mp hr
      simp only at hlo hhi
      omega
    · exact roundRanges_covers hok hh.1 hh.2 hn

/-- The stop of a range is the header at its last height. -/
theorem stopHash_eq (lib : ChainLib) {fetched : List BlockHeader} {last : BlockHeader} {counter : ℕ}
    (hlast : fetched.getLast? = some last) :
    some (lib.stopHash fetched (last.hash lib.sha256) counter)
      = fetched[min (counter - 1) (fetched.length - 1)]?.map (BlockHeader.hash lib.sha256) := by
  unfold ChainLib.stopHash
  rcases Nat.lt_or_ge (counter - 1) fetched.length with h | h
  · rw [min_eq_left (by omega), List.getElem?_eq_getElem h]
    rfl
  · rw [min_eq_right (by omega), List.getElem?_eq_none h, ← List.getLast?_eq_getElem?, hlast]
    rfl

/-! ## What has been covered -/

/-- The height of the state after what was recorded. -/
def heightAfter (initial : ℕ) (log : List SyncEvent) : ℕ :=
  log.foldl (fun height e =>
    match e with
    | .advanced height' => height'
    | .scanned .. => height) initial

namespace SyncEvent

/-- The event is a scan of a range that holds the height. -/
def Looked (h : ℕ) : SyncEvent → Prop
  | .scanned startHeight _ stopHeight => startHeight.toNat ≤ h ∧ h ≤ stopHeight
  | .advanced _ => False

/-- The event is a scan. -/
def IsScan : SyncEvent → Prop
  | .scanned .. => True
  | .advanced _ => False

end SyncEvent

/-- Every height the state has moved past is in a range that was scanned. -/
def Covered (initial : ℕ) (log : List SyncEvent) : Prop :=
  ∀ h, initial < h → h ≤ heightAfter initial log → ∃ e ∈ log, e.Looked h

/-- **…and this held at every moment**: after each event of the record. -/
def AlwaysCovered (initial : ℕ) (log : List SyncEvent) : Prop :=
  ∀ l, l <+: log → Covered initial l

theorem heightAfter_append_scans {initial : ℕ} {log es : List SyncEvent}
    (hes : ∀ e ∈ es, e.IsScan) : heightAfter initial (log ++ es) = heightAfter initial log := by
  induction es generalizing log with
  | nil => rw [List.append_nil]
  | cons e es ih =>
    have hrest := @ih (log ++ [e]) fun e' he' => hes e' (List.mem_cons_of_mem e he')
    rw [List.append_cons, hrest, heightAfter, List.foldl_append]
    rcases e with _ | _
    · rfl
    · exact (hes _ List.mem_cons_self).elim

theorem heightAfter_append_advanced (initial : ℕ) (log : List SyncEvent) (h : ℕ) :
    heightAfter initial (log ++ [.advanced h]) = h := by
  rw [heightAfter, List.foldl_append]
  rfl

theorem Covered.append_scans {initial : ℕ} {log es : List SyncEvent} (hlog : Covered initial log)
    (hes : ∀ e ∈ es, e.IsScan) : Covered initial (log ++ es) := by
  intro h hlo hhi
  rw [heightAfter_append_scans hes] at hhi
  obtain ⟨e, he, hlook⟩ := hlog h hlo hhi
  exact ⟨e, List.mem_append_left es he, hlook⟩

/-- The record of a prefix of what follows a record is the record of an earlier moment, or of one in
between. -/
theorem prefix_append_cases {l log es : List SyncEvent} (h : l <+: log ++ es) :
    l <+: log ∨ ∃ es', es' <+: es ∧ l = log ++ es' := by
  rcases Nat.le_total l.length log.length with hlen | hlen
  · exact .inl (List.prefix_of_prefix_length_le h (List.prefix_append log es) hlen)
  · obtain ⟨es', rfl⟩ := List.prefix_of_prefix_length_le (List.prefix_append log es) h hlen
    exact .inr ⟨es', (List.prefix_append_right_inj log).mp h, rfl⟩

/-- **Scans keep the record covered**… -/
theorem AlwaysCovered.append_scans {initial : ℕ} {log es : List SyncEvent}
    (hlog : AlwaysCovered initial log) (hes : ∀ e ∈ es, e.IsScan) :
    AlwaysCovered initial (log ++ es) := by
  intro l hl
  rcases prefix_append_cases hl with hl | ⟨es', hes', rfl⟩
  · exact hlog l hl
  · exact (hlog log List.prefix_rfl).append_scans fun e he => hes e (hes'.subset he)

/-- **…and so does moving past heights that were all scanned.** -/
theorem AlwaysCovered.append_advanced {initial height : ℕ} {log : List SyncEvent}
    (hlog : AlwaysCovered initial log)
    (hnew : ∀ h, heightAfter initial log < h → h ≤ height → ∃ e ∈ log, e.Looked h) :
    AlwaysCovered initial (log ++ [.advanced height]) := by
  intro l hl
  rcases prefix_append_cases hl with hl | ⟨es', hes', rfl⟩
  · exact hlog l hl
  · rcases List.prefix_cons_iff.mp hes' with rfl | ⟨t, rfl, ht⟩
    · rw [List.append_nil]
      exact hlog log List.prefix_rfl
    · obtain rfl := List.prefix_nil.mp ht
      intro h hlo hhi
      rw [heightAfter_append_advanced] at hhi
      have hcov : ∃ e ∈ log, e.Looked h := by
        rcases Nat.lt_or_ge (heightAfter initial log) h with hh | hh
        · exact hnew h hh hhi
        · exact hlog log List.prefix_rfl h hlo hh
      obtain ⟨e, he, hlook⟩ := hcov
      exact ⟨e, List.mem_append_left _ he, hlook⟩

/-! ## What a round does -/

/-- After calls that neither finish a range nor move the state. -/
structure Follows (c c' : CompactChain Xpub) : Prop where
  log : c'.log = c.log
  chainState : c'.chainState = c.chainState
  incoming : c'.p2p.incoming <:+ c.p2p.incoming

theorem Follows.refl (c : CompactChain Xpub) : Follows c c := ⟨rfl, rfl, List.suffix_rfl⟩

/-- After calls that may finish ranges but do not move the state. -/
structure Scans (c c' : CompactChain Xpub) : Prop where
  log : ∃ es, (∀ e ∈ es, e.IsScan) ∧ c'.log = c.log ++ es
  chainState : c'.chainState = c.chainState
  incoming : c'.p2p.incoming <:+ c.p2p.incoming

theorem Scans.follows {c c₁ c₂ : CompactChain Xpub} (h₁ : Scans c c₁) (h₂ : Follows c₁ c₂) :
    Scans c c₂ := by
  obtain ⟨es, hes, hlog⟩ := h₁.log
  exact ⟨⟨es, hes, h₂.log.trans hlog⟩, h₂.chainState.trans h₁.chainState,
    h₂.incoming.trans h₁.incoming⟩

theorem Scans.refl (c : CompactChain Xpub) : Scans c c :=
  ⟨⟨[], by simp, by simp⟩, rfl, List.suffix_rfl⟩

theorem Follows.scans {c c₁ c₂ : CompactChain Xpub} (h₁ : Follows c c₁) (h₂ : Scans c₁ c₂) :
    Scans c c₂ := by
  obtain ⟨es, hes, hlog⟩ := h₂.log
  exact ⟨⟨es, hes, by rw [hlog, h₁.log]⟩, h₂.chainState.trans h₁.chainState,
    h₂.incoming.trans h₁.incoming⟩

section Frames

variable {α : Type}

theorem keeps_onPeer {x : Op Error Peer α}
    (hx : ∀ l, Op.Keeps (fun p => p.incoming <:+ l) x) (c : CompactChain Xpub) :
    Op.Keeps (Follows c) (CompactChain.onPeer x) :=
  (hx c.p2p.incoming).zoom (fun _ h => h.incoming) fun _ _ h ht => ⟨h.log, h.chainState, ht⟩

theorem keeps_onWallet (x : Op Wallet.Error (WatchOnly Xpub) α) (c : CompactChain Xpub) :
    Op.Keeps (Follows c) (CompactChain.onWallet x) :=
  Op.Keeps.mapErr <| Op.Keeps.zoom (Q := fun _ => True) (fun _ _ => trivial) (fun _ _ => trivial)
    fun _ _ h _ => ⟨h.log, h.chainState, h.incoming⟩

/-- What keeps everything keeps it also after some ranges. -/
theorem keeps_scans {x : Op Error (CompactChain Xpub) α} (hx : ∀ c, Op.Keeps (Follows c) x)
    (c : CompactChain Xpub) : Op.Keeps (Scans c) x :=
  fun s hs => hs.follows (hx s s (Follows.refl s))

end Frames

namespace ChainLib

variable (lib : ChainLib)

theorem keeps_getAndVerifyCompactFilters (n : UInt32) (h : Hash256) (c : CompactChain Xpub) :
    Op.Keeps (Follows c) (lib.getAndVerifyCompactFilters n h) := by
  have hheaders := keeps_onPeer (fun l => Peer.keeps_fetchCompactFilterHeaders (Peer.keeps_suffix_send l)
      (Peer.keeps_suffix_receive l) n h) c
  have hfilters := keeps_onPeer (fun l => Peer.keeps_fetchCompactFilters (Peer.keeps_suffix_send l)
      (Peer.keeps_suffix_receive l) n h) c
  refine hheaders.mapErr.bind fun _ => hfilters.mapErr.bind fun _ => ?_
  exact (Op.Keeps.lift _).bind fun _ => Op.Keeps.pure _

theorem keeps_fetchAndSaveUtxos (filters : List CompactFilter) (c : CompactChain Xpub) :
    Op.Keeps (Follows c) (lib.fetchAndSaveUtxos filters) := by
  refine (keeps_onWallet _ c).bind fun pubKeys => (Op.Keeps.lift _).bind fun present => ?_
  split_ifs
  · exact Op.Keeps.pure _
  · refine (keeps_onPeer (fun l => Peer.keeps_fetchBlocks (Peer.keeps_suffix_send l)
      (Peer.keeps_suffix_receive l) _) c).mapErr.bind fun _ => ?_
    exact (keeps_onWallet _ c).bind fun _ => keeps_onWallet _ c

/-- **Filters that are returned are never none**, so the `continue` of a round is not taken. -/
theorem getAndVerifyCompactFilters_eq_ok {n : UInt32} {h : Hash256} {c c' : CompactChain Xpub}
    {filters : List CompactFilter}
    (hok : lib.getAndVerifyCompactFilters n h c = (.ok filters, c')) : filters ≠ [] := by
  obtain ⟨_, c₁, _, hok⟩ := Op.bind_eq_ok.mp hok
  obtain ⟨fs, c₂, hfs, hok⟩ := Op.bind_eq_ok.mp hok
  obtain ⟨_, c₃, _, hok⟩ := Op.bind_eq_ok.mp hok
  obtain ⟨rfl, -⟩ := Op.pure_eq_ok.mp hok
  obtain ⟨p, hp, -⟩ := Op.zoom_eq_ok.mp (Op.mapErr_eq_ok.mp hfs)
  obtain ⟨fs', f, rfl, -⟩ := Peer.fetchCompactFilters_eq_ok hp
  exact List.append_ne_nil_of_right_ne_nil fs' (List.cons_ne_nil f [])

section Round

variable (fetched : List BlockHeader) (startBlock : ℕ) (lastBlockHash : Hash256)

/-- What a finished range adds to the record. -/
def rangeEvent (x : ℕ × ℕ) : SyncEvent :=
  .scanned (UInt32.ofNat x.1) (lib.stopHash fetched lastBlockHash x.2)
    (startBlock + min (x.2 - 1) (fetched.length - 1))

theorem keeps_syncRange (x : ℕ × ℕ) (c : CompactChain Xpub) :
    Op.Keeps (Scans c) (lib.syncRange fetched startBlock lastBlockHash x) := by
  refine (keeps_scans (lib.keeps_getAndVerifyCompactFilters _ _) c).bind fun filters => ?_
  split_ifs
  · exact Op.Keeps.pure _
  · refine (keeps_scans (lib.keeps_fetchAndSaveUtxos _) c).bind fun _ => Op.Keeps.update ?_
    intro s hs
    obtain ⟨es, hes, hlog⟩ := hs.log
    refine ⟨⟨es ++ [lib.rangeEvent fetched startBlock lastBlockHash x], ?_, ?_⟩, hs.chainState,
      hs.incoming⟩
    · intro e he
      rcases List.mem_append.mp he with he | he
      · exact hes e he
      · rw [List.mem_singleton.mp he]
        trivial
    · rw [← List.append_assoc, ← hlog]
      rfl

/-- **A range that succeeds is recorded.** -/
theorem syncRange_eq_ok {x : ℕ × ℕ} {c c' : CompactChain Xpub} {u : Unit}
    (hok : lib.syncRange fetched startBlock lastBlockHash x c = (.ok u, c')) :
    c'.log = c.log ++ [lib.rangeEvent fetched startBlock lastBlockHash x] := by
  obtain ⟨filters, c₁, hget, hok⟩ := Op.bind_eq_ok.mp hok
  have hne := lib.getAndVerifyCompactFilters_eq_ok hget
  have h₁ := (lib.keeps_getAndVerifyCompactFilters _ _ c).of_eq (Follows.refl c) hget
  rw [if_neg (by simpa using hne)] at hok
  obtain ⟨_, c₂, hfetch, hok⟩ := Op.bind_eq_ok.mp hok
  have h₂ := (lib.keeps_fetchAndSaveUtxos filters c₁).of_eq (Follows.refl c₁) hfetch
  obtain rfl := Op.update_eq_ok.mp hok
  rw [← h₁.log, ← h₂.log]
  rfl

theorem syncRanges_eq_ok {xs : List (ℕ × ℕ)} {c c' : CompactChain Xpub} {u : PUnit}
    (hok : (ForM.forM xs (lib.syncRange fetched startBlock lastBlockHash) :
      Op Error (CompactChain Xpub) PUnit) c = (.ok u, c')) :
    c'.log = c.log ++ xs.map (lib.rangeEvent fetched startBlock lastBlockHash) := by
  induction xs generalizing c with
  | nil =>
    obtain ⟨-, rfl⟩ := Op.pure_eq_ok.mp hok
    rw [List.map_nil, List.append_nil]
  | cons x xs ih =>
    obtain ⟨_, c₁, hx, hxs⟩ := Op.forM_cons_eq_ok.mp hok
    rw [ih hxs, lib.syncRange_eq_ok _ _ _ hx, List.map_cons, List.append_assoc,
      List.singleton_append]

end Round

/-- What a round of the headers `hs` leaves when it goes through: all its ranges recorded, then the
state moved to the last header. -/
structure Advances (hs : List BlockHeader) (c c' : CompactChain Xpub) : Prop where
  ne_nil : hs ≠ []
  log : ∃ hash, c'.log = c.log
    ++ (rangeStarts (c.chainState.lastBlockHeight + 1)
        (c.chainState.lastBlockHeight + 1 + (hs.length - 1))).map
      (lib.rangeEvent hs (c.chainState.lastBlockHeight + 1) hash)
    ++ [.advanced (c.chainState.lastBlockHeight + 1 + (hs.length - 1))]
  height : c'.chainState.lastBlockHeight = c.chainState.lastBlockHeight + 1 + (hs.length - 1)
  incoming : c'.p2p.incoming <:+ c.p2p.incoming

theorem Advances.of_follows {lib : ChainLib} {hs : List BlockHeader} {c c₁ c₂ : CompactChain Xpub}
    (h₂ : lib.Advances hs c₁ c₂) (h₁ : Follows c c₁) : lib.Advances hs c c₂ := by
  obtain ⟨hne, ⟨hash, hlog⟩, hheight, hinc⟩ := h₂
  rw [h₁.chainState, h₁.log] at hlog
  rw [h₁.chainState] at hheight
  exact ⟨hne, ⟨hash, hlog⟩, hheight, hinc.trans h₁.incoming⟩

/-- **Everything a round can do with its headers**: it stops anywhere with some of its ranges
finished, or it goes through. -/
theorem syncHeaders_cases (hs : List BlockHeader) (c : CompactChain Xpub) :
    Scans c (lib.syncHeaders hs c).2 ∨ lib.Advances hs c (lib.syncHeaders hs c).2 := by
  rcases eq_or_ne hs [] with rfl | hne
  · exact .inl (Scans.refl c)
  obtain ⟨last, hlast⟩ : ∃ last, hs.getLast? = some last :=
    ⟨_, List.getLast?_eq_some_getLast hne⟩
  have hkeep := Op.Keeps.forM (P := Scans c) fun x
    (_ : x ∈ rangeStarts (c.chainState.lastBlockHeight + 1)
      (c.chainState.lastBlockHeight + 1 + (hs.length - 1))) =>
    lib.keeps_syncRange hs (c.chainState.lastBlockHeight + 1) (last.hash lib.sha256) x c
  have hpos : 0 < hs.length := List.length_pos_iff.mpr hne
  have hheight : c.chainState.lastBlockHeight + hs.length
      = c.chainState.lastBlockHeight + 1 + (hs.length - 1) := by omega
  obtain ⟨e, -, hfail⟩ | ⟨c₁, hall, -, hend⟩ :=
    lib.syncHeaders_split hlast (Prod.eta (lib.syncHeaders hs c)).symm
  · exact .inl (hkeep.of_eq (Scans.refl c) hfail)
  · rw [hend, hheight]
    have hscan := hkeep.of_eq (Scans.refl c) hall
    have hlog := lib.syncRanges_eq_ok _ _ _ hall
    refine .inr ⟨hne, ⟨last.hash lib.sha256, ?_⟩, rfl, hscan.incoming⟩
    rw [← hlog]
    rfl

theorem keeps_incoming_syncHeaders (hs : List BlockHeader) (c : CompactChain Xpub) :
    (lib.syncHeaders hs c).2.p2p.incoming <:+ c.p2p.incoming := by
  rcases lib.syncHeaders_cases hs c with h | h
  · exact h.incoming
  · exact h.incoming

/-- **A round that goes on has read the socket**, so the script bounds the `while` loop. -/
theorem incoming_lt_of_syncRound {u u' : Unit} {c c' : CompactChain Xpub}
    (h : lib.syncRound u c = (.ok (.inl u'), c')) :
    c'.p2p.incoming.length < c.p2p.incoming.length := by
  obtain ⟨_, _, _, -, hr, -⟩ | ⟨hs, p, hp, hend⟩ := lib.syncRound_split h
  · cases hr
  have hlt := (Peer.fetchHeaders_eq_ok hp).2
  have hle := (lib.keeps_incoming_syncHeaders hs { c with p2p := p }).length_le
  rw [hend] at hle
  exact lt_of_le_of_lt hle hlt

/-- …**so also everything a round can do**, the headers being those of a reply. -/
theorem syncRound_cases (c : CompactChain Xpub) :
    Scans c (lib.syncRound () c).2
    ∨ ∃ hs header, .read (.ok (.headers { inner := hs }, header)) ∈ c.p2p.incoming
      ∧ lib.Advances hs c (lib.syncRound () c).2 := by
  have hkeep := keeps_onPeer (fun l => Peer.keeps_fetchHeaders (Peer.keeps_suffix_send l)
      (Peer.keeps_suffix_receive l) c.chainState.lastBlockHash) c
  refine Op.snd_bind (C := fun t => Scans c t ∨ ∃ hs header,
    .read (.ok (.headers { inner := hs }, header)) ∈ c.p2p.incoming ∧ lib.Advances hs c t) ?_ ?_
  · rintro e s ⟨⟩
  rintro hash s ⟨⟩
  refine Op.snd_bind (C := fun t => Scans c t ∨ ∃ hs header,
    .read (.ok (.headers { inner := hs }, header)) ∈ c.p2p.incoming ∧ lib.Advances hs c t) ?_ ?_
  · intro e s h
    exact .inl ((Scans.refl c).follows (hkeep.mapErr.of_eq (Follows.refl c) h))
  intro hs s h
  have hfollow := hkeep.mapErr.of_eq (Follows.refl c) h
  obtain ⟨p, hp, -⟩ := Op.zoom_eq_ok.mp (Op.mapErr_eq_ok.mp h)
  obtain ⟨⟨header, hreply⟩, -⟩ := Peer.fetchHeaders_eq_ok hp
  rcases lib.syncHeaders_cases hs s with hscan | hadv
  · exact .inl (hfollow.scans hscan)
  · exact .inr ⟨hs, header, hreply, hadv.of_follows hfollow⟩

/-! ## Runs -/

/-- The header replies of the script have counts in `Q`. -/
def Replies (Q : ℕ → Prop) (incoming : List Incoming) : Prop :=
  ∀ hs header, .read (.ok (.headers hs, header)) ∈ incoming → Q hs.inner.length

/-- **The chain after any number of `sync_state` calls**, each of which may fail anywhere, with
header replies whose counts are in `Q`.  Between two calls the wallet and the peer may change. -/
inductive SyncRun (Q : ℕ → Prop) (c₀ : CompactChain Xpub) : CompactChain Xpub → Prop
  | start : SyncRun Q c₀ c₀
  | sync {c : CompactChain Xpub} :
    SyncRun Q c₀ c → Replies Q c.p2p.incoming → SyncRun Q c₀ (lib.syncState c).2
  | between {c : CompactChain Xpub} (p2p : Peer) (wallet : WatchOnly Xpub) :
    SyncRun Q c₀ c → SyncRun Q c₀ { c with p2p, wallet }

/-- The header counts of the rounds whose ranges reach their last height. -/
def ReachesLast (n : ℕ) : Prop := n = 1 ∨ n % FILTER_SIZE ≠ 1

/-- The invariant of a run: the state stands where the record says, and never stood past a height
that had not been scanned. -/
structure Accounted (initial : ℕ) (c : CompactChain Xpub) : Prop where
  covered : AlwaysCovered initial c.log
  height : heightAfter initial c.log = c.chainState.lastBlockHeight

theorem Accounted.scans {initial : ℕ} {c c' : CompactChain Xpub} (hc : Accounted initial c)
    (h : Scans c c') : Accounted initial c' := by
  obtain ⟨es, hes, hlog⟩ := h.log
  refine ⟨?_, ?_⟩
  · rw [hlog]
    exact hc.covered.append_scans hes
  · rw [hlog, heightAfter_append_scans hes, h.chainState]
    exact hc.height

/-- The record of a round looks at every height its ranges hold: a start that does not fit a `u32`
only asks for more. -/
theorem looked_rangeEvent {hs : List BlockHeader} {start h : ℕ} {hash : Hash256}
    (hh : ∃ r ∈ roundRanges start hs.length, r.1 ≤ h ∧ h ≤ r.2) :
    ∃ e ∈ (rangeStarts start (start + (hs.length - 1))).map (lib.rangeEvent hs start hash),
      e.Looked h := by
  obtain ⟨r, hr, hlo, hhi⟩ := hh
  obtain ⟨x, hx, rfl⟩ := List.mem_map.mp hr
  refine ⟨_, List.mem_map_of_mem hx, ?_, hhi⟩
  calc (UInt32.ofNat x.1).toNat = x.1 % 2 ^ 32 := UInt32.toNat_ofNat'
    _ ≤ x.1 := Nat.mod_le _ _
    _ ≤ h := hlo

theorem Accounted.advances {initial : ℕ} {hs : List BlockHeader} {c c' : CompactChain Xpub}
    (hc : Accounted initial c) (h : lib.Advances hs c c') (hn : ReachesLast hs.length) :
    Accounted initial c' := by
  obtain ⟨hne, ⟨hash, hlog⟩, hheight, -⟩ := h
  have hpos : 1 ≤ hs.length := List.length_pos_iff.mpr hne
  have hscans : ∀ e ∈ (rangeStarts (c.chainState.lastBlockHeight + 1)
      (c.chainState.lastBlockHeight + 1 + (hs.length - 1))).map
      (lib.rangeEvent hs (c.chainState.lastBlockHeight + 1) hash), e.IsScan := by
    intro e he
    obtain ⟨x, -, rfl⟩ := List.mem_map.mp he
    trivial
  refine ⟨?_, ?_⟩
  · rw [hlog]
    refine (hc.covered.append_scans hscans).append_advanced fun h' hlo hhi => ?_
    rw [heightAfter_append_scans hscans, hc.height] at hlo
    obtain ⟨e, he, hlook⟩ := @ChainLib.looked_rangeEvent lib _ _ _ hash
      (roundRanges_covers hn (by omega : c.chainState.lastBlockHeight + 1 ≤ h') hhi hpos)
    exact ⟨e, List.mem_append_right _ he, hlook⟩
  · rw [hlog, heightAfter_append_advanced, hheight]

/-- **A round keeps the invariant.** -/
theorem keeps_syncRound (initial : ℕ) (u : Unit) :
    Op.Keeps (fun c : CompactChain Xpub => Accounted initial c ∧ Replies ReachesLast c.p2p.incoming)
      (lib.syncRound u) := by
  rintro c ⟨hc, hreplies⟩
  rcases lib.syncRound_cases c with hscan | ⟨hs, header, hmem, hadv⟩
  · exact ⟨hc.scans hscan, fun hs header hmem => hreplies hs header (hscan.incoming.subset hmem)⟩
  · exact ⟨hc.advances lib hadv (hreplies { inner := hs } header hmem),
      fun hs' header' hmem' => hreplies hs' header' (hadv.incoming.subset hmem')⟩

/-- **…and so does a call of `sync_state`, however it ends.** -/
theorem keeps_syncState (initial : ℕ) :
    Op.Keeps (fun c : CompactChain Xpub => Accounted initial c ∧ Replies ReachesLast c.p2p.incoming)
      lib.syncState := by
  refine Op.Keeps.bind (Op.Keeps.mapErr ?_) fun _ =>
    Op.Keeps.loopOn (fun u => lib.keeps_syncRound initial u) ()
  rintro c ⟨hc, hreplies⟩
  have h := keeps_onPeer (fun l => Peer.keeps_keepAlive (Peer.keeps_suffix_send l)
    (Peer.keeps_suffix_receive l)) c c (Follows.refl c)
  exact ⟨hc.scans ((Scans.refl c).follows h),
    fun hs header hmem => hreplies hs header (h.incoming.subset hmem)⟩

theorem accounted_of_syncRun {c₀ c : CompactChain Xpub} {initial : ℕ} (h₀ : Accounted initial c₀)
    (h : lib.SyncRun ReachesLast c₀ c) : Accounted initial c := by
  induction h with
  | start => exact h₀
  | sync _ hreplies ih => exact (lib.keeps_syncState initial _ ⟨ih, hreplies⟩).1
  | between p2p wallet _ ih => exact ⟨ih.covered, ih.height⟩

/-- **No block is skipped, except by a round whose last height would start a range.**  From a chain
with an empty record, whatever the calls do, the state never stands past a height that was not
scanned, if no reply of headers holds such a round; and the ranges of a round tile it exactly when
it is not one. -/
theorem syncRun_covered (p2p : Peer) (state : ChainState) (wallet : WatchOnly Xpub) :
    (∀ c, lib.SyncRun ReachesLast ⟨p2p, state, wallet, []⟩ c →
      AlwaysCovered state.lastBlockHeight c.log
        ∧ heightAfter state.lastBlockHeight c.log = c.chainState.lastBlockHeight)
    ∧ ∀ start n, 1 ≤ n →
      (Tiles (roundRanges start n) start (start + (n - 1)) ↔ ReachesLast n) := by
  refine ⟨fun c hrun => ?_, fun start n hn => tiles_roundRanges_iff start hn⟩
  have hstart : Accounted state.lastBlockHeight (⟨p2p, state, wallet, []⟩ : CompactChain Xpub) := by
    refine ⟨fun l hl h hlo hhi => ?_, rfl⟩
    obtain rfl := List.prefix_nil.mp hl
    exact absurd hhi (not_le.mpr hlo)
  have hc := lib.accounted_of_syncRun hstart hrun
  exact ⟨hc.covered, hc.height⟩

end ChainLib

/-! ## A round that misses its last block -/

/-- A peer that answers a round of `n` headers that has one range, with an empty filter for the stop
of the range. -/
def oneRangePeer (n : ℕ) : Peer :=
  { incoming :=
      [.message Commands.PONG (.pong default),
        .message Commands.HEADERS (.headers { inner := List.replicate n default }),
        .message Commands.CFHEADERS (.cfHeaders default),
        .message Commands.CFILTERS
          (.cFilters { filterType := 0, blockHash := Bytes.zero 32, filterBytes := [] })]
    writes := []
    sent := []
    version := default
    ping := default }

/-- A library whose hash is constant and whose filters match nothing. -/
def zeroLib : ChainLib :=
  { sha256 := fun _ => Bytes.zero 32
    matchAny := fun _ _ _ => .ok false }

/-- A new chain with a new wallet. -/
def newChain (p2p : Peer) : CompactChain Unit :=
  ⟨p2p, { lastBlockHash := Bytes.zero 32, lastBlockHeight := 0 },
    WatchOnly.new () .regtest [] default, []⟩

/-- **501 headers make one range of 500**: after the call the state stands at height 501, which no
range held. -/
theorem not_syncRun_covered_501 :
    ¬(∀ c, zeroLib.SyncRun (fun _ => True) (newChain (oneRangePeer 501)) c →
        AlwaysCovered 0 c.log)
      ∧ ¬Tiles (roundRanges 1 501) 1 501 := by
  have hlog : (zeroLib.syncState (newChain (oneRangePeer 501))).2.log
      = [.scanned 1 (Bytes.zero 32) 500, .advanced 501] := by decide +kernel
  constructor
  · intro h
    have hcov := h _ (.sync .start fun _ _ _ => trivial) _ List.prefix_rfl
    rw [hlog] at hcov
    obtain ⟨e, he, hlook⟩ := hcov 501 (by decide) (by decide)
    rcases List.mem_cons.mp he with rfl | he
    · exact absurd hlook.2 (by decide)
    · rw [List.mem_singleton.mp he] at hlook
      exact hlook
  · intro h
    obtain h | h := (tiles_roundRanges_iff 1 (by decide)).mp h
    · exact absurd h (by decide)
    · exact h (by decide)

/-- Two headers make one range of two: the call moves the state to height 2, with both scanned. -/
theorem syncRun_covered_two :
    (zeroLib.syncState (newChain (oneRangePeer 2))).2.chainState.lastBlockHeight = 2
      ∧ AlwaysCovered 0 (zeroLib.syncState (newChain (oneRangePeer 2))).2.log
      ∧ Tiles (roundRanges 1 2) 1 2 := by
  have h := zeroLib.syncRun_covered (oneRangePeer 2) (newChain (oneRangePeer 2)).chainState
    (newChain (oneRangePeer 2)).wallet
  have hreplies : ChainLib.Replies ChainLib.ReachesLast (oneRangePeer 2).incoming := by
    intro hs header hmem
    have hhs : hs = { inner := [default, default] } := by
      simp only [oneRangePeer, Incoming.message, List.mem_cons, Incoming.read.injEq, Except.ok.injEq,
        Prod.mk.injEq, reduceCtorEq, false_and, Message.headers.injEq, List.not_mem_nil, or_false,
        false_or] at hmem
      exact hmem.1
    rw [hhs]
    exact .inr (by decide)
  refine ⟨by decide +kernel, (h.1 _ (.sync .start hreplies)).1, (h.2 1 2 (by decide)).mpr ?_⟩
  exact .inr (by decide)

end Bitspend.Chain
