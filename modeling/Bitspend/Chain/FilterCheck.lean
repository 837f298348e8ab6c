import Bitspend.Chain.Coverage
import Bitspend.Machinery.Sha256

/-!
# Chain/FilterCheck — which filters were checked

`get_and_verify_compact_filters` walks the filter hashes of one reply and the filters of the others
in lockstep, and the walk ends with the shorter of the two.  A filter past the last hash is returned
unchecked, and a hash past the last filter goes unnoticed; so what is returned was verified exactly
when the peer sent as many filters as hashes, or one that the walk rejects
(`ChainLib.getAndVerifyCompactFilters_verified_iff`).
-/

namespace Bitspend.Chain

open Wire CompactChain

namespace ChainLib

variable {Xpub : Type} (lib : ChainLib)

/-- A filter is the one its hash commits to. -/
def Matches (filter : CompactFilter) (filterHash : Hash256) : Prop :=
  sha256d lib.sha256 filter.filterBytes = filterHash

/-- **Every filter is verified**: there are as many as filter hashes, and each is the one of the
hash at its place. -/
def Verified (filterHashes : List Hash256) (filters : List CompactFilter) : Prop :=
  filters.length = filterHashes.length
    ∧ ∀ (i : ℕ) f hash, filters[i]? = some f → filterHashes[i]? = some hash → lib.Matches f hash

/-- A filter that is not the one of the hash at its place. -/
def Mismatch (filterHashes : List Hash256) (filters : List CompactFilter) : Prop :=
  ∃ (i : ℕ) (f : CompactFilter) (hash : Hash256),
    filters[i]? = some f ∧ filterHashes[i]? = some hash ∧ ¬lib.Matches f hash

/-- The walk passes exactly when no place that both lists have is a mismatch. -/
theorem verifyFilters_eq_ok {filterHashes : List Hash256} {filters : List CompactFilter} {u : Unit} :
    lib.verifyFilters filterHashes filters = .ok u ↔ ¬lib.Mismatch filterHashes filters := by
  rw [verifyFilters]
  induction filterHashes generalizing filters with
  | nil =>
    refine iff_of_true rfl ?_
    rintro ⟨i, f, hash, -, hhash, -⟩
    cases hhash
  | cons hash filterHashes ih =>
    cases filters with
    | nil =>
      refine iff_of_true rfl ?_
      rintro ⟨i, f, hash, hf, -, -⟩
      cases hf
    | cons f filters =>
      rw [List.zip_cons_cons, List.forM]
      by_cases hm : sha256d lib.sha256 f.filterBytes = hash
      · rw [if_neg (not_not.mpr hm)]
        refine ih.trans (not_congr ⟨?_, ?_⟩)
        · rintro ⟨i, rest⟩
          exact ⟨i + 1, rest⟩
        · rintro ⟨_ | i, f', hash', hf, hhash, hne⟩
          · cases hf
            cases hhash
            exact absurd hm hne
          · exact ⟨i, f', hash', hf, hhash, hne⟩
      · rw [if_pos hm]
        refine iff_of_false (fun h => by cases h) (not_not.mpr ?_)
        exact ⟨0, f, hash, rfl, rfl, hm⟩

/-- Of lists of one length, no mismatch is a verification. -/
theorem verified_iff {filterHashes : List Hash256} {filters : List CompactFilter} :
    lib.Verified filterHashes filters
      ↔ filters.length = filterHashes.length ∧ ¬lib.Mismatch filterHashes filters := by
  refine and_congr_right fun _ => ⟨?_, ?_⟩
  · rintro hall ⟨i, f, hash, hf, hhash, hne⟩
    exact hne (hall i f hash hf hhash)
  · intro hno i f hash hf hhash
    by_contra hne
    exact hno ⟨i, f, hash, hf, hhash, hne⟩

/-- What the peer answers to the two requests for a range: the `cfheaders` reply, and the filters up
to the one of the stop hash. -/
def Answered (startHeight : UInt32) (hashStop : Hash256) (p : Peer) (reply : CompactFilterHeader)
    (filters : List CompactFilter) : Prop :=
  ∃ p₁ p₂, Peer.fetchCompactFilterHeaders startHeight hashStop p = (.ok reply, p₁)
    ∧ Peer.fetchCompactFilters startHeight hashStop p₁ = (.ok filters, p₂)

theorem Answered.reply {n : UInt32} {h : Hash256} {p : Peer} {reply : CompactFilterHeader}
    {filters : List CompactFilter} (ha : Answered n h p reply filters) :
    (Peer.fetchCompactFilterHeaders n h p).1 = .ok reply := by
  obtain ⟨p₁, p₂, hreply, -⟩ := ha
  rw [hreply]

/-- **Filters are returned exactly when the peer sent them and the walk passed.** -/
theorem getAndVerifyCompactFilters_eq_ok_iff {n : UInt32} {h : Hash256} {c : CompactChain Xpub}
    {filters : List CompactFilter} :
    (lib.getAndVerifyCompactFilters n h c).1 = .ok filters
      ↔ ∃ reply, Answered n h c.p2p reply filters
        ∧ ¬lib.Mismatch reply.filterHashes filters := by
  constructor
  · intro hok
    obtain ⟨reply, c₁, hreply, hrest⟩ := Op.bind_eq_ok.mp (Op.eq_of_fst hok)
    obtain ⟨fs, c₂, hfs, hrest⟩ := Op.bind_eq_ok.mp hrest
    obtain ⟨u, c₃, hwalk, hpure⟩ := Op.bind_eq_ok.mp hrest
    obtain ⟨rfl, -⟩ := Op.pure_eq_ok.mp hpure
    obtain ⟨p₁, hp₁, rfl⟩ := Op.zoom_eq_ok.mp (Op.mapErr_eq_ok.mp hreply)
    obtain ⟨p₂, hp₂, -⟩ := Op.zoom_eq_ok.mp (Op.mapErr_eq_ok.mp hfs)
    exact ⟨reply, ⟨p₁, p₂, hp₁, hp₂⟩, lib.verifyFilters_eq_ok.mp (Op.lift_eq_ok.mp hwalk).1⟩
  · rintro ⟨reply, ⟨p₁, p₂, hp₁, hp₂⟩, hno⟩
    have hreply : onPeer (Peer.fetchCompactFilterHeaders n h) c = (.ok reply, { c with p2p := p₁ }) :=
      Op.zoom_eq_ok.mpr ⟨p₁, hp₁, rfl⟩
    have hfs : onPeer (Peer.fetchCompactFilters n h) { c with p2p := p₁ }
        = (.ok filters, { c with p2p := p₂ }) := Op.zoom_eq_ok.mpr ⟨p₂, hp₂, rfl⟩
    have hok : lib.getAndVerifyCompactFilters n h c = (.ok filters, { c with p2p := p₂ }) := by
      refine Op.bind_eq_ok.mpr ⟨reply, _, Op.mapErr_eq_ok.mpr hreply, ?_⟩
      refine Op.bind_eq_ok.mpr ⟨filters, _, Op.mapErr_eq_ok.mpr hfs, ?_⟩
      refine Op.bind_eq_ok.mpr ⟨(), _, Op.lift_eq_ok.mpr ⟨lib.verifyFilters_eq_ok.mpr hno, rfl⟩, ?_⟩
      exact Op.pure_eq_ok.mpr ⟨rfl, rfl⟩
    rw [hok]

/-- **What is returned was verified** against the `cfheaders` reply **exactly when** the peer's two
answers are of one length, or hold a mismatch that the walk rejects. -/
theorem getAndVerifyCompactFilters_verified_iff (n : UInt32) (h : Hash256) (c : CompactChain Xpub) :
    (∀ filters, (lib.getAndVerifyCompactFilters n h c).1 = .ok filters →
        ∃ reply, (Peer.fetchCompactFilterHeaders n h c.p2p).1 = .ok reply
          ∧ lib.Verified reply.filterHashes filters)
      ↔ ∀ reply filters, Answered n h c.p2p reply filters →
        filters.length = reply.filterHashes.length ∨ lib.Mismatch reply.filterHashes filters := by
  constructor
  · intro hall reply filters ha
    by_cases hm : lib.Mismatch reply.filterHashes filters
    · exact .inr hm
    · obtain ⟨reply', hreply, hver⟩ :=
        hall filters (lib.getAndVerifyCompactFilters_eq_ok_iff.mpr ⟨reply, ha, hm⟩)
      rw [ha.reply] at hreply
      cases hreply
      exact .inl hver.1
  · intro hcond filters hok
    obtain ⟨reply, ha, hno⟩ := lib.getAndVerifyCompactFilters_eq_ok_iff.mp hok
    have hlen := (hcond reply filters ha).resolve_right hno
    exact ⟨reply, ha.reply, lib.verified_iff.mpr ⟨hlen, hno⟩⟩

end ChainLib

/-! ## A filter past the last hash -/

/-- A peer whose `cfheaders` reply holds no hash, and that sends one filter. -/
def uncheckedPeer : Peer :=
  { incoming :=
      [.message Commands.CFHEADERS (.cfHeaders default),
        .message Commands.CFILTERS
          (.cFilters { filterType := 0, blockHash := Bytes.zero 32, filterBytes := [0x01, 0xff] })]
    writes := []
    sent := []
    version := default
    ping := default }

/-- The chain's library, with the hash function computed and no filter matched. -/
def hashingLib : ChainLib :=
  { sha256 := Bitspend.sha256
    matchAny := fun _ _ _ => .ok false }

/-- **A filter no hash commits to is returned**: the walk over no hashes checks nothing. -/
theorem not_getAndVerifyCompactFilters_verified :
    (hashingLib.getAndVerifyCompactFilters 1 (Bytes.zero 32) (newChain uncheckedPeer)).1
        = .ok [{ filterType := 0, blockHash := Bytes.zero 32, filterBytes := [0x01, 0xff] }]
      ∧ (Peer.fetchCompactFilterHeaders 1 (Bytes.zero 32) uncheckedPeer).1 = .ok default
      ∧ ¬hashingLib.Verified (default : CompactFilterHeader).filterHashes
        [{ filterType := 0, blockHash := Bytes.zero 32, filterBytes := [0x01, 0xff] }] := by
  refine ⟨by decide +kernel, by decide +kernel, ?_⟩
  rintro ⟨hlen, -⟩
  exact absurd hlen (by decide)

end Bitspend.Chain
