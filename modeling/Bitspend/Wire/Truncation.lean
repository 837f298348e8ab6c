import Bitspend.Machinery.Whole
import Bitspend.Wire.Message

/-!
# Wire/Truncation — which payloads are noticed to be cut short

A hash is read with `Read::read`, which leaves zeros where the input ended, and the transaction count
behind a header may be missing.  In front of a field that needs a byte this goes unnoticed only until
that field is read; at the end of a payload it is not noticed at all.  So blocks, transactions,
filters, pings and versions are never made of bytes that were not sent, and the other four are,
exactly when the cut falls where nothing is read behind it.
-/

namespace Bitspend.Wire

/-! ## Fields -/

namespace VarInt

theorem size_mono {m n : UInt64} (h : m.toNat ≤ n.toNat) : VarInt.size m ≤ VarInt.size n := by
  simp only [VarInt.size, UInt64.le_iff_toNat_le]
  split_ifs <;> omega

theorem hungry : Hungry VarInt.read := (Takes.readU8.hungry one_pos).bind

/-- **A variable-length integer is read whole**, in its shortest form or in a longer one. -/
theorem whole : Whole VarInt.read fun u n => VarInt.size n ≤ u := by
  refine Takes.readU8.whole.bind fun n0 u hu => ?_
  subst hu
  unfold VarInt.readRest
  split_ifs with h1 h2 h3
  · refine Takes.readU64.whole.mono fun u n hu => ?_
    subst hu
    unfold VarInt.size
    split_ifs <;> omega
  · refine Takes.readU32.whole.bind fun n u hu => Whole.pure ?_
    have hn := n.toNat_lt
    subst hu
    simp only [VarInt.size, UInt64.le_iff_toNat_le]
    split_ifs with h1 h2 h3
    · omega
    · omega
    · omega
    · refine absurd ?_ h3
      simp
      omega
  · refine Takes.readU16.whole.bind fun n u hu => Whole.pure ?_
    have hn := n.toNat_lt
    subst hu
    simp only [VarInt.size, UInt64.le_iff_toNat_le]
    split_ifs with h1 h2
    · omega
    · omega
    · refine absurd ?_ h2
      simp
      omega
    · refine absurd ?_ h2
      simp
      omega
  · refine Whole.pure ?_
    have hle : n0.toUInt64 ≤ 252 := by
      have hne : ∀ m : UInt8, n0 ≠ m → n0.toNat ≠ m.toNat := fun m h h' => h (UInt8.toNat_inj.mp h')
      have h1 := hne _ h1
      have h2 := hne _ h2
      have h3 := hne _ h3
      have hn := n0.toNat_lt
      rw [UInt64.le_iff_toNat_le]
      simp at h1 h2 h3 ⊢
      omega
    rw [VarInt.size, if_pos hle]

/-- A list no longer than the count that was read needs no more bytes for its own count. -/
theorem sizeLen_le {α : Type} {as : List α} {n : UInt64} (h : as.length ≤ n.toNat) :
    VarInt.sizeLen as ≤ VarInt.size n := by
  refine size_mono ?_
  rw [UInt64.toNat_ofNat_of_lt' (lt_of_le_of_lt h n.toNat_lt)]
  exact h

end VarInt

theorem Hash256.takes : Takes Hash256.read 32 0 := Takes.readSome 32

theorem OutPoint.takes : Takes OutPoint.read 36 36 :=
  Hash256.takes.bind fun _ => Takes.readU32.bind fun _ => Takes.pure _

theorem BlockHeader.takes : Takes BlockHeader.read 80 80 :=
  Takes.readU32.bind fun _ => Hash256.takes.bind fun _ => Hash256.takes.bind fun _ =>
    Takes.readU32.bind fun _ => Takes.readU32.bind fun _ => Takes.readU32.bind fun _ => Takes.pure _

/-- An object without its hash is accepted. -/
theorem InvVect.takes : Takes InvVect.read 36 4 :=
  Takes.readU32.bind fun _ => Hash256.takes.bind fun _ => Takes.pure _

theorem NodeAddr.takes : Takes NodeAddr.read 26 26 :=
  Takes.readU64.bind fun _ => (Takes.readSome 16).bind fun _ =>
    Takes.readU16BE.bind fun _ => Takes.pure _

/-- The bytes of a script or a filter. -/
theorem whole_countedBytes (n : ℕ) :
    Whole (readMany n (readU8 : Decoder Error UInt8)) fun u bs => bs.length = n ∧ bs.length ≤ u := by
  have hbyte : Whole (readU8 : Decoder Error UInt8) fun u _ => 1 ≤ u :=
    Takes.readU8.whole.mono fun u _ hu => hu.ge
  have hmany : Whole (readMany n (readU8 : Decoder Error UInt8))
      fun u bs => bs.length = n ∧ (bs.map fun _ => 1).sum ≤ u := hbyte.readMany n
  refine hmany.mono fun u bs h => ⟨h.1, ?_⟩
  simpa using h.2

/-! ## Transactions and blocks -/

theorem TxIn.whole : Whole TxIn.read fun u t => t.size ≤ u := by
  refine OutPoint.takes.whole.bind fun prevOutput u hu => ?_
  refine Whole.bind VarInt.whole fun n v hv => ?_
  refine (whole_countedBytes n.toNat).bind fun script w hw => ?_
  refine Takes.readU32.whole.bind fun sequence x hx => Whole.pure ?_
  have hlen := VarInt.sizeLen_le hw.1.le
  simp only [TxIn.size, OutPoint.SIZE]
  omega

theorem TxOut.whole : Whole TxOut.read fun u t => t.size ≤ u := by
  refine Takes.readI64.whole.bind fun satoshis u hu => ?_
  refine Whole.bind VarInt.whole fun n v hv => ?_
  refine (whole_countedBytes n.toNat).bind fun script w hw => Whole.pure ?_
  have hlen := VarInt.sizeLen_le hw.1.le
  simp only [TxOut.size]
  omega

theorem TxWitnessData.whole : Whole TxWitnessData.read fun u d => d.size ≤ u := by
  refine Whole.bind VarInt.whole fun n v hv => ?_
  refine (whole_countedBytes n.toNat).bind fun data w hw => Whole.pure ?_
  have hlen := VarInt.sizeLen_le hw.1.le
  simp only [TxWitnessData.size]
  omega

theorem TxWitness.whole : Whole TxWitness.read fun u w => w.size ≤ u := by
  refine Whole.bind VarInt.whole fun n v hv => ?_
  refine (TxWitnessData.whole.readMany n.toNat).bind fun witness w hw => Whole.pure ?_
  have hlen := VarInt.sizeLen_le hw.1.le
  have hsum := hw.2
  simp only [TxWitness.size]
  omega

namespace Tx

theorem whole_readLegacy (version : UInt32) (n : UInt64) :
    Whole (readLegacy version n) fun u t => t.size ≤ u + 4 + VarInt.size n := by
  refine (TxIn.whole.readMany n.toNat).bind fun inputs u hu => ?_
  refine Whole.bind VarInt.whole fun m v hv => ?_
  refine (TxOut.whole.readMany m.toNat).bind fun outputs w hw => ?_
  refine Takes.readU32.whole.bind fun lockTime x hx => Whole.pure ?_
  have hin := VarInt.sizeLen_le hu.1.le
  have hout := VarInt.sizeLen_le hw.1.le
  have hins := hu.2
  have houts := hw.2
  simp only [Tx.size]
  omega

theorem whole_readSegwit (version : UInt32) :
    Whole (readSegwit version) fun u t => t.size ≤ u + 5 := by
  refine Takes.readU8.whole.bind fun flag y hy => ?_
  split_ifs
  · refine Whole.bind VarInt.whole fun n z hz => ?_
    refine (TxIn.whole.readMany n.toNat).bind fun inputs u hu => ?_
    refine Whole.bind VarInt.whole fun m v hv => ?_
    refine (TxOut.whole.readMany m.toNat).bind fun outputs w hw => ?_
    refine (TxWitness.whole.readMany n.toNat).bind fun witnesses a ha => ?_
    refine Takes.readU32.whole.bind fun lockTime x hx => Whole.pure ?_
    have hin := VarInt.sizeLen_le hu.1.le
    have hout := VarInt.sizeLen_le hw.1.le
    have hins := hu.2
    have houts := hw.2
    have hwits := ha.2
    simp only [Tx.size]
    omega
  · exact Whole.panicWith _

/-- **A transaction is never made of bytes that were not there.** -/
theorem whole : Whole Tx.read fun u t => t.size ≤ u := by
  refine Takes.readI32.whole.bind fun version u hu => Whole.bind VarInt.whole fun n v hv => ?_
  split_ifs
  · exact (whole_readSegwit _).mono fun w t hw => by
      have := VarInt.one_le_size n
      omega
  · exact (whole_readLegacy _ n).mono fun w t hw => by omega

end Tx

/-- …nor is a block: its last hash stands in the header, in front of the time. -/
theorem Block.whole : Whole Block.read fun u b => b.size ≤ u := by
  refine BlockHeader.takes.whole.bind fun header u hu => ?_
  refine Whole.bind VarInt.whole fun n v hv => ?_
  refine (Tx.whole.readMany n.toNat).bind fun txns w hw => Whole.pure ?_
  have hlen := VarInt.sizeLen_le hw.1.le
  have hsum := hw.2
  simp only [Block.size, BlockHeader.SIZE]
  omega

/-! ## Filters, pings and versions -/

theorem CompactFilter.whole : Whole CompactFilter.read fun u f => f.size ≤ u := by
  refine Takes.readU8.whole.bind fun filterType u hu => ?_
  refine Hash256.takes.drains.bind_hungry (fun blockHash v hv => ?_) fun _ => VarInt.hungry.bind
  refine Whole.bind VarInt.whole fun n w hw => ?_
  refine (whole_countedBytes n.toNat).bind fun bytes x hx => Whole.pure ?_
  have hlen := VarInt.sizeLen_le hx.1.le
  simp only [CompactFilter.size]
  omega

theorem Ping.whole : Whole Ping.read fun u p => p.size ≤ u :=
  Takes.readU64.whole.bind fun nonce u hu => Whole.pure (by simp [Ping.size, Ping.SIZE]; omega)

/-- The bytes of a string are the ones it was decoded from. -/
theorem asBytes_of_fromUtf8 {bs : List UInt8} {s : String} (h : fromUtf8 bs = .ok s) :
    asBytes s = bs := by
  rw [fromUtf8, Outcome.okOr_eq_ok, String.fromUTF8?] at h
  split_ifs at h
  cases h
  simp [asBytes, String.fromUTF8]

theorem asUsize_le (n : UInt64) : asUsize n ≤ n.toNat := Nat.mod_le _ _

/-- **A string may be cut short**, but then nothing is left behind it. -/
theorem drains_readString :
    Drains readString fun u s => VarInt.sizeLen (asBytes s) + byteLen s ≤ u := by
  refine Drains.after VarInt.whole fun n u hu => ?_
  refine (Takes.readSome (asUsize n)).drains.bind_lift fun bytes s v hv hs => ?_
  have hbytes : byteLen s = asUsize n := by
    rw [byteLen, asBytes_of_fromUtf8 hs, Bytes.length_toList]
  have hlen : VarInt.sizeLen (asBytes s) ≤ VarInt.size n :=
    VarInt.sizeLen_le (hbytes.le.trans (asUsize_le n))
  omega

theorem Version.whole : Whole Version.read fun u v => v.size ≤ u := by
  refine Takes.readU32.whole.bind fun version a ha => ?_
  refine Takes.readU64.whole.bind fun services b hb => ?_
  refine Takes.readI64.whole.bind fun timestamp c hc => ?_
  refine NodeAddr.takes.whole.bind fun recvAddr d hd => ?_
  refine NodeAddr.takes.whole.bind fun txAddr e he => ?_
  refine Takes.readU64.whole.bind fun nonce f hf => ?_
  refine drains_readString.bind_hungry (fun userAgent g hg => ?_)
    fun _ => (Takes.readI32.hungry (by decide)).bind
  refine Takes.readI32.whole.bind fun startHeight h hh => ?_
  refine Takes.readU8.whole.bind fun relay i hi => Whole.pure ?_
  simp only [Version.size, NodeAddr.size, NodeAddr.SIZE]
  omega

/-! ## Inventories -/

/-- **A counted list of elements of one size** that was not cut is as long as its size says. -/
theorem counted_le_of_settled {α : Type} {p : Decoder Error α} {t k : ℕ} {n : UInt64}
    {s rest : List UInt8} {as : List α} (hp : Sized p t) (hk : k ≤ n.toNat)
    (hset : Settled (readMany k p) s) (hmany : readMany k p s = .ok (as, rest)) :
    VarInt.sizeLen as + t * as.length ≤ VarInt.size n + s.length := by
  have hlen := Decoder.length_of_readMany hmany
  have hlong := (hp.readMany k).settled_iff.mp hset as rest hmany
  have hcount := VarInt.sizeLen_le (hlen.le.trans hk)
  rw [hlen]
  omega

namespace Inv

/-- **An inventory cut inside its last hash**: at most the hash is missing, and not nothing. -/
def Clipped (b : List UInt8) : Prop :=
  ∃ n rest, VarInt.read b = .ok (n, rest) ∧ asUsize n ≤ MAX_INV_ENTRIES
    ∧ rest.length < 36 * asUsize n ∧ 36 * asUsize n ≤ rest.length + 32

theorem settled_readObjects_iff {k : ℕ} {s : List UInt8} :
    Settled (readObjects k) s
      ↔ ¬ (k ≤ MAX_INV_ENTRIES ∧ s.length < 36 * k ∧ 36 * k ≤ s.length + 32) := by
  unfold readObjects
  split_ifs with hk
  · exact iff_of_true (fun _ _ h => by cases h) fun h => absurd h.1 (by omega)
  · rw [settled_map_iff fun _ _ h => Inv.mk.inj h]
    rcases k with _ | k
    · exact iff_of_true ((Takes.pure []).settled s (Nat.zero_le _)) fun h => absurd h.2.1 (by omega)
    · rw [(InvVect.takes.readMany_succ (by decide) k).settled_iff]
      omega

theorem settled_read_iff {b : List UInt8} : Settled Inv.read b ↔ ¬ Clipped b := by
  unfold Inv.read
  rw [Whole.settled_bind_iff VarInt.whole]
  constructor
  · rintro h ⟨n, rest, hn, hclip⟩
    exact settled_readObjects_iff.mp (h n rest hn) hclip
  · intro h n rest hn
    exact settled_readObjects_iff.mpr fun hclip => h ⟨n, rest, hn, hclip⟩

/-- An inventory that was not cut is as long as its size says. -/
theorem size_le_of_settled {b rest : List UInt8} {i : Inv} (h : Settled Inv.read b)
    (hread : Inv.read b = .ok (i, rest)) : i.size ≤ b.length := by
  obtain ⟨n, s, hn, hobjs⟩ := Decoder.bind_eq_ok.mp hread
  have hset := (Whole.settled_bind_iff VarInt.whole).mp h n s hn
  obtain ⟨used, rfl, hused, -⟩ := VarInt.whole b n s hn
  unfold readObjects at hobjs hset
  split_ifs at hobjs hset with hk
  · cases hobjs
  · obtain ⟨objects, s', hmany, hi⟩ := Decoder.bind_eq_ok.mp hobjs
    cases hi
    rw [settled_map_iff fun _ _ h => Inv.mk.inj h] at hset
    have := counted_le_of_settled InvVect.takes.toSized (asUsize_le n) hset hmany
    simp only [Inv.size, InvVect.SIZE, List.length_append]
    omega

end Inv

/-! ## Headers -/

namespace Headers

/-- The transaction count is skipped if it is there. -/
theorem takes_count (header : BlockHeader) :
    Takes (fun s => match (readU8 : Decoder Error UInt8) s with
      | .ok (_, rest) => .ok (header, rest)
      | .error _ => .ok (header, s) : Decoder Error BlockHeader) 1 0 := by
  have hcount : (fun s => match (readU8 : Decoder Error UInt8) s with
      | .ok (_, rest) => .ok (header, rest)
      | .error _ => .ok (header, s) : Decoder Error BlockHeader)
      = fun s => .ok (header, s.drop 1) := by
    funext s
    rcases s with _ | ⟨b, s⟩
    · rfl
    · have hb : (readU8 : Decoder Error UInt8) (b :: s) = .ok (b, s) := Decodes.readU8 b s
      simp only [hb, List.drop_succ_cons, List.drop_zero]
  rw [hcount]
  constructor
  · constructor
    · intro s hs a rest h more
      cases h
      simp only [List.drop_append_of_le_length hs]
    · intro s a rest h
      cases h
      rfl
  · exact Nat.zero_le 1
  · exact fun s => iff_of_true ⟨_, _, rfl⟩ (Nat.zero_le _)

/-- A header without its transaction count is accepted. -/
theorem takes_readElem : Takes readElem 81 80 := BlockHeader.takes.bind takes_count

/-- **Headers that lack only the last transaction count.** -/
def Clipped (b : List UInt8) : Prop :=
  ∃ n rest, VarInt.read b = .ok (n, rest) ∧ rest.length + 1 = 81 * n.toNat

theorem settled_read_iff {b : List UInt8} : Settled Headers.read b ↔ ¬ Clipped b := by
  unfold Headers.read
  have hloop : ∀ (n : UInt64) s, Settled (readMany n.toNat readElem >>= fun headers =>
      pure (Headers.mk headers)) s ↔ s.length + 1 ≠ 81 * n.toNat := by
    intro n s
    rw [settled_map_iff fun _ _ h => Headers.mk.inj h]
    rcases n.toNat with _ | k
    · exact iff_of_true ((Takes.pure []).settled s (Nat.zero_le _)) (by omega)
    · rw [(takes_readElem.readMany_succ (by decide) k).settled_iff]
      omega
  rw [Whole.settled_bind_iff VarInt.whole]
  constructor
  · rintro h ⟨n, rest, hn, hclip⟩
    exact (hloop n rest).mp (h n rest hn) hclip
  · intro h n rest hn
    exact (hloop n rest).mpr fun hclip => h ⟨n, rest, hn, hclip⟩

theorem size_le_of_settled {b rest : List UInt8} {hs : Headers} (h : Settled Headers.read b)
    (hread : Headers.read b = .ok (hs, rest)) : hs.size ≤ b.length := by
  obtain ⟨n, s, hn, hloop⟩ := Decoder.bind_eq_ok.mp hread
  have hset := (Whole.settled_bind_iff VarInt.whole).mp h n s hn
  obtain ⟨used, rfl, hused, -⟩ := VarInt.whole b n s hn
  obtain ⟨headers, s', hmany, heq⟩ := Decoder.bind_eq_ok.mp hloop
  cases heq
  rw [settled_map_iff fun _ _ h => Headers.mk.inj h] at hset
  have := counted_le_of_settled takes_readElem.toSized le_rfl hset hmany
  simp only [Headers.size, BlockHeader.SIZE, List.length_append]
  omega

end Headers

/-! ## Filter headers -/

namespace CompactFilterHeader

/-- **Filter headers that announce more hashes than there are bytes for.** -/
def Clipped (b : List UInt8) : Prop :=
  ∃ n rest, VarInt.read (b.drop 65) = .ok (n, rest) ∧ rest.length < 32 * n.toNat

/-- The hashes, behind their number. -/
theorem settled_hashes_iff {g : List Hash256 → CompactFilterHeader} (hg : Function.Injective g)
    {s : List UInt8} :
    Settled (VarInt.read >>= fun n => readMany n.toNat Hash256.read >>= fun hashes =>
      pure (g hashes)) s
      ↔ ¬ ∃ n rest, VarInt.read s = .ok (n, rest) ∧ rest.length < 32 * n.toNat := by
  have hloop : ∀ (n : UInt64) rest, Settled (readMany n.toNat Hash256.read >>= fun hashes =>
      pure (g hashes)) rest ↔ 32 * n.toNat ≤ rest.length := by
    intro n rest
    rw [settled_map_iff hg, (Hash256.takes.readMany_zero n.toNat).settled_iff]
    exact ⟨fun h => h (Nat.zero_le _), fun h _ => h⟩
  rw [Whole.settled_bind_iff VarInt.whole]
  constructor
  · rintro h ⟨n, rest, hn, hclip⟩
    have := (hloop n rest).mp (h n rest hn)
    omega
  · intro h n rest hn
    refine (hloop n rest).mpr ?_
    by_contra hclip
    exact h ⟨n, rest, hn, by omega⟩

/-- The fields in front of the hashes are short reads, but the number behind them needs a byte. -/
theorem settled_read_iff {b : List UInt8} : Settled CompactFilterHeader.read b ↔ ¬ Clipped b := by
  have hinj : ∀ t h p, Function.Injective (CompactFilterHeader.mk t h p) := fun t h p _ _ heq =>
    (CompactFilterHeader.mk.inj heq).2.2.2
  have hprev := fun t h s => Hash256.takes.settled_bind_iff (s := s) (fun _ => VarInt.hungry.bind)
    fun p s => settled_hashes_iff (hinj t h p)
  have hstop := fun t s => Hash256.takes.settled_bind_iff (s := s)
    (fun _ => Hash256.takes.drains.hungry_bind fun _ => VarInt.hungry.bind) (hprev t)
  have htype := Takes.readU8.settled_bind_iff (s := b)
    (fun _ => Hash256.takes.drains.hungry_bind fun _ =>
      Hash256.takes.drains.hungry_bind fun _ => VarInt.hungry.bind) hstop
  rw [List.drop_drop, List.drop_drop] at htype
  exact htype

theorem size_le_of_settled {b rest : List UInt8} {f : CompactFilterHeader}
    (h : Settled CompactFilterHeader.read b) (hread : CompactFilterHeader.read b = .ok (f, rest)) :
    f.size ≤ b.length := by
  obtain ⟨t, s₁, ht, h₁⟩ := Decoder.bind_eq_ok.mp hread
  obtain ⟨stop, s₂, hstop, h₂⟩ := Decoder.bind_eq_ok.mp h₁
  obtain ⟨prev, s₃, hprev, h₃⟩ := Decoder.bind_eq_ok.mp h₂
  obtain ⟨n, s₄, hn, h₄⟩ := Decoder.bind_eq_ok.mp h₃
  obtain ⟨hashes, s₅, hmany, h₅⟩ := Decoder.bind_eq_ok.mp h₄
  cases h₅
  have hs₃ : s₃ = b.drop 65 := by
    rw [Hash256.takes.leaves _ _ _ hprev, Hash256.takes.leaves _ _ _ hstop,
      Takes.readU8.leaves _ _ _ ht, List.drop_drop, List.drop_drop]
  obtain ⟨used, hused, hsize, -⟩ := VarInt.whole s₃ n s₄ hn
  have hone := VarInt.one_le_size n
  have hlen := congrArg List.length (hs₃.symm.trans hused)
  rw [List.length_drop, List.length_append] at hlen
  have hlong : 32 * n.toNat ≤ s₄.length := by
    by_contra hclip
    exact settled_read_iff.mp h ⟨n, s₄, hs₃ ▸ hn, by omega⟩
  have hcount := Decoder.length_of_readMany hmany
  have hsizeLen := VarInt.sizeLen_le hcount.le
  simp only [CompactFilterHeader.size, hcount]
  omega

end CompactFilterHeader

/-! ## Rejects -/

/-- The bytes a short read makes of `s`: what is missing is zero. -/
def padded (n : ℕ) (s : List UInt8) : List UInt8 := s.take n ++ List.replicate (n - s.length) 0

theorem length_padded (n : ℕ) (s : List UInt8) : (padded n s).length = n := by
  rw [padded, List.length_append, List.length_take, List.length_replicate]
  omega

/-- A string is returned when the bytes that are there, filled up with zeros, are UTF-8. -/
theorem readString_eq_ok {r rest : List UInt8} {str : String} :
    readString r = .ok (str, rest)
      ↔ ∃ n s, VarInt.read r = .ok (n, s) ∧ fromUtf8 (padded (asUsize n) s) = .ok str
        ∧ rest = s.drop (asUsize n) := by
  unfold readString
  rw [Decoder.bind_eq_ok]
  constructor
  · rintro ⟨n, s, hn, h⟩
    obtain ⟨bytes, s₁, hbytes, h⟩ := Decoder.bind_eq_ok.mp h
    obtain ⟨hstr, rfl⟩ := Decoder.lift_eq_ok.mp h
    cases hbytes
    exact ⟨n, s, hn, hstr, rfl⟩
  · rintro ⟨n, s, hn, hstr, rfl⟩
    exact ⟨n, s, hn, Decoder.bind_eq_ok.mpr ⟨_, _, rfl, Decoder.lift_eq_ok.mpr ⟨hstr, rfl⟩⟩⟩

namespace Reject

/-- How many bytes follow the reason. -/
def hashLen (message : String) : ℕ := if carriesHash message then 32 else 0

/-- **A reject cut inside its reason or its hash**: the message and the code are there, and what is
there of the reason still is UTF-8. -/
def Clipped (b : List UInt8) : Prop :=
  ∃ (k n : UInt64) (m r s : List UInt8) (code : UInt8) (message reason : String),
    VarInt.read b = .ok (k, m ++ code :: r) ∧ m.length = asUsize k ∧ fromUtf8 m = .ok message
      ∧ VarInt.read r = .ok (n, s) ∧ fromUtf8 (padded (asUsize n) s) = .ok reason
      ∧ s.length < asUsize n + hashLen message

/-- What `Reject::read` reads behind the reason. -/
def readHash (message : String) (code : UInt8) (reason : String) : Decoder Error Reject :=
  if carriesHash message then do
    let data ← readSome 32
    pure { message, code, reason, data := data.toList }
  else pure { message, code, reason, data := [] }

theorem read_eq : Reject.read = (do
    let message ← readString
    let code ← readU8
    let reason ← readString
    readHash message code reason) := rfl

/-- The hash is a short read and the last one. -/
theorem takes_readHash (message : String) (code : UInt8) (reason : String) :
    Takes (readHash message code reason) (hashLen message) 0 := by
  unfold readHash hashLen
  split_ifs
  · exact (Takes.readSome 32).bind fun _ => Takes.pure _
  · exact Takes.pure _

theorem fields_of_readHash {message reason : String} {code : UInt8} {s rest : List UInt8} {v : Reject}
    (h : readHash message code reason s = .ok (v, rest)) :
    v.message = message ∧ v.reason = reason ∧ v.data.length = hashLen message := by
  unfold readHash at h
  unfold hashLen
  split_ifs at h ⊢
  · obtain ⟨data, s₁, -, h⟩ := Decoder.bind_eq_ok.mp h
    cases h
    exact ⟨rfl, rfl, data.length_toList⟩
  · cases h
    exact ⟨rfl, rfl, rfl⟩

/-- Behind the code, the reason and the hash are settled exactly when they are there. -/
theorem settled_tail_iff {message : String} {code : UInt8} {r : List UInt8} :
    Settled (readString >>= readHash message code) r
      ↔ ∀ n s reason, VarInt.read r = .ok (n, s) → fromUtf8 (padded (asUsize n) s) = .ok reason →
        asUsize n + hashLen message ≤ s.length := by
  have htail : ∀ n : UInt64, Sized ((readSome (asUsize n) >>= fun bytes =>
      Decoder.lift (fromUtf8 bytes.toList)) >>= readHash message code)
      (asUsize n + 0 + hashLen message) := fun n =>
    ((Takes.readSome _).toSized.bind fun _ => Sized.lift _).bind
      fun reason => (takes_readHash message code reason).toSized
  unfold readString
  rw [bind_assoc, Whole.settled_bind_iff VarInt.whole]
  constructor
  · intro h n s reason hn hreason
    obtain ⟨v, rest, hv⟩ :=
      ((takes_readHash message code reason).accepts (s.drop (asUsize n))).mpr (Nat.zero_le _)
    have hbody : (readSome (asUsize n) >>= fun bytes => Decoder.lift (fromUtf8 bytes.toList)) s
        = .ok (reason, s.drop (asUsize n)) :=
      Decoder.bind_eq_ok.mpr ⟨_, _, rfl, Decoder.lift_eq_ok.mpr ⟨hreason, rfl⟩⟩
    exact (htail n).settled_iff.mp (h n s hn) v rest
      (Decoder.bind_eq_ok.mpr ⟨reason, _, hbody, hv⟩)
  · intro h n s hn
    refine (htail n).settled_iff.mpr fun v rest hv => ?_
    obtain ⟨reason, s₁, hreason, -⟩ := Decoder.bind_eq_ok.mp hv
    obtain ⟨bytes, s₂, hbytes, hlift⟩ := Decoder.bind_eq_ok.mp hreason
    cases hbytes
    exact h n s reason hn (Decoder.lift_eq_ok.mp hlift).1

/-- A message in front of a byte was there in full. -/
theorem readString_eq_ok_cons {b r : List UInt8} {code : UInt8} {message : String} :
    readString b = .ok (message, code :: r)
      ↔ ∃ k m, VarInt.read b = .ok (k, m ++ code :: r) ∧ m.length = asUsize k
        ∧ fromUtf8 m = .ok message := by
  rw [readString_eq_ok]
  constructor
  · rintro ⟨k, s, hk, hm, hrest⟩
    have hlt : asUsize k < s.length := by
      by_contra hge
      rw [List.drop_eq_nil_of_le (by omega)] at hrest
      cases hrest
    have hpad : padded (asUsize k) s = s.take (asUsize k) := by
      rw [padded, Nat.sub_eq_zero_of_le hlt.le, List.replicate_zero, List.append_nil]
    refine ⟨k, s.take (asUsize k), ?_, ?_, hpad ▸ hm⟩
    · rw [hrest, List.take_append_drop]
      exact hk
    · rw [List.length_take]
      omega
  · rintro ⟨k, m, hk, hlen, hm⟩
    refine ⟨k, m ++ code :: r, hk, ?_, by rw [← hlen, List.drop_left]⟩
    rwa [padded, ← hlen, List.take_left, List.length_append, Nat.sub_eq_zero_of_le (by omega),
      List.replicate_zero, List.append_nil]

theorem settled_read_iff {b : List UInt8} : Settled Reject.read b ↔ ¬ Clipped b := by
  have hcode : ∀ message rest, Settled (readU8 >>= fun code => readString >>= readHash message code) rest
      ↔ ∀ code r, rest = code :: r → Settled (readString >>= readHash message code) r := by
    intro message rest
    rw [Takes.readU8.whole.settled_bind_iff]
    constructor
    · exact fun h code r hrest => h code r (readU8_eq_ok.mpr hrest)
    · exact fun h code r hcode => h code r (readU8_eq_ok.mp hcode)
  rw [read_eq, drains_readString.settled_bind_iff fun _ => (Takes.readU8.hungry one_pos).bind]
  constructor
  · rintro h ⟨k, n, m, r, s, code, message, reason, hk, hlen, hm, hn, hreason, hshort⟩
    have hmessage := readString_eq_ok_cons.mpr ⟨k, m, hk, hlen, hm⟩
    have htail := (hcode message _).mp (h message _ hmessage) code r rfl
    have := settled_tail_iff.mp htail n s reason hn hreason
    omega
  · intro h message rest hmessage
    refine (hcode message rest).mpr ?_
    rintro code r rfl
    obtain ⟨k, m, hk, hlen, hm⟩ := readString_eq_ok_cons.mp hmessage
    refine settled_tail_iff.mpr fun n s reason hn hreason => ?_
    by_contra hshort
    exact h ⟨k, n, m, r, s, code, message, reason, hk, hlen, hm, hn, hreason, by omega⟩

/-- A reject that was not cut is as long as its size says. -/
theorem size_le_of_settled {b rest : List UInt8} {v : Reject} (h : Settled Reject.read b)
    (hread : Reject.read b = .ok (v, rest)) : v.size ≤ b.length := by
  rw [read_eq] at hread
  obtain ⟨message, s₁, hmessage, h₁⟩ := Decoder.bind_eq_ok.mp hread
  obtain ⟨code, r, hcode, h₂⟩ := Decoder.bind_eq_ok.mp h₁
  obtain ⟨reason, s₂, hreason, hhash⟩ := Decoder.bind_eq_ok.mp h₂
  obtain rfl := readU8_eq_ok.mp hcode
  obtain ⟨hm, hr, hdata⟩ := fields_of_readHash hhash
  obtain ⟨k, m, hk, hlen, hutf8⟩ := readString_eq_ok_cons.mp hmessage
  obtain ⟨n, s, hn, hpadded, -⟩ := readString_eq_ok.mp hreason
  -- the message and its length stand in front of the code
  obtain ⟨used, rfl, hused⟩ : ∃ used, b = used ++ code :: r
      ∧ VarInt.sizeLen (asBytes message) + byteLen message ≤ used.length := by
    obtain ⟨used, hb, hused, -⟩ | hnil := drains_readString b message _ hmessage
    · exact ⟨used, hb, hused⟩
    · cases hnil
  obtain ⟨used', rfl, hused', -⟩ := VarInt.whole r n s hn
  have hlong : asUsize n + hashLen message ≤ s.length := by
    by_contra hshort
    exact settled_read_iff.mp h
      ⟨k, n, m, _, s, code, message, reason, hk, hlen, hutf8, hn, hpadded, by omega⟩
  have hreasonLen : byteLen reason = asUsize n := by
    rw [byteLen, asBytes_of_fromUtf8 hpadded, length_padded]
  have hreasonSize : VarInt.sizeLen (asBytes reason) ≤ VarInt.size n :=
    VarInt.sizeLen_le (hreasonLen.le.trans (asUsize_le n))
  simp only [Reject.size, hm, hr, hdata, List.length_append, List.length_cons]
  omega

end Reject

/-! ## Every payload -/

section Untruncated

variable {α : Type} [Payload α]

/-- **What was returned was there**: the input is as long as the value's size and its lists, more
input would not have changed the value, and it is no strict prefix of what the value, or any value
that reads back, is written as. -/
structure Genuine (p : Decoder Error α) (elements : α → ℕ) (b : List UInt8) (v : α)
    (rest : List UInt8) : Prop where
  size_le : Payload.size v ≤ b.length
  elements_le : elements v ≤ b.length
  settled : ∀ more, p (b ++ more) = .ok (v, rest ++ more)
  not_cut : ∀ w, (w = v ∨ Decodes p (emitted (Payload.write w)) w) →
    ∀ more, emitted (Payload.write w) = b ++ more → more = []

/-- The decoder takes nothing from `b` that is not in it. -/
def Untruncated (p : Decoder Error α) (elements : α → ℕ) (b : List UInt8) : Prop :=
  ∀ v rest, p b = .ok (v, rest) → Genuine p elements b v rest

/-- **A decoder takes nothing that is not there exactly when its result is settled.** -/
theorem untruncated_iff_settled {p : Decoder Error α} {elements : α → ℕ} {b : List UInt8}
    (hexact : SizeExact α) (helements : ∀ v, elements v ≤ Payload.size v)
    (hsize : Settled p b → ∀ v rest, p b = .ok (v, rest) → Payload.size v ≤ b.length) :
    Untruncated p elements b ↔ Settled p b := by
  constructor
  · exact fun h v rest hv => (h v rest hv).settled
  · intro h v rest hv
    have hle := hsize h v rest hv
    refine ⟨hle, (helements v).trans hle, h v rest hv, ?_⟩
    rintro w (rfl | hw) more hmore
    · have hlen := congrArg List.length hmore
      rw [hexact w, List.length_append] at hlen
      exact List.eq_nil_of_length_eq_zero (by omega)
    · -- all of `w` decodes to `w` and leaves nothing, so nothing can have been added
      have hall := hw []
      rw [List.append_nil, hmore, h v rest hv more] at hall
      have hnil := (Prod.mk.inj (Except.ok.inj hall)).2
      exact (List.append_eq_nil_iff.mp hnil).2

theorem untruncated_of_whole {p : Decoder Error α} {elements : α → ℕ} (hexact : SizeExact α)
    (helements : ∀ v, elements v ≤ Payload.size v)
    (hp : Whole p fun u v => Payload.size v ≤ u) (b : List UInt8) : Untruncated p elements b := by
  refine (untruncated_iff_settled hexact helements fun _ v rest hv => ?_).mpr (hp.settled b)
  obtain ⟨used, rfl, hused, -⟩ := hp b v rest hv
  rw [List.length_append]
  omega

end Untruncated

/-- The elements of a list, with the elements of each. -/
def listed {α : Type} (f : α → ℕ) (as : List α) : ℕ := as.length + (as.map f).sum

theorem listed_le {α : Type} {f size : α → ℕ} (h : ∀ a, f a + 1 ≤ size a) (as : List α) :
    listed f as ≤ (as.map size).sum := by
  unfold listed
  induction as with
  | nil => rfl
  | cons a as ih =>
    have ha := h a
    simp only [List.length_cons, List.map_cons, List.sum_cons]
    omega

/-- The elements of all the lists of a transaction. -/
def Tx.elements (t : Tx) : ℕ :=
  listed (fun i => i.unlockScript.length) t.inputs + listed (fun o => o.lockScript.length) t.outputs
    + (match t.witnesses with
      | some ws => listed (fun w => listed (fun d => d.witnessData.length) w.witness) ws
      | none => 0)

theorem Tx.elements_lt_size (t : Tx) : t.elements + 1 ≤ t.size := by
  have hin := listed_le (fun i : TxIn => show i.unlockScript.length + 1 ≤ i.size by
    simp only [TxIn.size]; omega) t.inputs
  have hout := listed_le (fun o : TxOut => show o.lockScript.length + 1 ≤ o.size by
    simp only [TxOut.size]; omega) t.outputs
  have hdata : ∀ d : TxWitnessData, d.witnessData.length + 1 ≤ d.size := fun d => by
    have := VarInt.one_le_size (UInt64.ofNat d.witnessData.length)
    simp only [TxWitnessData.size, VarInt.sizeLen]
    omega
  have hwit : ∀ w : TxWitness, listed (fun d => d.witnessData.length) w.witness + 1 ≤ w.size :=
    fun w => by
      have := VarInt.one_le_size (UInt64.ofNat w.witness.length)
      have := listed_le hdata w.witness
      simp only [TxWitness.size, VarInt.sizeLen]
      omega
  unfold Tx.elements Tx.size
  cases t.witnesses with
  | none =>
    dsimp only
    omega
  | some ws =>
    have hws := listed_le hwit ws
    dsimp only
    omega

namespace Kind

/-- **The decoder of a kind takes nothing from a payload that is not in it.** -/
def Faithful (b : List UInt8) : Kind → Prop
  | block => Untruncated Block.read (fun v => listed Tx.elements v.txns) b
  | tx => Untruncated Tx.read Tx.elements b
  | cFilters => Untruncated CompactFilter.read (fun v => v.filterBytes.length) b
  | version => Untruncated Version.read (fun v => byteLen v.userAgent) b
  | ping | pong => Untruncated Ping.read (fun _ => 0) b
  | inv | getData | notFound => Untruncated Inv.read (fun v => v.objects.length) b
  | headers => Untruncated Headers.read (fun v => v.inner.length) b
  | cfHeaders => Untruncated CompactFilterHeader.read (fun v => v.filterHashes.length) b
  | reject => Untruncated Reject.read
      (fun v => byteLen v.message + byteLen v.reason + v.data.length) b
  | getAddr | mempool | sendHeaders | verack => True

/-- **The cuts that are not noticed.** -/
def Clipped (b : List UInt8) : Kind → Prop
  | inv | getData | notFound => Inv.Clipped b
  | headers => Headers.Clipped b
  | cfHeaders => CompactFilterHeader.Clipped b
  | reject => Reject.Clipped b
  | _ => False

end Kind

end Bitspend.Wire
