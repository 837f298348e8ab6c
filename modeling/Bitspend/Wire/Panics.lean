import Bitspend.Wire.Capacity
import Bitspend.Wire.RoundTrip
import Bitspend.Wire.Truncation

/-!
# Wire/Panics — the frames that crash the decoder

Bytes that a peer chooses crash the decoders in three ways.  `Tx::read` panics at a zero input count
followed by a flag other than one; `Version::validate` at a timestamp so low that its distance from now
does not fit an `i64`; and a buffer is made for a count or a size only announced, which panics where it
is over `isize::MAX` — the inputs and outputs of a transaction, the transactions of a block, the strings
of a version and a reject, and any payload.  Nothing else does, so a stream crashes `Message::read`
exactly when it starts with a header that announces too large a payload, or with a whole frame, checksum
included, of one of these four kinds.
-/

namespace Bitspend.Wire

/-! ## Decoders without a panic -/

theorem VarInt.panicless : Panicless VarInt.read := by
  refine Panicless.readU8.bind fun n0 => ?_
  unfold VarInt.readRest
  split_ifs
  · exact Panicless.readU64
  · exact Panicless.readU32.bind fun _ => .pure _
  · exact Panicless.readU16.bind fun _ => .pure _
  · exact .pure _

theorem Hash256.panicless : Panicless Hash256.read := .readSome 32

theorem TxIn.panicless : Panicless TxIn.read := by
  have hprev : Panicless OutPoint.read :=
    Panicless.bind Hash256.panicless fun _ => Panicless.readU32.bind fun _ => .pure _
  refine hprev.bind fun _ => Panicless.bind VarInt.panicless fun n => ?_
  exact (Panicless.readU8.readMany _).bind fun _ => Panicless.readU32.bind fun _ => .pure _

theorem TxOut.panicless : Panicless TxOut.read := by
  refine Panicless.readI64.bind fun _ => Panicless.bind VarInt.panicless fun n => ?_
  exact (Panicless.readU8.readMany _).bind fun _ => .pure _

theorem TxWitness.panicless : Panicless TxWitness.read := by
  have hitem : Panicless TxWitnessData.read :=
    Panicless.bind VarInt.panicless fun n => (Panicless.readU8.readMany _).bind fun _ => .pure _
  exact Panicless.bind VarInt.panicless fun n => (hitem.readMany _).bind fun _ => .pure _

theorem BlockHeader.panicless : Panicless BlockHeader.read := by
  refine Panicless.readU32.bind fun _ => Panicless.bind Hash256.panicless fun _ => ?_
  refine Panicless.bind Hash256.panicless fun _ => Panicless.readU32.bind fun _ => ?_
  exact Panicless.readU32.bind fun _ => Panicless.readU32.bind fun _ => .pure _

theorem Headers.panicless : Panicless Headers.read := by
  have helem : Panicless Headers.readElem := by
    refine BlockHeader.panicless.bind fun header s => ?_
    split
    · exact .ok _
    · exact .ok _
  exact Panicless.bind VarInt.panicless fun n => (helem.readMany _).bind fun _ => .pure _

theorem Inv.panicless : Panicless Inv.read := by
  have hobject : Panicless InvVect.read :=
    Panicless.readU32.bind fun _ => Panicless.bind Hash256.panicless fun _ => .pure _
  refine Panicless.bind VarInt.panicless fun n => ?_
  unfold Inv.readObjects
  split
  · exact .fail _
  · exact (hobject.readMany _).bind fun _ => .pure _

theorem CompactFilter.panicless : Panicless CompactFilter.read := by
  refine Panicless.readU8.bind fun _ => Panicless.bind Hash256.panicless fun _ => ?_
  exact Panicless.bind VarInt.panicless fun n => (Panicless.readU8.readMany _).bind fun _ => .pure _

theorem CompactFilterHeader.panicless : Panicless CompactFilterHeader.read := by
  refine Panicless.readU8.bind fun _ => Panicless.bind Hash256.panicless fun _ => ?_
  refine Panicless.bind Hash256.panicless fun _ => Panicless.bind VarInt.panicless fun n => ?_
  exact (Hash256.panicless.readMany _).bind fun _ => .pure _

theorem Ping.panicless : Panicless Ping.read := Panicless.readU64.bind fun _ => .pure _

theorem fromUtf8_safe (bs : List UInt8) : (fromUtf8 bs).Safe := by
  unfold fromUtf8
  rcases String.fromUTF8? ⟨bs.toArray⟩ with _ | s
  · exact .err _
  · exact .ok s

/-- A buffer is made in front of the rest. -/
theorem safe_withCapacity_bind_iff {α : Type} {elemSize n : ℕ} {f : Unit → Decoder Error α}
    {s : List UInt8} : Outcome.Safe ((Decoder.lift (withCapacity elemSize n) >>= f) s)
      ↔ ¬ Oversized elemSize n ∧ Outcome.Safe (f () s) := by
  rw [Decoder.bind_apply, Decoder.lift, withCapacity]
  split_ifs with h
  · exact iff_of_false (fun hsafe => hsafe _ rfl) fun hn => hn.1 h
  · exact ⟨fun hsafe => ⟨h, hsafe⟩, fun hn => hn.2⟩

/-! ## The announced length of a string -/

/-- The length of a string that is announced at the start of the bytes is too large for a buffer. -/
def LongString (bs : List UInt8) : Prop :=
  ∃ n rest, VarInt.read bs = .ok (n, rest) ∧ Oversized 1 (asUsize n)

theorem safe_readString_iff {s : List UInt8} :
    Outcome.Safe (readStringChecked s) ↔ ¬ LongString s := by
  have htext (n : UInt64) : Panicless (do
      let bytes ← readSome (asUsize n)
      Decoder.lift (fromUtf8 bytes.toList) : Decoder Error String) :=
    (Panicless.readSome _).bind fun _ => .lift (fromUtf8_safe _)
  rw [readStringChecked, VarInt.panicless.safe_bind_iff]
  constructor
  · rintro h ⟨n, rest, hn, hlong⟩
    exact (safe_withCapacity_bind_iff.mp (h n rest hn)).1 hlong
  · intro h n rest hn
    exact safe_withCapacity_bind_iff.mpr ⟨fun hlong => h ⟨n, rest, hn, hlong⟩, htext n rest⟩

/-- **The bytes `Reject::read` panics on**: the length of the message is too large, or, behind a message
and a code, that of the reason. -/
inductive Reject.Crashes (bs : List UInt8) : Prop
  | message : LongString bs → Crashes bs
  | reason (message : String) (code : UInt8) (s : List UInt8) :
    readString bs = .ok (message, code :: s) → LongString s → Crashes bs

theorem Reject.safe_iff (bs : List UInt8) :
    Outcome.Safe (Reject.readChecked bs) ↔ ¬ Reject.Crashes bs := by
  have hhash (message : String) (code : UInt8) (reason : String) :
      Panicless (if Reject.carriesHash message then do
        let data ← readSome 32
        pure { message, code, reason, data := data.toList }
      else pure { message, code, reason, data := [] } : Decoder Error Reject) := by
    split
    · exact (Panicless.readSome 32).bind fun _ => .pure _
    · exact .pure _
  have hreason (message : String) (code : UInt8) (s : List UInt8) :
      Outcome.Safe ((readStringChecked >>= fun reason => if Reject.carriesHash message then do
        let data ← readSome 32
        pure { message, code, reason, data := data.toList }
      else pure { message, code, reason, data := [] } : Decoder Error Reject) s) ↔ ¬ LongString s := by
    rw [Decoder.bind_apply, Outcome.safe_bind_iff, safe_readString_iff]
    exact ⟨fun h => h.1, fun h => ⟨h, fun x _ => hhash message code x.1 x.2⟩⟩
  rw [Reject.readChecked, Decoder.bind_apply, Outcome.safe_bind_iff]
  constructor
  · rintro ⟨hmessage, h⟩ (hlong | ⟨message, code, s, hread, hlong⟩)
    · exact safe_readString_iff.mp hmessage hlong
    · rw [← unless_readString.eq_of_safe hmessage] at hread
      have hrest := Panicless.readU8.safe_bind_iff.mp (h _ hread) code s (Decodes.readU8 code s)
      exact (hreason message code s).mp hrest hlong
  · intro h
    refine ⟨safe_readString_iff.mpr fun hlong => h (.message hlong), fun x hx => ?_⟩
    refine Panicless.readU8.safe_bind_iff.mpr fun code s hs => ?_
    refine (hreason x.1 code s).mpr fun hlong => h (.reason x.1 code s ?_ hlong)
    rw [unless_readString.of_ok hx, ← readU8_eq_ok.mp hs]

/-! ## The flag and the counts of a transaction -/

namespace Tx

/-- Behind the version, an input count of zero and a flag other than one. -/
def BadFlag (bs : List UInt8) : Prop :=
  4 ≤ bs.length ∧ ∃ flag rest, VarInt.read (bs.drop 4) = .ok (0, flag :: rest) ∧ flag ≠ 1

/-- The inputs announced: their count, and the bytes behind it. -/
def InputsAnnounced (bs : List UInt8) (n : UInt64) (s : List UInt8) : Prop :=
  4 ≤ bs.length ∧ ((VarInt.read (bs.drop 4) = .ok (n, s) ∧ n ≠ 0)
    ∨ ∃ s', VarInt.read (bs.drop 4) = .ok (0, 1 :: s') ∧ VarInt.read s' = .ok (n, s))

/-- Behind so many inputs, too large a count of outputs. -/
def ManyOutputs (n : UInt64) (s : List UInt8) : Prop :=
  ∃ inputs s' k rest, readMany n.toNat TxIn.read s = .ok (inputs, s') ∧ VarInt.read s' = .ok (k, rest)
    ∧ Oversized TxOut.SIZE_OF (asUsize k)

/-- **The bytes `Tx::read` panics on**: a bad flag, or a count of inputs (without a marker) or outputs
that is too large for a buffer. -/
inductive Crashes (bs : List UInt8) : Prop
  | flag : BadFlag bs → Crashes bs
  | inputs (n : UInt64) (s : List UInt8) : 4 ≤ bs.length → VarInt.read (bs.drop 4) = .ok (n, s) →
    Oversized TxIn.SIZE_OF (asUsize n) → Crashes bs
  | outputs (n : UInt64) (s : List UInt8) : InputsAnnounced bs n s → ManyOutputs n s → Crashes bs

/-- The inputs and the count of the outputs, in front of what does not panic. -/
theorem safe_inputs_iff {n : UInt64} {g : List TxIn → UInt64 → Decoder Error Tx}
    (hg : ∀ inputs k, Panicless (g inputs k)) {s : List UInt8} :
    Outcome.Safe ((readMany n.toNat TxIn.read >>= fun inputs => VarInt.read >>= fun k =>
      Decoder.lift (withCapacity TxOut.SIZE_OF (asUsize k)) >>= fun _ => g inputs k) s)
      ↔ ¬ ManyOutputs n s := by
  rw [(TxIn.panicless.readMany _).safe_bind_iff]
  constructor
  · rintro h ⟨inputs, s', k, rest, hinputs, hk, hmany⟩
    have hcount := VarInt.panicless.safe_bind_iff.mp (h inputs s' hinputs) k rest hk
    exact (safe_withCapacity_bind_iff.mp hcount).1 hmany
  · intro h inputs s' hinputs
    refine VarInt.panicless.safe_bind_iff.mpr fun k rest hk => ?_
    refine safe_withCapacity_bind_iff.mpr ⟨fun hmany => h ?_, hg inputs k rest⟩
    exact ⟨inputs, s', k, rest, hinputs, hk, hmany⟩

theorem safe_readLegacy_iff (version : UInt32) (n : UInt64) (s : List UInt8) :
    Outcome.Safe (readLegacyChecked version n s)
      ↔ ¬ Oversized TxIn.SIZE_OF (asUsize n) ∧ ¬ ManyOutputs n s := by
  rw [readLegacyChecked, safe_withCapacity_bind_iff]
  refine and_congr_right fun _ => safe_inputs_iff fun inputs k => ?_
  exact (TxOut.panicless.readMany _).bind fun _ => Panicless.readU32.bind fun _ => .pure _

theorem safe_readSegwit_iff (version : UInt32) (s : List UInt8) :
    Outcome.Safe (readSegwitChecked version s) ↔ ∀ flag s', s = flag :: s' →
      flag = 1 ∧ ∀ n s'', VarInt.read s' = .ok (n, s'') → ¬ ManyOutputs n s'' := by
  have hbody (flag : UInt8) (n : UInt64) (s : List UInt8) :=
    safe_inputs_iff (n := n) (s := s) (g := fun inputs k => do
      let outputs ← readMany k.toNat TxOut.read
      let witnesses ← readMany n.toNat TxWitness.read
      let lockTime ← readU32
      pure { version, inputs, flag := some flag, outputs, lockTime, witnesses := some witnesses })
      fun inputs k => (TxOut.panicless.readMany _).bind fun _ => (TxWitness.panicless.readMany _).bind
        fun _ => Panicless.readU32.bind fun _ => .pure _
  rw [readSegwitChecked, Panicless.readU8.safe_bind_iff]
  constructor
  · rintro h flag s' rfl
    have hflag := h flag s' (Decodes.readU8 flag s')
    split_ifs at hflag with h1
    · exact ⟨h1, fun n s'' hn => (hbody flag n s'').mp (VarInt.panicless.safe_bind_iff.mp hflag n s'' hn)⟩
    · exact absurd rfl (hflag _)
  · intro h flag s' hs
    obtain ⟨h1, hinputs⟩ := h flag s' (readU8_eq_ok.mp hs)
    rw [if_pos h1]
    exact VarInt.panicless.safe_bind_iff.mpr fun n s'' hn => (hbody flag n s'').mpr (hinputs n s'' hn)

/-- **`Tx::read` panics exactly there.** -/
theorem safe_iff (bs : List UInt8) : Outcome.Safe (readChecked bs) ↔ ¬ Crashes bs := by
  have hcount (version : Int32) (s : List UInt8) : Outcome.Safe ((VarInt.read >>= fun n =>
      if n = 0 then readSegwitChecked version.toUInt32 else readLegacyChecked version.toUInt32 n) s)
      ↔ ∀ n s', VarInt.read s = .ok (n, s') → if n = 0 then
        ∀ flag s'', s' = flag :: s'' →
          flag = 1 ∧ ∀ k rest, VarInt.read s'' = .ok (k, rest) → ¬ ManyOutputs k rest
        else ¬ Oversized TxIn.SIZE_OF (asUsize n) ∧ ¬ ManyOutputs n s' := by
    rw [VarInt.panicless.safe_bind_iff]
    refine forall₃_congr fun n s' _ => ?_
    split_ifs
    · exact safe_readSegwit_iff _ s'
    · exact safe_readLegacy_iff _ n s'
  rw [readChecked, Takes.readI32.safe_bind_iff Panicless.readI32 hcount]
  constructor
  · rintro h (⟨hlen, flag, rest, hread, hflag⟩ | ⟨n, s, hlen, hread, hmany⟩
      | ⟨n, s, ⟨hlen, ⟨hread, hn⟩ | ⟨s', hread, hcount⟩⟩, hmany⟩)
    · have hsegwit := h hlen 0 _ hread
      rw [if_pos rfl] at hsegwit
      exact hflag (hsegwit flag rest rfl).1
    · have hlegacy := h hlen n s hread
      rw [if_neg ?_] at hlegacy
      · exact hlegacy.1 hmany
      · rintro rfl
        exact absurd hmany (by decide)
    · have hlegacy := h hlen n s hread
      rw [if_neg hn] at hlegacy
      exact hlegacy.2 hmany
    · have hsegwit := h hlen 0 _ hread
      rw [if_pos rfl] at hsegwit
      exact (hsegwit 1 s' rfl).2 n s hcount hmany
  · intro h hlen n s hread
    split_ifs with hn
    · subst hn
      rintro flag s' rfl
      have h1 : flag = 1 := by
        by_contra hflag
        exact h (.flag ⟨hlen, flag, s', hread, hflag⟩)
      subst h1
      exact ⟨rfl, fun k rest hk hmany => h (.outputs k rest ⟨hlen, .inr ⟨s', hread, hk⟩⟩ hmany)⟩
    · refine ⟨fun hmany => h (.inputs n s hlen hread hmany), fun hmany => ?_⟩
      exact h (.outputs n s ⟨hlen, .inl ⟨hread, hn⟩⟩ hmany)

end Tx

/-- **The bytes `Block::read` panics on**: behind the header, a count of transactions too large for a
buffer, or a transaction that is reached and crashes. -/
inductive Block.Crashes (bs : List UInt8) : Prop
  | count (header : BlockHeader) (s : List UInt8) (n : UInt64) (s' : List UInt8) :
    BlockHeader.read bs = .ok (header, s) → VarInt.read s = .ok (n, s') →
    Oversized Tx.SIZE_OF (asUsize n) → Crashes bs
  | txn (header : BlockHeader) (s : List UInt8) (n : UInt64) (s' : List UInt8) (k : ℕ)
    (txns : List Tx) (rest : List UInt8) :
    BlockHeader.read bs = .ok (header, s) → VarInt.read s = .ok (n, s') → k < n.toNat →
    readMany k Tx.read s' = .ok (txns, rest) → Tx.Crashes rest → Crashes bs

theorem Block.safe_iff (bs : List UInt8) :
    Outcome.Safe (Block.readChecked bs) ↔ ¬ Block.Crashes bs := by
  have htxns (header : BlockHeader) (n : UInt64) (s' : List UInt8) :
      Outcome.Safe ((readMany n.toNat Tx.readChecked >>= fun txns => pure { header, txns }
        : Decoder Error Block) s') ↔ ∀ k < n.toNat, ∀ txns rest,
          readMany k Tx.read s' = .ok (txns, rest) → ¬ Tx.Crashes rest := by
    rw [Decoder.bind_apply, Outcome.safe_bind_iff, Tx.unless_read.safe_readMany_iff]
    simp only [Tx.safe_iff]
    exact and_iff_left fun _ _ => .ok _
  rw [Block.readChecked, BlockHeader.panicless.safe_bind_iff]
  constructor
  · intro h hcrash
    cases hcrash with
    | count header s n s' hheader hcount hmany =>
      have hrest := VarInt.panicless.safe_bind_iff.mp (h header s hheader) n s' hcount
      exact (safe_withCapacity_bind_iff.mp hrest).1 hmany
    | txn header s n s' k txns rest hheader hcount hk hread hbad =>
      have hrest := VarInt.panicless.safe_bind_iff.mp (h header s hheader) n s' hcount
      have hsafe := (htxns header n s').mp (safe_withCapacity_bind_iff.mp hrest).2
      exact hsafe k hk txns rest hread hbad
  · intro h header s hheader
    refine VarInt.panicless.safe_bind_iff.mpr fun n s' hcount => ?_
    refine safe_withCapacity_bind_iff.mpr ⟨fun hmany => h (.count header s n s' hheader hcount hmany), ?_⟩
    refine (htxns header n s').mpr fun k hk txns rest hread hbad => h ?_
    exact .txn header s n s' k txns rest hheader hcount hk hread hbad

/-! ## The timestamp and the user agent of a version -/

/-- **The bytes that `Version::validate` overflows on**: they read as a version that is recent enough,
from a time at least `2^63` seconds before now. -/
def Version.Overflows (now : UInt32) (bs : List UInt8) : Prop :=
  ∃ v rest, Version.read bs = .ok (v, rest) ∧ MIN_SUPPORTED_PROTOCOL_VERSION ≤ v.version
    ∧ v.timestamp.toInt - now.toNat ≤ -2 ^ 63

theorem Version.safe_validate_iff (v : Version) (now : UInt32) :
    (v.validate now).Safe ↔ ¬ (MIN_SUPPORTED_PROTOCOL_VERSION ≤ v.version
      ∧ v.timestamp.toInt - now.toNat ≤ -2 ^ 63) := by
  unfold Version.validate
  dsimp only
  split_ifs with hversion hsub hneg hold
  · exact iff_of_true (.err _) fun h => UInt32.not_lt.mpr h.1 hversion
  · exact iff_of_false (fun h => h _ rfl) fun h => h ⟨UInt32.not_lt.mp hversion, by omega⟩
  · exact iff_of_false (fun h => h _ rfl) fun h => h ⟨UInt32.not_lt.mp hversion, by omega⟩
  · exact iff_of_true (.err _) fun h => by omega
  · exact iff_of_true (.ok _) fun h => by omega

/-- **The bytes a version message panics on**: behind the eighty bytes of its first fields, a length of
the user agent that is too large for a buffer, or a timestamp that overflows. -/
inductive Version.Crashes (now : UInt32) (bs : List UInt8) : Prop
  | userAgent : 80 ≤ bs.length → LongString (bs.drop 80) → Crashes now bs
  | timestamp : Version.Overflows now bs → Crashes now bs

/-- The fields in front of the user agent. -/
def Version.readFields : Decoder Error Version := do
  let version ← readU32
  let services ← readU64
  let timestamp ← readI64
  let recvAddr ← NodeAddr.read
  let txAddr ← NodeAddr.read
  let nonce ← readU64
  pure { version, services, timestamp, recvAddr, txAddr, nonce, userAgent := "", startHeight := 0,
         relay := false }

theorem Version.takes_readFields : Takes Version.readFields 80 80 :=
  Takes.readU32.bind fun _ => Takes.readU64.bind fun _ => Takes.readI64.bind fun _ =>
    NodeAddr.takes.bind fun _ => NodeAddr.takes.bind fun _ => Takes.readU64.bind fun _ => Takes.pure _

theorem Version.panicless_readFields : Panicless Version.readFields := by
  have haddr : Panicless NodeAddr.read :=
    Panicless.readU64.bind fun _ => (Panicless.readSome 16).bind fun _ =>
      Panicless.readU16BE.bind fun _ => .pure _
  refine Panicless.readU32.bind fun _ => Panicless.readU64.bind fun _ => ?_
  refine Panicless.readI64.bind fun _ => haddr.bind fun _ => haddr.bind fun _ => ?_
  exact Panicless.readU64.bind fun _ => .pure _

theorem Version.readChecked_eq : Version.readChecked = (do
    let v ← Version.readFields
    let userAgent ← readStringChecked
    let startHeight ← readI32
    let relay ← readU8
    pure { v with userAgent, startHeight, relay := relay == 0x01 }) := by
  simp only [Version.readChecked, Version.readFields, bind_assoc, pure_bind]

theorem Version.safe_iff (bs : List UInt8) :
    Outcome.Safe (Version.readChecked bs) ↔ ¬ (80 ≤ bs.length ∧ LongString (bs.drop 80)) := by
  have hagent (v : Version) (s : List UInt8) : Outcome.Safe ((do
      let userAgent ← readStringChecked
      let startHeight ← readI32
      let relay ← readU8
      pure { v with userAgent, startHeight, relay := relay == 0x01 } : Decoder Error Version) s)
      ↔ ¬ LongString s := by
    rw [Decoder.bind_apply, Outcome.safe_bind_iff, safe_readString_iff]
    refine and_iff_left fun x _ => ?_
    exact Panicless.bind Panicless.readI32 (fun _ => Panicless.readU8.bind fun _ => .pure _) x.2
  rw [Version.readChecked_eq, Version.takes_readFields.safe_bind_iff Version.panicless_readFields hagent,
    not_and]

/-! ## Frames -/

namespace Kind

/-- The kinds of message whose payload is fetched. -/
def hasPayload : Kind → Bool
  | .getAddr | .mempool | .sendHeaders | .verack => false
  | _ => true

/-- The payloads of a kind of message that its decoder panics on. -/
def Crashes (now : UInt32) : Kind → List UInt8 → Prop
  | .block => Block.Crashes
  | .reject => Reject.Crashes
  | .tx => Tx.Crashes
  | .version => Version.Crashes now
  | _ => fun _ => False

end Kind

namespace Message

variable (sha256 : List UInt8 → Bytes 32)

/-- The payload a header announces stands at the start of the stream, with its checksum. -/
def Announced (header : MessageHeader) (s payload rest : List UInt8) : Prop :=
  s = payload ++ rest ∧ payload.length = header.payloadSize.toNat
    ∧ checksumOf (sha256d sha256 payload) = header.checksum

theorem Announced.unique {header : MessageHeader} {s payload rest payload' rest' : List UInt8}
    (h : Announced sha256 header s payload rest) (h' : Announced sha256 header s payload' rest') :
    payload = payload' :=
  (List.append_inj (h.1.symm.trans h'.1) (h.2.1.trans h'.2.1.symm)).1

/-- **A payload is decoded if it is there**, and only then. -/
theorem readPayload_cases {α : Type} (header : MessageHeader) (p : Decoder Error α)
    (s : List UInt8) :
    (∃ payload rest, Announced sha256 header s payload rest
      ∧ (readPayload sha256 header p : StreamM (List UInt8) α) s = (Prod.fst <$> p payload, rest))
    ∨ ((∀ payload rest, ¬ Announced sha256 header s payload rest)
      ∧ ∃ e s', (readPayload sha256 header p : StreamM (List UInt8) α) s = (.error (.error e), s')) := by
  obtain ⟨payload, rest, hs, hlen, hsum, hfetch⟩ | ⟨hnone, e, s', hfail⟩ :=
    header.payload_cases sha256 s
  · refine .inl ⟨payload, rest, ⟨hs, hlen, hsum⟩, ?_⟩
    rw [readPayload, Op.bind_apply, hfetch]
    dsimp only
    rw [Op.bind_apply, Op.lift]
    rcases p payload with e | v
    · rfl
    · rfl
  · refine .inr ⟨fun payload rest h => hnone payload rest h.1 h.2.1 h.2.2, e, s', ?_⟩
    rw [readPayload, Op.bind_apply, hfail]

/-- Behind its buffer, fetching a payload does not panic, decoding it may. -/
theorem safe_readPayload_iff {α : Type} (header : MessageHeader) (p : Decoder Error α)
    (s : List UInt8) :
    Outcome.Safe ((readPayload sha256 header p : StreamM (List UInt8) α) s).1
      ↔ ∀ payload rest, Announced sha256 header s payload rest → Outcome.Safe (p payload) := by
  obtain ⟨payload, rest, hann, hread⟩ | ⟨hnone, e, s', hfail⟩ := readPayload_cases sha256 header p s
  · rw [hread, Outcome.safe_map_iff]
    exact ⟨fun h _ _ hann' => hann.unique sha256 hann' ▸ h, fun h => h payload rest hann⟩
  · rw [hfail]
    exact iff_of_true (.err e) fun payload rest hann => absurd hann (hnone payload rest)

/-- The buffer of a payload is made first. -/
theorem safe_payloadChecked_bind_iff {α : Type} (header : MessageHeader)
    (f : List UInt8 → StreamM (List UInt8) α) (s : List UInt8) :
    Outcome.Safe ((payloadChecked sha256 header >>= f : StreamM (List UInt8) α) s).1
      ↔ ¬ Oversized 1 header.payloadSize.toNat
        ∧ Outcome.Safe ((header.payload sha256 >>= f : StreamM (List UInt8) α) s).1 := by
  rw [payloadChecked, bind_assoc, Op.bind_apply, Op.lift, withCapacity]
  split_ifs with h
  · exact iff_of_false (fun hsafe => hsafe _ rfl) fun hn => hn.1 h
  · exact ⟨fun hsafe => ⟨h, hsafe⟩, fun hn => hn.2⟩

/-- **A branch of `read_partial` that only decodes a payload.** -/
theorem safe_map_readPayload {α : Type} (g : α → Message) (header : MessageHeader)
    (p : Decoder Error α) (s : List UInt8) :
    Outcome.Safe ((g <$> readPayloadChecked sha256 header p : StreamM (List UInt8) Message) s).1
      ↔ ¬ Oversized 1 header.payloadSize.toNat
        ∧ ∀ payload rest, Announced sha256 header s payload rest → Outcome.Safe (p payload) := by
  rw [Op.map_apply, Outcome.safe_map_iff, readPayloadChecked, safe_payloadChecked_bind_iff]
  exact and_congr_right fun _ => safe_readPayload_iff sha256 header p s

/-- A version that is read and validated. -/
theorem safe_readVersion_validate_iff (now : UInt32) (payload : List UInt8) :
    Outcome.Safe (Version.readChecked payload >>= fun v => v.1.validate now)
      ↔ ¬ Version.Crashes now payload := by
  rcases hv : Version.readChecked payload with (e | msg) | ⟨v, tail⟩
  · refine iff_of_true (.err e) ?_
    have hsafe : Outcome.Safe (Version.readChecked payload) := hv ▸ .err e
    rintro (⟨hlen, hlong⟩ | ⟨v, tail, hv', -⟩)
    · exact (Version.safe_iff payload).mp hsafe ⟨hlen, hlong⟩
    · rw [← Version.unless_read.eq_of_safe hsafe, hv] at hv'
      cases hv'
  · refine iff_of_false (fun h => h msg rfl) fun h => ?_
    refine absurd hv ((Version.safe_iff payload).mpr ?_ msg)
    exact fun hlong => h (.userAgent hlong.1 hlong.2)
  · have hsafe : Outcome.Safe (Version.readChecked payload) := hv ▸ .ok _
    change Outcome.Safe (v.validate now) ↔ _
    rw [Version.safe_validate_iff, not_iff_not]
    constructor
    · exact fun h => .timestamp ⟨v, tail, Version.unless_read.of_ok hv, h⟩
    · rintro (⟨hlen, hlong⟩ | ⟨v', tail', hv', h⟩)
      · exact absurd ⟨hlen, hlong⟩ ((Version.safe_iff payload).mp hsafe)
      · rw [← Version.unless_read.eq_of_safe hsafe, hv] at hv'
        cases hv'
        exact h

/-- …and one that goes on to validate it. -/
theorem safe_readKind_version_iff (now : UInt32) (header : MessageHeader) (s : List UInt8) :
    Outcome.Safe ((readKindChecked sha256 now header .version : StreamM (List UInt8) Message) s).1
      ↔ ¬ Oversized 1 header.payloadSize.toNat
        ∧ ∀ payload rest, Announced sha256 header s payload rest → ¬ Version.Crashes now payload := by
  rw [readKindChecked, readPayloadChecked, bind_assoc, safe_payloadChecked_bind_iff, ← bind_assoc]
  refine and_congr_right fun _ => ?_
  change Outcome.Safe ((readPayload sha256 header Version.readChecked >>= fun v =>
    Op.lift (v.validate now) >>= fun _ => pure (Message.version v)
      : StreamM (List UInt8) Message) s).1 ↔ _
  rw [Op.bind_apply]
  obtain ⟨payload, rest, hann, hread⟩ | ⟨hnone, e, s', hfail⟩ :=
    readPayload_cases sha256 header Version.readChecked s
  · have honly : (∀ payload rest, Announced sha256 header s payload rest →
        ¬ Version.Crashes now payload) ↔ ¬ Version.Crashes now payload :=
      ⟨fun h => h payload rest hann, fun h _ _ hann' => hann.unique sha256 hann' ▸ h⟩
    rw [hread, honly, ← safe_readVersion_validate_iff]
    rcases Version.readChecked payload with (e | msg) | ⟨v, tail⟩
    · exact iff_of_true (.err e) (.err e)
    · exact iff_of_false (fun h => h msg rfl) fun h => h msg rfl
    · change Outcome.Safe ((Op.lift (v.validate now) >>= fun _ => pure (Message.version v)
        : StreamM (List UInt8) Message) rest).1 ↔ Outcome.Safe (v.validate now)
      rw [Op.bind_apply, Op.lift]
      rcases v.validate now with (e | msg) | _
      · exact iff_of_true (.err e) (.err e)
      · exact iff_of_false (fun h => h msg rfl) fun h => h msg rfl
      · exact iff_of_true (.ok _) (.ok _)
  · rw [hfail]
    exact iff_of_true (.err e) fun payload rest hann => absurd hann (hnone payload rest)

theorem safe_readEmpty (header : MessageHeader) (m : Message) (s : List UInt8) :
    Outcome.Safe ((readEmpty header m : StreamM (List UInt8) Message) s).1 := by
  unfold readEmpty
  split_ifs
  · exact .err _
  · exact .ok m

/-- **A branch of `read_partial` panics exactly at too large a payload of a kind that has one, and on
the payloads of its kind that crash it.** -/
theorem safe_readKind_iff (now : UInt32) (header : MessageHeader) (k : Kind) (s : List UInt8) :
    Outcome.Safe ((readKindChecked sha256 now header k : StreamM (List UInt8) Message) s).1
      ↔ (k.hasPayload → ¬ Oversized 1 header.payloadSize.toNat)
        ∧ ∀ payload rest, Announced sha256 header s payload rest → ¬ k.Crashes now payload := by
  -- the other kinds have no payload, or a decoder that does not panic
  have hempty (m : Message) : Outcome.Safe ((readEmpty header m : StreamM (List UInt8) Message) s).1
      ↔ (false = true → ¬ Oversized 1 header.payloadSize.toNat)
        ∧ ∀ payload rest, Announced sha256 header s payload rest → ¬ False :=
    iff_of_true (safe_readEmpty header m s) ⟨nofun, fun _ _ _ h => h⟩
  have hpayload {α : Type} {p : Decoder Error α} {C : List UInt8 → Prop}
      (hp : ∀ b, Outcome.Safe (p b) ↔ ¬ C b) (g : α → Message) :
      Outcome.Safe ((g <$> readPayloadChecked sha256 header p : StreamM (List UInt8) Message) s).1
        ↔ (true = true → ¬ Oversized 1 header.payloadSize.toNat)
          ∧ ∀ payload rest, Announced sha256 header s payload rest → ¬ C payload :=
    (safe_map_readPayload sha256 g header p s).trans <|
      and_congr ⟨fun h _ => h, fun h => h rfl⟩ (forall₃_congr fun b _ _ => hp b)
  have hplain {α : Type} {p : Decoder Error α} (hp : Panicless p) (b : List UInt8) :
      Outcome.Safe (p b) ↔ ¬ False := iff_of_true (hp b) id
  cases k with
  | block => exact hpayload Block.safe_iff _
  | tx => exact hpayload Tx.safe_iff _
  | reject => exact hpayload Reject.safe_iff _
  | version =>
    exact (safe_readKind_version_iff sha256 now header s).trans
      (and_congr_left' ⟨fun h _ => h, fun h => h rfl⟩)
  | getAddr => exact hempty _
  | mempool => exact hempty _
  | sendHeaders => exact hempty _
  | verack => exact hempty _
  | getData => exact hpayload (hplain Inv.panicless) _
  | headers => exact hpayload (hplain Headers.panicless) _
  | cFilters => exact hpayload (hplain CompactFilter.panicless) _
  | cfHeaders => exact hpayload (hplain CompactFilterHeader.panicless) _
  | inv => exact hpayload (hplain Inv.panicless) _
  | notFound => exact hpayload (hplain Inv.panicless) _
  | ping => exact hpayload (hplain Ping.panicless) _
  | pong => exact hpayload (hplain Ping.panicless) _

theorem safe_readPartial_iff (now : UInt32) (header : MessageHeader) (s : List UInt8) :
    Outcome.Safe ((readPartialChecked sha256 now header : StreamM (List UInt8) Message) s).1
      ↔ ((∀ k : Kind, header.command = k.command → k.hasPayload) →
          ¬ Oversized 1 header.payloadSize.toNat)
        ∧ ∀ (payload rest : List UInt8) (k : Kind), Announced sha256 header s payload rest →
          header.command = k.command → ¬ k.Crashes now payload := by
  unfold readPartialChecked
  rcases hk : Kind.ofCommand header.command with _ | k
  · have hnone (k : Kind) : header.command ≠ k.command := by
      intro hcommand
      rw [hcommand, Kind.ofCommand_command] at hk
      cases hk
    have hright : ∀ (payload rest : List UInt8) (k : Kind), Announced sha256 header s payload rest →
        header.command = k.command → ¬ k.Crashes now payload :=
      fun _ _ k _ hcommand => absurd hcommand (hnone k)
    rw [and_iff_left hright, forall_prop_of_true fun k hcommand => absurd hcommand (hnone k)]
    dsimp only
    split_ifs with hpos
    · rw [safe_payloadChecked_bind_iff, Op.bind_apply]
      refine and_iff_left ?_
      obtain ⟨payload, rest, -, -, -, hfetch⟩ | ⟨-, e, s', hfail⟩ := header.payload_cases sha256 s
      · rw [hfetch]
        exact .ok _
      · rw [hfail]
        exact .err e
    · refine iff_of_true (.ok _) fun hsize => ?_
      rw [UInt32.not_lt, UInt32.le_iff_toNat_le] at hpos
      rw [Nat.le_zero.mp hpos] at hsize
      exact absurd hsize (by decide)
  · have hcommand : header.command = k.command := Kind.command_of_ofCommand hk
    have honly (k' : Kind) (h : header.command = k'.command) : k' = k := by
      rw [h, Kind.ofCommand_command] at hk
      exact Option.some.inj hk
    refine (safe_readKind_iff sha256 now header k s).trans (and_congr ?_ ?_)
    · refine imp_congr_left ⟨fun h k' h' => honly k' h' ▸ h, fun h => h k hcommand⟩
    · exact ⟨fun h payload rest k' hann h' => honly k' h' ▸ h payload rest hann,
        fun h payload rest hann => h payload rest k hann hcommand⟩

/-- **The streams that `Message::read` panics on.**  A header of an unknown kind, or of one with a
payload, announces a payload that is too large for a buffer; or a frame is whole, with its checksum, and
its payload crashes the decoder of its kind. -/
inductive Crashes (now : UInt32) (s : List UInt8) : Prop
  | size (header : MessageHeader) (rest : List UInt8) : s = emitted header.write ++ rest →
    (∀ k : Kind, header.command = k.command → k.hasPayload) →
    Oversized 1 header.payloadSize.toNat → Crashes now s
  | payload (header : MessageHeader) (payload rest : List UInt8) (k : Kind) :
    s = emitted header.write ++ payload ++ rest → payload.length = header.payloadSize.toNat →
    checksumOf (sha256d sha256 payload) = header.checksum → header.command = k.command →
    k.Crashes now payload → Crashes now s

/-- Behind a header, a stream crashes it by what follows the header. -/
theorem not_crashes_iff (now : UInt32) {s s' : List UInt8} {header : MessageHeader}
    (hs : s = emitted header.write ++ s') :
    ¬ Crashes sha256 now s ↔ ((∀ k : Kind, header.command = k.command → k.hasPayload) →
          ¬ Oversized 1 header.payloadSize.toNat)
        ∧ ∀ (payload rest : List UInt8) (k : Kind), Announced sha256 header s' payload rest →
          header.command = k.command → ¬ k.Crashes now payload := by
  have honly : ∀ (header' : MessageHeader) (bs : List UInt8), s = emitted header'.write ++ bs →
      header' = header ∧ bs = s' := by
    rintro header' bs hs'
    have hread' := header'.consumes_read bs
    rw [← hs', hs, header.consumes_read s'] at hread'
    cases hread'
    exact ⟨rfl, rfl⟩
  constructor
  · intro h
    refine ⟨fun hkind hsize => h (.size header s' hs hkind hsize), ?_⟩
    rintro payload rest k ⟨rfl, hlen, hsum⟩ hcommand hcrash
    refine h (.payload header payload rest k ?_ hlen hsum hcommand hcrash)
    rw [hs, List.append_assoc]
  · rintro ⟨hsize, hpayload⟩ (⟨header', rest, hs', hkind, hover⟩
      | ⟨header', payload, rest, k, hs', hlen, hsum, hcommand, hcrash⟩)
    · obtain ⟨rfl, -⟩ := honly header' rest hs'
      exact hsize hkind hover
    · rw [List.append_assoc] at hs'
      obtain ⟨rfl, hbs⟩ := honly header' _ hs'
      exact hpayload payload rest k ⟨hbs.symm, hlen, hsum⟩ hcommand hcrash

/-- The header of a payload, under a hash that is always zero. -/
def zeroHeader (k : Kind) (payload : List UInt8) : MessageHeader :=
  { magic := default, command := k.command, payloadSize := UInt32.ofNat payload.length,
    checksum := default }

/-- The frame of a payload, under that hash. -/
def zeroFrame (k : Kind) (payload : List UInt8) : List UInt8 :=
  emitted (zeroHeader k payload).write ++ payload

/-- A transaction of version two without inputs and with flag zero. -/
def flaglessTx : List UInt8 := [2, 0, 0, 0, 0, 0]

/-- A block with that transaction. -/
def flaglessBlock : List UInt8 := List.replicate 80 0 ++ [1] ++ flaglessTx

/-- A version sent at the first second that an `i64` can hold. -/
def ancientVersion : Version :=
  { version := 70015, services := 0, timestamp := Int64.minValue, recvAddr := default,
    txAddr := default, nonce := 0, userAgent := "", startHeight := 0, relay := false }

/-- A transaction that announces `2 ^ 64 - 1` inputs. -/
def crowdedTx : List UInt8 := [2, 0, 0, 0] ++ List.replicate 9 255

/-- A header that announces a pong of two gigabytes. -/
def hugePong : MessageHeader := { zeroHeader .pong [] with payloadSize := 0x80000000 }

end Message

end Bitspend.Wire
