import Bitspend.Wire.Message

/-!
# Wire/RoundTrip — a frame that was written is read back

`Consumes x bs a` lifts `Decodes` to the stream: `x` returns `a` from `bs` and leaves what follows.
A frame is a header and a payload, so a message is read back once its header is recovered, the
checksum matches and the payload decodes; the command selects the decoder that matches the encoder
(`Kind.ofCommand_command`).  A frame with an unknown command is skipped whole.
-/

namespace Bitspend.Wire

/-! ## Exact reads from a stream -/

/-- **`x` reads `a` from `bs`, whatever follows.** -/
def Consumes {α : Type} (x : StreamM (List UInt8) α) (bs : List UInt8) (a : α) : Prop :=
  ∀ rest, x (bs ++ rest) = (.ok a, rest)

namespace Consumes

variable {α β : Type}

/-- The byte string may be spelled in any way. -/
theorem congr {x : StreamM (List UInt8) α} {bs bs' : List UInt8} {a : α} (h : Consumes x bs a)
    (hb : bs' = bs) : Consumes x bs' a := hb ▸ h

theorem pure (a : α) : Consumes (Pure.pure a) [] a := fun _ => rfl

theorem lift {x : Outcome Error α} {a : α} (h : x = .ok a) : Consumes (Op.lift x) [] a := by
  intro rest
  rw [Op.lift, h]
  rfl

theorem bind {x : StreamM (List UInt8) α} {f : α → StreamM (List UInt8) β} {bs cs : List UInt8}
    {a : α} {b : β} (hx : Consumes x bs a) (hf : Consumes (f a) cs b) :
    Consumes (x >>= f) (bs ++ cs) b := by
  intro rest
  rw [Op.bind_apply, List.append_assoc, hx (cs ++ rest)]
  exact hf rest

theorem map {x : StreamM (List UInt8) α} {bs : List UInt8} {a : α} (g : α → β)
    (hx : Consumes x bs a) : Consumes (g <$> x) bs (g a) := by
  have h := hx.bind (f := fun a => Pure.pure (g a)) (pure (g a))
  rwa [List.append_nil, bind_pure_comp] at h

/-- A source of bytes hands out a buffer that is there. -/
theorem readExact {n : ℕ} (b : Bytes n) :
    Consumes (Source.readExact n : StreamM (List UInt8) (Bytes n)) b.toList b := by
  intro rest
  simp only [Source.readExact, Decodes.readExact b rest]

end Consumes

/-! ## Frames -/

namespace MessageHeader

@[simp] theorem length_write (h : MessageHeader) : (emitted h.write).length = SIZE := by
  simp [write, SIZE]

theorem decodes_parse (h : MessageHeader) : Decodes parse (emitted h.write) h :=
  ((Decodes.readSome h.magic).bind ((Decodes.readSome h.command).bind
    ((Decodes.readU32 h.payloadSize).bind ((Decodes.readSome h.checksum).map
      fun c => MessageHeader.mk h.magic h.command h.payloadSize c)))).congr (by simp [write])

/-- **A header is read back.** -/
theorem consumes_read (h : MessageHeader) : Consumes read (emitted h.write) h := by
  have hparse : parse (emitted h.write) = .ok (h, []) := by
    simpa using decodes_parse h []
  exact ((Consumes.readExact ⟨emitted h.write, length_write h⟩).bind
    ((Consumes.lift hparse).bind (Consumes.pure h))).congr (by simp)

/-- Any twenty-four bytes are a header. -/
theorem exists_write_eq {bs : List UInt8} (hlen : bs.length = SIZE) :
    ∃ h : MessageHeader, emitted h.write = bs := by
  have h4 : ((bs.drop 16).take 4).length = 4 := by simp [hlen, SIZE]
  refine ⟨⟨⟨bs.take 4, by simp [hlen, SIZE]⟩, ⟨(bs.drop 4).take 12, by simp [hlen, SIZE]⟩,
    UInt32.ofNat (ofLE ((bs.drop 16).take 4)), ⟨(bs.drop 20).take 4, by simp [hlen, SIZE]⟩⟩, ?_⟩
  have hend : (bs.drop 20).take 4 = bs.drop 20 := List.take_of_length_le (by simp [hlen, SIZE])
  have h16 : (bs.drop 16).take 4 ++ bs.drop 20 = bs.drop 16 := by
    rw [← List.drop_drop (i := 4) (j := 16), List.take_append_drop]
  have h4' : (bs.drop 4).take 12 ++ bs.drop 16 = bs.drop 4 := by
    rw [← List.drop_drop (i := 12) (j := 4), List.take_append_drop]
  simp only [write, emitted_cons, WriteCall.buf_write, WriteCall.buf_writeAll, emitted_nil,
    List.append_nil, u32LE_ofLE h4, hend, h16, h4']
  exact List.take_append_drop 4 bs

/-- **A header is read from any stream that is long enough**, and only from such. -/
theorem read_cases (s : List UInt8) :
    (∃ (h : MessageHeader) (rest : List UInt8), s = emitted h.write ++ rest
      ∧ (read : StreamM (List UInt8) MessageHeader) s = (.ok h, rest))
    ∨ (s.length < SIZE
      ∧ (read : StreamM (List UInt8) MessageHeader) s = (.error (.error EofError.eof), [])) := by
  by_cases hlen : SIZE ≤ s.length
  · obtain ⟨h, hh⟩ := exists_write_eq (List.length_take_of_le hlen)
    obtain ⟨rest, rfl⟩ : ∃ rest, s = emitted h.write ++ rest :=
      ⟨s.drop SIZE, by rw [hh, List.take_append_drop]⟩
    exact .inl ⟨h, rest, rfl, h.consumes_read rest⟩
  · refine .inr ⟨Nat.lt_of_not_le hlen, ?_⟩
    have hshort : (readExact SIZE : Decoder Error (Bytes SIZE)) s = .error (.error EofError.eof) :=
      dif_neg hlen
    simp only [read, Op.bind_apply, Source.readExact, hshort]

/-- **A payload with the announced size and checksum is fetched.** -/
theorem consumes_payload (sha256 : List UInt8 → Bytes 32) {h : MessageHeader} {p : List UInt8}
    (hsize : p.length = h.payloadSize.toNat) (hsum : checksumOf (sha256d sha256 p) = h.checksum) :
    Consumes (h.payload sha256) p p := by
  rw [← p.append_nil]
  refine (Consumes.readExact ⟨p, hsize⟩).bind ?_
  rw [p.append_nil, if_neg (by simpa using hsum)]
  exact Consumes.pure p

/-- **A payload is fetched, or there is none with the announced size and checksum.** -/
theorem payload_cases (sha256 : List UInt8 → Bytes 32) (h : MessageHeader) (s : List UInt8) :
    (∃ p rest, s = p ++ rest ∧ p.length = h.payloadSize.toNat
      ∧ checksumOf (sha256d sha256 p) = h.checksum
      ∧ (h.payload sha256 : StreamM (List UInt8) (List UInt8)) s = (.ok p, rest))
    ∨ ((∀ p rest, s = p ++ rest → p.length = h.payloadSize.toNat →
        checksumOf (sha256d sha256 p) ≠ h.checksum)
      ∧ ∃ e s', (h.payload sha256 : StreamM (List UInt8) (List UInt8)) s = (.error (.error e), s')) := by
  by_cases hlen : h.payloadSize.toNat ≤ s.length
  · have hp := List.length_take_of_le hlen
    have hs := (List.take_append_drop h.payloadSize.toNat s).symm
    by_cases hsum : checksumOf (sha256d sha256 (s.take h.payloadSize.toNat)) = h.checksum
    · refine .inl ⟨_, _, hs, hp, hsum, ?_⟩
      have hfetch := consumes_payload sha256 hp hsum (s.drop h.payloadSize.toNat)
      rwa [← hs] at hfetch
    · refine .inr ⟨fun p rest heq hlen' => ?_, ?_⟩
      · rwa [heq, ← hlen', List.take_left] at hsum
      · have hread := Consumes.readExact ⟨s.take h.payloadSize.toNat, hp⟩ (s.drop h.payloadSize.toNat)
        rw [← hs] at hread
        rw [payload, Op.bind_apply, hread]
        dsimp only
        rw [if_pos hsum]
        exact ⟨_, _, rfl⟩
  · refine .inr ⟨fun p rest heq hlen' => ?_, EofError.eof, [], ?_⟩
    · rw [heq, List.length_append] at hlen
      omega
    · have hshort : (readExact h.payloadSize.toNat : Decoder Error (Bytes h.payloadSize.toNat)) s
          = .error (.error EofError.eof) := dif_neg hlen
      simp only [payload, Op.bind_apply, Source.readExact, hshort]

end MessageHeader

namespace Message

variable (sha256 : List UInt8 → Bytes 32)

/-- The body of `Message.read` after the header: a message that is read is returned with it. -/
theorem consumes_read_of_readPartial {now : UInt32} {h : MessageHeader} {bs : List UInt8}
    {m : Message} (hbody : Consumes (readPartial sha256 now h) bs m) :
    Consumes (read sha256 now) (emitted h.write ++ bs) (m, h) := by
  refine h.consumes_read.bind fun rest => ?_
  simp only [hbody rest]

/-- **A payload that decodes is read back**, under the header written for it. -/
theorem consumes_readPayload {α : Type} [Payload α] {p : Decoder Error α} {v : α} {c : Bytes 12}
    {magic : Bytes 4} (hsize : (emitted (Payload.write v)).length = Payload.size v)
    (hlt : Payload.size v < 2 ^ 32) (hdec : Decodes p (emitted (Payload.write v)) v) :
    Consumes (readPayload sha256 (headerWithPayload sha256 c v magic) p)
      (emitted (Payload.write v)) v := by
  have hfetch := MessageHeader.consumes_payload sha256 (h := headerWithPayload sha256 c v magic)
    (p := emitted (Payload.write v))
    (by rw [hsize, headerWithPayload, UInt32.toNat_ofNat_of_lt' hlt]) rfl
  have hval : p (emitted (Payload.write v)) = .ok (v, []) := by simpa using hdec []
  exact (hfetch.bind ((Consumes.lift hval).bind (Consumes.pure v))).congr (by simp)

/-- A header without payload passes the emptiness test. -/
theorem consumes_readEmpty (c : Bytes 12) (magic : Bytes 4) (m : Message) :
    Consumes (readEmpty (headerWithoutPayload c magic) m) [] m := by
  rw [readEmpty, if_neg (by simp [headerWithoutPayload])]
  exact Consumes.pure m

/-- **The message round-trips**: it is written as a header and a payload of the announced size, and
the reader gets it back with that header, leaving whatever follows. -/
def RoundTrips (now : UInt32) (magic : Bytes 4) (m : Message) : Prop :=
  ∃ header payload, m.write sha256 magic = .ok (header.write ++ payload) ∧
    header.magic = magic ∧ (emitted payload).length = header.payloadSize.toNat ∧
      ∀ rest, read sha256 now (emitted (header.write ++ payload) ++ rest) = (.ok (m, header), rest)

/-- **A message with a payload round-trips**, given that its kind's branch reads it. -/
theorem roundTrips_withPayload {α : Type} [Payload α] {now : UInt32} {magic : Bytes 4} {m : Message}
    {k : Kind} {v : α} (hsize : (emitted (Payload.write v)).length = Payload.size v)
    (hlt : Payload.size v < 2 ^ 32)
    (hwrite : m.write sha256 magic = writeWithPayload sha256 k.command v magic)
    (hread : Consumes (readKind sha256 now (headerWithPayload sha256 k.command v magic) k)
      (emitted (Payload.write v)) m) : RoundTrips sha256 now magic m := by
  refine ⟨headerWithPayload sha256 k.command v magic, Payload.write v, hwrite, rfl, ?_, ?_⟩
  · rw [hsize, headerWithPayload, UInt32.toNat_ofNat_of_lt' hlt]
  · rw [emitted_append]
    refine consumes_read_of_readPartial sha256 ?_
    rw [readPartial, headerWithPayload, Kind.ofCommand_command]
    exact hread

/-- **A message without a payload round-trips.** -/
theorem roundTrips_withoutPayload {now : UInt32} {magic : Bytes 4} {m : Message} {k : Kind}
    (hwrite : m.write sha256 magic = writeWithoutPayload k.command magic)
    (hread : readKind sha256 now (headerWithoutPayload k.command magic) k
      = (readEmpty (headerWithoutPayload k.command magic) m : StreamM (List UInt8) Message)) :
    RoundTrips sha256 now magic m := by
  refine ⟨headerWithoutPayload k.command magic, [], by rw [hwrite, List.append_nil]; rfl, rfl,
    rfl, ?_⟩
  rw [emitted_append]
  refine consumes_read_of_readPartial sha256 ?_
  rw [readPartial, headerWithoutPayload, Kind.ofCommand_command]
  change Consumes (readKind sha256 now (headerWithoutPayload k.command magic) k) [] m
  rw [hread]
  exact consumes_readEmpty k.command magic m

/-- The messages `read_partial` decodes, with the limits their readers impose and a payload whose
size fits the header's field. -/
def WellFormed (now : UInt32) : Message → Prop
  | block b => (∀ t ∈ b.txns, t.WellFormed) ∧ b.size < 2 ^ 32
  | tx t => t.WellFormed ∧ t.size < 2 ^ 32
  | getData i | inv i | notFound i => i.objects.length ≤ MAX_INV_ENTRIES
  | headers h => h.size < 2 ^ 32
  | cFilters f => f.size < 2 ^ 32
  | cfHeaders f => f.size < 2 ^ 32
  | reject r => r.WellFormed ∧ r.size < 2 ^ 32
  | version v => v.validate now = .ok () ∧ v.size < 2 ^ 32
  | ping _ | pong _ | getAddr | mempool | sendHeaders | verack => True
  | getBlocks _ | getHeaders _ | getCFilters _ | getCFHeaders _ | other _ | partialRead _ => False

theorem size_inv_lt {i : Inv} (h : i.objects.length ≤ MAX_INV_ENTRIES) : i.size < 2 ^ 32 := by
  have hv : VarInt.sizeLen i.objects ≤ 9 := by
    unfold VarInt.sizeLen VarInt.size
    split_ifs <;> omega
  simp only [Inv.size, InvVect.SIZE, MAX_INV_ENTRIES] at *
  omega

theorem size_ping_lt (p : Ping) : p.size < 2 ^ 32 := by
  simp [Ping.size, Ping.SIZE]

/-- **A kind with a payload round-trips**, when its reader is the payload's. -/
theorem roundTrips_of_decodes {α : Type} [Payload α] {now : UInt32} {magic : Bytes 4} {k : Kind}
    {p : Decoder Error α} (message : α → Message) (v : α)
    (hsize : (emitted (Payload.write v)).length = Payload.size v) (hlt : Payload.size v < 2 ^ 32)
    (hdec : Decodes p (emitted (Payload.write v)) v)
    (hwrite : (message v).write sha256 magic = writeWithPayload sha256 k.command v magic)
    (hkind : ∀ h, (readKind sha256 now h k : StreamM (List UInt8) Message)
      = readPayload sha256 h p >>= fun v => pure (message v)) :
    RoundTrips sha256 now magic (message v) := by
  refine roundTrips_withPayload sha256 hsize hlt hwrite ?_
  rw [hkind]
  exact (consumes_readPayload sha256 hsize hlt hdec).map message

/-- **Every well-formed message round-trips**, one case per kind. -/
theorem roundTrips_of_wellFormed {now : UInt32} {magic : Bytes 4} {m : Message}
    (hwf : m.WellFormed now) : RoundTrips sha256 now magic m := by
  cases m with
  | block b =>
    exact roundTrips_of_decodes sha256 (k := .block) block b b.length_write hwf.2
      (Block.decodes hwf.1 (lt_trans hwf.2 (by decide))) rfl fun _ => rfl
  | tx t =>
    exact roundTrips_of_decodes sha256 (k := .tx) tx t t.length_write hwf.2
      (Tx.decodes hwf.1 (lt_trans hwf.2 (by decide))) rfl fun _ => rfl
  | getData i =>
    exact roundTrips_of_decodes sha256 (k := .getData) getData i i.length_write (size_inv_lt hwf)
      (Inv.decodes hwf) rfl fun _ => rfl
  | inv i =>
    exact roundTrips_of_decodes sha256 (k := .inv) inv i i.length_write (size_inv_lt hwf)
      (Inv.decodes hwf) rfl fun _ => rfl
  | notFound i =>
    exact roundTrips_of_decodes sha256 (k := .notFound) notFound i i.length_write (size_inv_lt hwf)
      (Inv.decodes hwf) rfl fun _ => rfl
  | headers h =>
    exact roundTrips_of_decodes sha256 (k := .headers) headers h h.length_write hwf
      (Headers.decodes (lt_trans hwf (by decide))) rfl fun _ => rfl
  | cFilters f =>
    exact roundTrips_of_decodes sha256 (k := .cFilters) cFilters f f.length_write hwf
      (CompactFilter.decodes (lt_trans hwf (by decide))) rfl fun _ => rfl
  | cfHeaders f =>
    exact roundTrips_of_decodes sha256 (k := .cfHeaders) cfHeaders f f.length_write hwf
      (CompactFilterHeader.decodes (lt_trans hwf (by decide))) rfl fun _ => rfl
  | ping p =>
    exact roundTrips_of_decodes sha256 (k := .ping) ping p p.length_write (size_ping_lt p) p.decodes
      rfl fun _ => rfl
  | pong p =>
    exact roundTrips_of_decodes sha256 (k := .pong) pong p p.length_write (size_ping_lt p) p.decodes
      rfl fun _ => rfl
  | reject r =>
    exact roundTrips_of_decodes sha256 (k := .reject) reject r r.length_write hwf.2
      (Reject.decodes hwf.1 hwf.2) rfl fun _ => rfl
  | version v =>
    have hread : Consumes (readPayload sha256
        (headerWithPayload sha256 Kind.version.command v magic) Version.read)
        (emitted (Payload.write v)) v :=
      consumes_readPayload sha256 v.length_write hwf.2 (Version.decodes hwf.2)
    -- the version read back is validated before it is returned
    exact roundTrips_withPayload sha256 (k := .version) v.length_write hwf.2 rfl
      ((hread.bind ((Consumes.lift hwf.1).bind (Consumes.pure (version v)))).congr (by simp))
  | getAddr => exact roundTrips_withoutPayload sha256 (k := .getAddr) rfl rfl
  | mempool => exact roundTrips_withoutPayload sha256 (k := .mempool) rfl rfl
  | sendHeaders => exact roundTrips_withoutPayload sha256 (k := .sendHeaders) rfl rfl
  | verack => exact roundTrips_withoutPayload sha256 (k := .verack) rfl rfl
  | getBlocks _ | getHeaders _ | getCFilters _ | getCFHeaders _ | other _ | partialRead _ =>
    exact hwf.elim

/-- **A frame with an unknown command is consumed whole.** -/
theorem consumes_unknown {now : UInt32} {h : MessageHeader} {p : List UInt8}
    (hk : Kind.ofCommand h.command = none) (hsize : p.length = h.payloadSize.toNat)
    (hsum : checksumOf (sha256d sha256 p) = h.checksum) :
    Consumes (read sha256 now) (emitted h.write ++ p) (.other (unknownCommand h.command), h) := by
  refine consumes_read_of_readPartial sha256 ?_
  rw [readPartial, hk]
  by_cases hpos : h.payloadSize > 0
  · simp only [hpos, if_true]
    exact ((MessageHeader.consumes_payload sha256 hsize hsum).bind
      (Consumes.pure (other (unknownCommand h.command)))).congr (by simp)
  · -- an empty payload is not even fetched
    have hzero : h.payloadSize.toNat = 0 := by
      by_contra hne
      exact hpos (UInt32.lt_iff_toNat_lt.mpr (Nat.pos_of_ne_zero hne))
    obtain rfl : p = [] := List.length_eq_zero_iff.mp (hsize.trans hzero)
    simp only [hpos, if_false]
    exact Consumes.pure (other (unknownCommand h.command))

/-- **Wire framing round-trips.**  Every well-formed message is read back from its own frame with
the header written, leaving what follows; every payload type announces the size it writes; and a
frame with an unknown command and a correct checksum is skipped exactly. -/
theorem read_write_frame (now : UInt32) (magic : Bytes 4) :
    (∀ m : Message, m.WellFormed now → RoundTrips sha256 now magic m) ∧
    (SizeExact Block ∧ SizeExact Tx ∧ SizeExact TxWitness ∧ SizeExact TxWitnessData ∧
      SizeExact Inv ∧ SizeExact Headers ∧ SizeExact CompactFilter ∧ SizeExact CompactFilterHeader ∧
      SizeExact BlockLocator ∧ SizeExact FilterLocator ∧ SizeExact Ping ∧ SizeExact Reject ∧
      SizeExact Version) ∧
    (∀ (h : MessageHeader) (p : List UInt8), Kind.ofCommand h.command = none →
      p.length = h.payloadSize.toNat → checksumOf (sha256d sha256 p) = h.checksum →
      ∀ rest, read sha256 now (emitted h.write ++ p ++ rest)
        = (.ok (.other (unknownCommand h.command), h), rest)) :=
  ⟨fun _ hwf => roundTrips_of_wellFormed sha256 hwf,
    ⟨Block.length_write, Tx.length_write, TxWitness.length_write, TxWitnessData.length_write,
      Inv.length_write, Headers.length_write, CompactFilter.length_write,
      CompactFilterHeader.length_write, BlockLocator.length_write, FilterLocator.length_write,
      Ping.length_write, Reject.length_write, Version.length_write⟩,
    fun _ _ hk hsize hsum => consumes_unknown sha256 hk hsize hsum⟩

/-- A segwit transaction with one input, one output and a two-item witness. -/
def sampleTx : Tx :=
  { version := 2, flag := some 1,
    inputs := [{ prevOutput := { hash := Bytes.zero 32, index := 7 }, unlockScript := [],
                 sequence := 0xffffffff }],
    outputs := [{ satoshis := 1000, lockScript := [0x00, 0x14] }],
    witnesses := some [{ witness := [{ witnessData := [1, 2, 3] }, { witnessData := [] }] }],
    lockTime := 0 }

/-- The round trip at a block holding that transaction, followed by two bytes of the next frame. -/
theorem read_write_frame_sampleBlock :
    ∃ header payload,
      (block { header := default, txns := [sampleTx] }).write (fun _ => Bytes.zero 32)
        (Bytes.zero 4) = .ok (header.write ++ payload) ∧
      read (fun _ => Bytes.zero 32) 0 (emitted (header.write ++ payload) ++ [0xfa, 0xbf])
        = (.ok (block { header := default, txns := [sampleTx] }, header), [0xfa, 0xbf]) := by
  obtain ⟨header, payload, hw, -, -, hr⟩ :=
    (read_write_frame (fun _ => Bytes.zero 32) 0 (Bytes.zero 4)).1
      (block { header := default, txns := [sampleTx] }) ⟨by decide, by decide⟩
  exact ⟨header, payload, hw, hr _⟩

end Message

end Bitspend.Wire
