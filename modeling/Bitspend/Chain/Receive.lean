import Bitspend.Chain.P2p
import Bitspend.Machinery.Feed
import Bitspend.Machinery.Sha256
import Bitspend.Wire.RoundTrip

/-!
# Chain/Receive — receiving from a stream of frames

`Peer::receive` on the socket itself: the bytes of the peer's frames, in pieces, with errors between them
that are not final.  A read that meets such an error has lost what it had read before it: after a frame's
header it answers with `Message::Partial`, before that with the error, and `receive` goes on in both cases
as if nothing had been taken off the stream.

So it stays in step with the frames as long as the errors stand between them, and falls out of step at the
first one that stands inside a frame; how long it does is in `Chain/InStep`.
-/

namespace Bitspend.Chain

open Wire Feed

/-! ## The socket -/

/-- The errors that are not final. -/
inductive Stall where
  | wouldBlock
  | timedOut
  deriving Repr, DecidableEq

/-- The error as `std::io` has it. -/
def Stall.error : Stall → IoError
  | wouldBlock => { kind := .wouldBlock, msg := "operation would block" }
  | timedOut => { kind := .timedOut, msg := "timed out" }

/-- What `read_exact` returns for a buffer of `n` bytes. -/
def buffer (n : ℕ) : Outcome (Option Stall) (List UInt8) → Outcome Error (Bytes n)
  | .ok bs => if h : bs.length = n then .ok ⟨bs, h⟩ else .error (.panic "buffer of another length")
  | .error (.error (some k)) => Outcome.err (.ioError k.error)
  | .error (.error none) => Outcome.err EofError.eof
  | .error (.panic msg) => .error (.panic msg)

/-- A socket whose bytes arrive in pieces. -/
instance : Source (List (Arrival Stall)) where
  readExact n as := (buffer n (Feed.readExact n as).1, (Feed.readExact n as).2)

/-- …and byte by byte. -/
instance : Source (List (UInt8 ⊕ Stall)) where
  readExact n its := (buffer n (takeExact n its).1, (takeExact n its).2)

theorem readExact_append {bs : List UInt8} {n : ℕ} (h : bs.length = n) (its : List (UInt8 ⊕ Stall)) :
    Source.readExact n (bs.map .inl ++ its) = (.ok ⟨bs, h⟩, its) := by
  subst h
  simp only [Source.readExact, takeExact_append, buffer]
  rw [dif_pos trivial]

theorem readExact_stall {bs : List UInt8} {n : ℕ} (h : bs.length < n) (k : Stall)
    (its : List (UInt8 ⊕ Stall)) :
    Source.readExact n (bs.map .inl ++ .inr k :: its) = (Outcome.err (.ioError k.error), its) := by
  simp only [Source.readExact, takeExact_stall h]
  rfl

/-! ## Receiving -/

section Receive

variable {σ : Type} [Source σ] (sha256 : List UInt8 → Bytes 32) (now : UInt32)

/-- The loop of `Peer::receive`, for as many reads as there are before its deadline. -/
def receive (messageType : Bytes 12) : ℕ → StreamM σ Message
  | 0 => Op.lift (Outcome.err .timeout)
  | n + 1 => fun s =>
    match Message.read sha256 now s with
    | (.ok (m, header), s') =>
      if header.command = Commands.NOTFOUND then (.ok m, s')
      else if header.command = messageType then (.ok m, s')
      else receive messageType n s'
    | (.error (.error (.ioError _)), s') => receive messageType n s'
    | (.error f, s') => (.error f, s')

theorem receive_succ (messageType : Bytes 12) (n : ℕ) (s : σ) :
    receive sha256 now messageType (n + 1) s = match Message.read sha256 now s with
      | (.ok (m, header), s') =>
        if header.command = Commands.NOTFOUND then (.ok m, s')
        else if header.command = messageType then (.ok m, s')
        else receive sha256 now messageType n s'
      | (.error (.error (.ioError _)), s') => receive sha256 now messageType n s'
      | (.error f, s') => (.error f, s') := rfl

/-- The results of so many reads, one after the other. -/
def reads : ℕ → σ → List Incoming
  | 0, _ => [.deadline]
  | n + 1, s => .read (Message.read sha256 now s).1 :: reads n (Message.read sha256 now s).2

/-- **The scripted peer receives what the socket does**, from the results of its reads. -/
theorem receiveFrom_reads (messageType : Bytes 12) (n : ℕ) (s : σ) :
    (Peer.receiveFrom messageType (reads sha256 now n s)).1
      = (receive sha256 now messageType n s).1 := by
  induction n generalizing s with
  | zero => rfl
  | succ n ih =>
    rw [reads, receive_succ]
    rcases Message.read sha256 now s with ⟨(e | msg) | ⟨m, header⟩, s'⟩
    · cases e
      case ioError e => exact ih s'
      all_goals rfl
    · rfl
    · rw [Peer.receiveFrom]
      dsimp only
      split_ifs
      · rfl
      · rfl
      · exact ih s'

end Receive

/-! ## One read

Whatever the source, what comes after a header is at most one `read_exact` of the payload. -/

section ReadOnce

variable (sha256 : List UInt8 → Bytes 32)

/-- A call that reads so many bytes and is done with the source. -/
def ReadsOnce {α : Type} (n : ℕ) (x : ∀ (σ : Type) [Source σ], StreamM σ α)
    (g : Bytes n → Outcome Error α) : Prop :=
  ∀ (σ : Type) [Source σ], x σ
    = ((Source.readExact n : StreamM σ (Bytes n)) >>= fun p => Op.lift (g p))

theorem ReadsOnce.bind {α β : Type} {n : ℕ} {x : ∀ (σ : Type) [Source σ], StreamM σ α}
    {g : Bytes n → Outcome Error α} (h : ReadsOnce n x g)
    {f : α → ∀ (σ : Type), StreamM σ β} {k : α → Outcome Error β}
    (hf : ∀ a σ s, f a σ s = (k a, s)) :
    ReadsOnce n (fun σ => x σ >>= fun a => f a σ) fun p => g p >>= k := by
  intro σ _
  dsimp only
  rw [h σ, bind_assoc]
  refine bind_congr fun p => funext fun s => ?_
  rw [Op.bind_apply, Op.lift]
  rcases g p with e | a
  · rfl
  · exact hf a σ s

theorem ReadsOnce.map {α β : Type} {n : ℕ} {x : ∀ (σ : Type) [Source σ], StreamM σ α}
    {g : Bytes n → Outcome Error α} (h : ReadsOnce n x g) (f : α → β) :
    ReadsOnce n (fun σ => f <$> x σ) fun p => f <$> g p := by
  intro σ _
  dsimp only
  rw [h σ, map_bind]
  refine bind_congr fun p => funext fun s => ?_
  rw [Op.map_apply]
  rfl

/-- A payload that is fetched and checked… -/
theorem exists_readsOnce_payload (header : MessageHeader) :
    ∃ g, ReadsOnce header.payloadSize.toNat (fun _ => header.payload sha256) g := by
  refine ⟨fun b => if checksumOf (sha256d sha256 b.toList) ≠ header.checksum then
    Outcome.err (.badData ("Bad checksum: "
      ++ toString (checksumOf (sha256d sha256 b.toList)).toList ++ " != "
      ++ toString header.checksum.toList)) else .ok b.toList, fun σ _ => ?_⟩
  dsimp only
  rw [MessageHeader.payload]
  refine bind_congr fun b => funext fun s => ?_
  split_ifs
  · rfl
  · rfl

/-- …and decoded. -/
theorem exists_readsOnce_readPayload {α : Type} (header : MessageHeader) (p : Decoder Error α) :
    ∃ g, ReadsOnce header.payloadSize.toNat
      (fun _ => Message.readPayload sha256 header p) g := by
  obtain ⟨g, hg⟩ := exists_readsOnce_payload sha256 header
  refine ⟨_, hg.bind (k := fun bs => Prod.fst <$> p bs) fun bs σ s => ?_⟩
  rw [Op.bind_apply, Op.lift]
  rcases p bs with _ | _ <;> rfl

/-- **What follows a header**: nothing is read, and only an empty payload is accepted; or the payload is
read at once. -/
theorem readPartial_cases (now : UInt32) (header : MessageHeader) :
    (∃ r : Outcome Error Message, (∀ m, r = .ok m → header.payloadSize = 0)
      ∧ ∀ (σ : Type) [Source σ] (s : σ), Message.readPartial sha256 now header s = (r, s))
    ∨ ∃ g, ReadsOnce header.payloadSize.toNat (fun _ => Message.readPartial sha256 now header) g := by
  have hempty (m : Message) : ∃ r : Outcome Error Message, (∀ m, r = .ok m → header.payloadSize = 0)
      ∧ ∀ (σ : Type) [Source σ] (s : σ), Message.readEmpty header m s = (r, s) := by
    by_cases hsize : header.payloadSize = 0
    · refine ⟨.ok m, fun _ _ => hsize, fun σ _ s => ?_⟩
      rw [Message.readEmpty, if_neg (not_not.mpr hsize)]
      rfl
    · refine ⟨Outcome.err (.badData "Bad payload"), ?_, fun σ _ s => ?_⟩
      · rintro m ⟨⟩
      rw [Message.readEmpty, if_pos hsize]
      rfl
  have hpayload {α : Type} (p : Decoder Error α) (f : α → Message) :
      ∃ g, ReadsOnce header.payloadSize.toNat
        (fun _ => f <$> Message.readPayload sha256 header p) g := by
    obtain ⟨g, hg⟩ := exists_readsOnce_readPayload sha256 header p
    exact ⟨_, hg.map f⟩
  rcases hk : Kind.ofCommand header.command with _ | k
  · by_cases hsize : header.payloadSize = 0
    · refine .inl ⟨.ok (.other (Message.unknownCommand header.command)), fun _ _ => hsize, ?_⟩
      intro σ _ s
      rw [Message.readPartial, hk, hsize]
      rfl
    · refine .inr ?_
      have hpos : header.payloadSize > 0 := by
        rw [gt_iff_lt, UInt32.lt_iff_toNat_lt]
        exact Nat.pos_of_ne_zero fun h => hsize (UInt32.toNat_inj.mp h)
      obtain ⟨g, hg⟩ := exists_readsOnce_payload sha256 header
      refine ⟨_, fun σ _ => Eq.trans ?_
        (hg.map (fun _ => Message.other (Message.unknownCommand header.command)) σ)⟩
      dsimp only
      rw [Message.readPartial, hk, if_pos hpos]
      exact bind_pure_comp _ _
  · have hread (σ : Type) [Source σ] : (Message.readPartial sha256 now header : StreamM σ Message)
        = Message.readKind sha256 now header k := by
      rw [Message.readPartial, hk]
    simp only [hread]
    cases k with
    | getAddr | mempool | sendHeaders | verack => exact .inl (hempty _)
    | version =>
      obtain ⟨g, hg⟩ := exists_readsOnce_readPayload sha256 header Version.read
      refine .inr ⟨_, hg.bind (k := fun v => (fun _ => Message.version v) <$> v.validate now)
        fun v σ s => ?_⟩
      rw [Op.bind_apply, Op.lift]
      rcases v.validate now with _ | _ <;> rfl
    | _ => exact .inr (hpayload _ _)

end ReadOnce

/-! ## Frames -/

/-- **A well-formed frame**: a header, a payload of the announced size, and the message that the two are
read as. -/
structure Frame (sha256 : List UInt8 → Bytes 32) (now : UInt32) where
  header : MessageHeader
  payload : List UInt8
  message : Message
  length_payload : payload.length = header.payloadSize.toNat
  decodes : Message.readPartial sha256 now header payload = (.ok message, [])

section Frames

variable {sha256 : List UInt8 → Bytes 32} {now : UInt32}

namespace Frame

/-- A frame as it is sent. -/
def bytes (f : Frame sha256 now) : List UInt8 := emitted f.header.write ++ f.payload

theorem length_bytes (f : Frame sha256 now) :
    f.bytes.length = MessageHeader.SIZE + f.payload.length := by
  rw [bytes, List.length_append, MessageHeader.length_write]

theorem bytes_ne_nil (f : Frame sha256 now) : f.bytes ≠ [] := by
  intro h
  have := congrArg List.length h
  rw [length_bytes, MessageHeader.SIZE] at this
  simp at this

/-- The frame ends a call of `receive`. -/
def Answers (messageType : Bytes 12) (f : Frame sha256 now) : Prop :=
  f.header.command = Commands.NOTFOUND ∨ f.header.command = messageType

end Frame

/-- A header that is there is read… -/
theorem read_header (h : MessageHeader) (its : List (UInt8 ⊕ Stall)) :
    MessageHeader.read ((emitted h.write).map .inl ++ its) = (.ok h, its) := by
  have hparse : MessageHeader.parse (emitted h.write) = .ok (h, []) := by
    simpa using h.decodes_parse []
  rw [MessageHeader.read, Op.bind_apply, readExact_append h.length_write]
  dsimp only
  rw [Op.bind_apply, Op.lift, hparse]
  rfl

/-- …and one that is cut off is lost. -/
theorem read_header_stall {bs : List UInt8} (h : bs.length < MessageHeader.SIZE) (k : Stall)
    (its : List (UInt8 ⊕ Stall)) :
    MessageHeader.read (bs.map .inl ++ .inr k :: its) = (Outcome.err (.ioError k.error), its) := by
  rw [MessageHeader.read, Op.bind_apply, readExact_stall h]
  rfl

/-- **A frame that is there is read as its message.** -/
theorem read_frame (f : Frame sha256 now) (its : List (UInt8 ⊕ Stall)) :
    Message.read sha256 now (f.bytes.map .inl ++ its) = (.ok (f.message, f.header), its) := by
  have hbody : Message.readPartial sha256 now f.header (f.payload.map .inl ++ its)
      = (.ok f.message, its) := by
    obtain ⟨r, hsize, hread⟩ | ⟨g, hg⟩ := readPartial_cases sha256 now f.header
    · obtain rfl : r = .ok f.message := congrArg Prod.fst ((hread _ f.payload).symm.trans f.decodes)
      have hlen := f.length_payload
      rw [hsize _ rfl] at hlen
      rw [List.length_eq_zero_iff.mp hlen]
      exact hread _ its
    · have hmem := f.decodes
      have hfetch : Source.readExact f.header.payloadSize.toNat f.payload
          = (.ok ⟨f.payload, f.length_payload⟩, []) := by
        simpa using Consumes.readExact ⟨f.payload, f.length_payload⟩ []
      have hon := fun (σ : Type) [Source σ] => hg σ
      dsimp only at hon
      rw [hon, Op.bind_apply, hfetch] at hmem
      rw [hon, Op.bind_apply, readExact_append f.length_payload]
      exact congrArg (fun r => (r, its)) (congrArg Prod.fst hmem)
  rw [Frame.bytes, List.map_append, List.append_assoc, Message.read, Op.bind_apply, read_header]
  dsimp only
  rw [hbody]

/-- **A frame that is cut off**: before its payload begins the read fails, and after that it answers with
the header alone; what had come of the frame is lost. -/
theorem read_torn (f : Frame sha256 now) {i : ℕ} (hi : i < f.bytes.length) (k : Stall)
    (its : List (UInt8 ⊕ Stall)) :
    Message.read sha256 now ((f.bytes.take i).map .inl ++ .inr k :: its)
        = (Outcome.err (.ioError k.error), its)
      ∨ Message.read sha256 now ((f.bytes.take i).map .inl ++ .inr k :: its)
        = (.ok (.partialRead f.header, f.header), its) := by
  have hlen := f.length_bytes
  rcases lt_or_ge i MessageHeader.SIZE with hlt | hge
  · left
    have hshort : (f.bytes.take i).length < MessageHeader.SIZE := by
      rw [List.length_take]
      omega
    rw [Message.read, Op.bind_apply, read_header_stall hshort]
    rfl
  · right
    have hpart : f.bytes.take i
        = emitted f.header.write ++ f.payload.take (i - MessageHeader.SIZE) := by
      rw [Frame.bytes, List.take_append, MessageHeader.length_write,
        List.take_of_length_le (by rwa [MessageHeader.length_write])]
    have hbody : Message.readPartial sha256 now f.header
        ((f.payload.take (i - MessageHeader.SIZE)).map .inl ++ .inr k :: its)
          = (Outcome.err (.ioError k.error), its) := by
      obtain ⟨r, hsize, hread⟩ | ⟨g, hg⟩ := readPartial_cases sha256 now f.header
      · -- nothing to read: the frame ends with its header
        obtain rfl : r = .ok f.message := congrArg Prod.fst ((hread _ f.payload).symm.trans f.decodes)
        have hzero := f.length_payload
        rw [hsize _ rfl] at hzero
        have : f.payload.length = 0 := hzero
        omega
      · have hshort : (f.payload.take (i - MessageHeader.SIZE)).length
            < f.header.payloadSize.toNat := by
          rw [← f.length_payload, List.length_take]
          omega
        have hon := fun (σ : Type) [Source σ] => hg σ
        dsimp only at hon
        rw [hon, Op.bind_apply, readExact_stall hshort]
        rfl
    rw [hpart, List.map_append, List.append_assoc, Message.read, Op.bind_apply, read_header]
    dsimp only
    rw [hbody]
    cases k <;> rfl

/-- A stall before a frame is all that a read takes… -/
theorem read_stall (k : Stall) (its : List (UInt8 ⊕ Stall)) :
    Message.read sha256 now (.inr k :: its) = (Outcome.err (.ioError k.error), its) := by
  have := @read_header_stall [] (by decide) k its
  rw [List.map_nil, List.nil_append] at this
  rw [Message.read, Op.bind_apply, this]
  rfl

/-- …and at the end there is nothing to take. -/
theorem read_end : Message.read sha256 now ([] : List (UInt8 ⊕ Stall))
    = (Outcome.err EofError.eof, []) := rfl

/-! ## In pieces and byte by byte -/

/-- A call on the pieces does what one on the bytes does. -/
def Pieceless {α : Type} (x : StreamM (List (Arrival Stall)) α)
    (y : StreamM (List (UInt8 ⊕ Stall)) α) : Prop :=
  ∀ as, Prod.map id items (x as) = y (items as)

theorem Pieceless.readExact (n : ℕ) : Pieceless (Source.readExact n) (Source.readExact n) := by
  intro as
  obtain ⟨hfst, hsnd⟩ := readExact_eq n as
  exact Prod.ext (congrArg (buffer n) hfst) hsnd

theorem Pieceless.lift {α : Type} (x : Outcome Error α) : Pieceless (Op.lift x) (Op.lift x) :=
  fun _ => rfl

theorem Pieceless.bind {α β : Type} {x : StreamM (List (Arrival Stall)) α}
    {y : StreamM (List (UInt8 ⊕ Stall)) α} {f : α → StreamM (List (Arrival Stall)) β}
    {g : α → StreamM (List (UInt8 ⊕ Stall)) β} (hx : Pieceless x y)
    (hf : ∀ a, Pieceless (f a) (g a)) : Pieceless (x >>= f) (y >>= g) := by
  intro as
  rw [Op.bind_apply, Op.bind_apply, ← hx as]
  rcases x as with ⟨e | a, as'⟩
  · rfl
  · exact hf a as'

theorem pieceless_read : Pieceless (Message.read sha256 now) (Message.read sha256 now) := by
  have hpartial (header : MessageHeader) :
      Pieceless (Message.readPartial sha256 now header) (Message.readPartial sha256 now header) := by
    obtain ⟨r, -, hread⟩ | ⟨g, hg⟩ := readPartial_cases sha256 now header
    · intro as
      rw [hread _ as, hread _ (items as)]
      rfl
    · have hon := fun (σ : Type) [Source σ] => hg σ
      dsimp only at hon
      rw [hon, hon]
      exact (Pieceless.readExact _).bind fun _ => .lift _
  have hheader : Pieceless MessageHeader.read MessageHeader.read :=
    (Pieceless.readExact _).bind fun p => (Pieceless.lift (MessageHeader.parse p.toList)).bind
      fun h => .lift (.ok h.1)
  refine hheader.bind fun header as => ?_
  rw [← hpartial header as]
  rcases Message.readPartial sha256 now header as with ⟨(e | msg) | m, as'⟩
  · cases e
    case ioError e =>
      dsimp only [Prod.map, id]
      split_ifs
      · rfl
      · rfl
    all_goals rfl
  · rfl
  · rfl

/-- **How the bytes come in pieces does not matter to `receive`.** -/
theorem pieceless_receive (messageType : Bytes 12) (n : ℕ) :
    Pieceless (receive sha256 now messageType n) (receive sha256 now messageType n) := by
  induction n with
  | zero => exact .lift _
  | succ n ih =>
    intro as
    rw [receive_succ, receive_succ, ← pieceless_read as]
    rcases Message.read sha256 now as with ⟨(e | msg) | ⟨m, header⟩, as'⟩
    · cases e
      case ioError e => exact ih as'
      all_goals rfl
    · rfl
    · dsimp only [Prod.map, id]
      split_ifs
      · rfl
      · rfl
      · exact ih as'

end Frames

end Bitspend.Chain
