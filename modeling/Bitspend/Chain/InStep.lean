import Bitspend.Chain.Receive

/-!
# Chain/InStep — staying in step with the frames

A call of `receive` is in step if, however many reads come before its deadline, it has passed over whole
frames only, none of which answers it, and has returned, if anything, the message of the next one
(`InStep`).  It is so exactly when no frame up to the one that answers is cut by a stall (`Clear`).
-/

namespace Bitspend.Chain

open Wire Feed

variable {sha256 : List UInt8 → Bytes 32} {now : UInt32}

/-- **In step with the frames.**  The call has returned the message of the first frame that answers it,
with the frames after it left; or its deadline passed, with the frames left from one of them on, and none
that answers before. -/
def InStep (messageType : Bytes 12) (frames : List (Frame sha256 now))
    (x : Outcome Error Message × List (UInt8 ⊕ Stall)) : Prop :=
  (∃ before f after, frames = before ++ f :: after ∧ (∀ g ∈ before, ¬g.Answers messageType)
      ∧ f.Answers messageType ∧ x.1 = .ok f.message ∧ (∀ header, f.message ≠ .partialRead header)
      ∧ streamOf x.2 = after.flatMap Frame.bytes)
    ∨ ∃ before after, frames = before ++ after ∧ (∀ g ∈ before, ¬g.Answers messageType)
      ∧ x.1 = Outcome.err .timeout ∧ streamOf x.2 = after.flatMap Frame.bytes

/-- **No frame is cut**, up to the first one that answers: after some stalls its bytes come with nothing
between them. -/
def Clear (messageType : Bytes 12) : List (Frame sha256 now) → List (UInt8 ⊕ Stall) → Prop
  | [], _ => True
  | f :: frames, its => ∃ rest, its.dropWhile Sum.isRight = f.bytes.map .inl ++ rest
    ∧ (f.Answers messageType ∨ Clear messageType frames rest)

theorem clear_stall_iff {messageType : Bytes 12} {frames : List (Frame sha256 now)} {k : Stall}
    {its : List (UInt8 ⊕ Stall)} :
    Clear messageType frames (.inr k :: its) ↔ Clear messageType frames its := by
  cases frames with
  | nil => exact Iff.rfl
  | cons f frames => exact Iff.rfl

/-- `read_partial` never answers with a header alone… -/
theorem readPartial_ne_partialRead {σ : Type} [Source σ] {header header' : MessageHeader} {s s' : σ} :
    Message.readPartial sha256 now header s ≠ (.ok (.partialRead header'), s') := by
  intro h
  have hmap {α : Type} {x : StreamM σ α} {g : α → Message} (hg : ∀ a, g a ≠ .partialRead header') :
      (g <$> x) s ≠ (.ok (.partialRead header'), s') := by
    intro h
    rw [← bind_pure_comp] at h
    obtain ⟨a, s₁, -, ha⟩ := Op.bind_eq_ok.mp h
    exact hg a (Op.pure_eq_ok.mp ha).1.symm
  have hempty {m : Message} (hm : m ≠ .partialRead header') :
      (Message.readEmpty header m : StreamM σ Message) s ≠ (.ok (.partialRead header'), s') := by
    intro h
    rw [Message.readEmpty] at h
    split at h
    · cases h
    · exact hm (Op.pure_eq_ok.mp h).1.symm
  rw [Message.readPartial] at h
  rcases hk : Kind.ofCommand header.command with _ | k
  · rw [hk] at h
    dsimp only at h
    split at h
    · obtain ⟨-, s₁, -, h⟩ := Op.bind_eq_ok.mp h
      cases (Op.pure_eq_ok.mp h).1
    · cases (Op.pure_eq_ok.mp h).1
  · rw [hk] at h
    cases k with
    | getAddr | mempool | sendHeaders | verack => exact hempty (by simp) h
    | version =>
      obtain ⟨v, s₁, -, h⟩ := Op.bind_eq_ok.mp h
      obtain ⟨-, s₂, -, h⟩ := Op.bind_eq_ok.mp h
      cases (Op.pure_eq_ok.mp h).1
    | _ => exact hmap (by simp) h

/-- …so no frame is read as one. -/
theorem Frame.message_ne_partialRead (f : Frame sha256 now) (header : MessageHeader) :
    f.message ≠ .partialRead header := by
  intro h
  have hdecodes := f.decodes
  rw [h] at hdecodes
  exact readPartial_ne_partialRead hdecodes

section Step

variable {messageType : Bytes 12} {n : ℕ} {its : List (UInt8 ⊕ Stall)}

theorem receive_stall (k : Stall) :
    receive sha256 now messageType (n + 1) (.inr k :: its) = receive sha256 now messageType n its := by
  rw [receive_succ, read_stall]
  rfl

theorem receive_end :
    receive sha256 now messageType (n + 1) ([] : List (UInt8 ⊕ Stall))
      = receive sha256 now messageType n [] := by
  rw [receive_succ, read_end]
  rfl

/-- A frame that answers ends the call… -/
theorem receive_frame_of_answers {f : Frame sha256 now} (h : f.Answers messageType) :
    receive sha256 now messageType (n + 1) (f.bytes.map .inl ++ its) = (.ok f.message, its) := by
  rw [receive_succ, read_frame]
  dsimp only
  split_ifs with hnot htype
  · rfl
  · rfl
  · exact absurd h (not_or.mpr ⟨hnot, htype⟩)

/-- …and another one is passed over. -/
theorem receive_frame_of_not {f : Frame sha256 now} (h : ¬f.Answers messageType) :
    receive sha256 now messageType (n + 1) (f.bytes.map .inl ++ its)
      = receive sha256 now messageType n its := by
  obtain ⟨hnot, htype⟩ := not_or.mp h
  rw [receive_succ, read_frame]
  dsimp only
  rw [if_neg hnot, if_neg htype]

/-- **One read of a frame that is cut**: the call ends with the header alone, or goes on inside the
frame. -/
theorem receive_torn (f : Frame sha256 now) {i : ℕ} (hi : i < f.bytes.length) (k : Stall) :
    receive sha256 now messageType (n + 1) ((f.bytes.take i).map .inl ++ .inr k :: its)
        = receive sha256 now messageType n its
      ∨ receive sha256 now messageType (n + 1) ((f.bytes.take i).map .inl ++ .inr k :: its)
        = (.ok (.partialRead f.header), its) := by
  rw [receive_succ]
  rcases read_torn f hi k its with h | h
  · left
    rw [h]
    rfl
  · rw [h]
    dsimp only
    split_ifs
    · exact .inr rfl
    · exact .inr rfl
    · exact .inl rfl

end Step

/-! ## In step -/

section InStep

variable {messageType : Bytes 12} {frames : List (Frame sha256 now)} {its : List (UInt8 ⊕ Stall)}

theorem frames_eq_nil (h : [] = frames.flatMap Frame.bytes) : frames = [] := by
  rcases frames with _ | ⟨f, frames⟩
  · rfl
  · rw [List.flatMap_cons] at h
    exact absurd (List.append_eq_nil_iff.mp h.symm).1 f.bytes_ne_nil

/-- A frame that does not answer may stand before. -/
theorem InStep.cons {f : Frame sha256 now} {x : Outcome Error Message × List (UInt8 ⊕ Stall)}
    (hf : ¬f.Answers messageType) (h : InStep messageType frames x) :
    InStep messageType (f :: frames) x := by
  rcases h with ⟨before, g, after, rfl, hbefore, hg⟩ | ⟨before, after, rfl, hbefore, hg⟩
  · exact .inl ⟨f :: before, g, after, rfl, List.forall_mem_cons.mpr ⟨hf, hbefore⟩, hg⟩
  · exact .inr ⟨f :: before, after, rfl, List.forall_mem_cons.mpr ⟨hf, hbefore⟩, hg⟩

/-- **Where no frame is cut the call stays in step**, for any number of reads. -/
theorem inStep_of_clear (hbytes : streamOf its = frames.flatMap Frame.bytes)
    (hclear : Clear messageType frames its) (n : ℕ) :
    InStep messageType frames (receive sha256 now messageType n its) := by
  induction n generalizing frames its with
  | zero => exact .inr ⟨[], frames, rfl, List.forall_mem_nil _, rfl, hbytes⟩
  | succ n ih =>
    rcases its with _ | ⟨b | k, its⟩
    · obtain rfl := frames_eq_nil hbytes
      rw [receive_end]
      exact ih rfl trivial
    · rcases frames with _ | ⟨f, frames⟩
      · cases hbytes
      · obtain ⟨rest, hrest, hnext⟩ := hclear
        have hits : Sum.inl b :: its = f.bytes.map .inl ++ rest := hrest
        rw [hits, streamOf_append, List.flatMap_cons] at hbytes
        have hbytes' := List.append_cancel_left hbytes
        rw [hits]
        by_cases hf : f.Answers messageType
        · rw [receive_frame_of_answers hf]
          exact .inl ⟨[], f, frames, rfl, List.forall_mem_nil _, hf, rfl, f.message_ne_partialRead,
            hbytes'⟩
        · rw [receive_frame_of_not hf]
          exact (ih hbytes' (hnext.resolve_left hf)).cons hf
    · rw [receive_stall]
      exact ih hbytes (clear_stall_iff.mp hclear)

/-! ## Out of step -/

/-- The stalls before the next byte take a read each. -/
theorem receive_dropStalls (its : List (UInt8 ⊕ Stall)) :
    ∃ m, ∀ n, receive sha256 now messageType (m + n) its
      = receive sha256 now messageType n (its.dropWhile Sum.isRight) := by
  induction its with
  | nil => exact ⟨0, fun n => by rw [Nat.zero_add]; rfl⟩
  | cons it its ih =>
    cases it with
    | inl b => exact ⟨0, fun n => by rw [Nat.zero_add]; rfl⟩
    | inr k =>
      obtain ⟨m, hm⟩ := ih
      refine ⟨m + 1, fun n => ?_⟩
      rw [Nat.add_right_comm, receive_stall, hm]
      rfl

theorem streamOf_dropStalls (its : List (UInt8 ⊕ Stall)) :
    streamOf (its.dropWhile Sum.isRight) = streamOf its := by
  induction its with
  | nil => rfl
  | cons it its ih =>
    cases it with
    | inl b => rfl
    | inr k => exact ih

/-- **A call that is out of step**: it has returned a header alone, or stands inside a frame. -/
def OutOfStep (frames : List (Frame sha256 now))
    (x : Outcome Error Message × List (UInt8 ⊕ Stall)) : Prop :=
  (∃ header, x.1 = .ok (.partialRead header))
    ∨ ∃ f after i, f :: after <:+ frames ∧ 0 < i ∧ i < f.bytes.length
      ∧ x.1 = Outcome.err .timeout ∧ streamOf x.2 = f.bytes.drop i ++ after.flatMap Frame.bytes

/-- **Where a frame is cut some number of reads puts the call out of step.** -/
theorem exists_outOfStep (hbytes : streamOf its = frames.flatMap Frame.bytes)
    (hclear : ¬Clear messageType frames its) :
    ∃ n, OutOfStep frames (receive sha256 now messageType n its) := by
  induction frames generalizing its with
  | nil => exact absurd trivial hclear
  | cons f frames ih =>
    obtain ⟨m, hm⟩ := @receive_dropStalls sha256 now messageType its
    have hdrop : streamOf (its.dropWhile Sum.isRight) = f.bytes ++ frames.flatMap Frame.bytes := by
      rw [streamOf_dropStalls, hbytes, List.flatMap_cons]
    rcases whole_or_torn hdrop with ⟨rest, hrest⟩ | ⟨i, k, rest, hi, hrest⟩
    · have hf : ¬f.Answers messageType := fun hf => hclear ⟨rest, hrest, .inl hf⟩
      rw [hrest, streamOf_append] at hdrop
      obtain ⟨n, hn⟩ := ih (List.append_cancel_left hdrop)
        fun hnext => hclear ⟨rest, hrest, .inr hnext⟩
      refine ⟨m + (n + 1), ?_⟩
      rw [hm, hrest, receive_frame_of_not hf]
      rcases hn with h | ⟨g, after, i, hsuffix, h⟩
      · exact .inl h
      · exact .inr ⟨g, after, i, hsuffix.trans (List.suffix_cons f frames), h⟩
    · have hpos : 0 < i := by
        rcases Nat.eq_zero_or_pos i with rfl | hpos
        · -- the stalls before the frame are gone
          have hhead := List.head?_dropWhile_not Sum.isRight its
          rw [hrest] at hhead
          simp at hhead
        · exact hpos
      refine ⟨m + 1, ?_⟩
      rw [hm, hrest]
      rcases receive_torn f hi k with h | h
      · rw [h]
        refine .inr ⟨f, frames, i, List.suffix_rfl, hpos, hi, rfl, ?_⟩
        rw [hrest, streamOf_append, streamOf_inr] at hdrop
        rw [← List.take_append_drop i f.bytes, List.append_assoc] at hdrop
        rw [List.take_append_drop] at hdrop
        exact List.append_cancel_left hdrop
      · rw [h]
        exact .inl ⟨f.header, rfl⟩

/-- No call is both. -/
theorem OutOfStep.not_inStep {x : Outcome Error Message × List (UInt8 ⊕ Stall)}
    (h : OutOfStep frames x) : ¬InStep messageType frames x := by
  intro hin
  rcases h with ⟨header, hx⟩ | ⟨f, after, i, hsuffix, hpos, hi, hx, hbytes⟩
  · rcases hin with ⟨_, g, _, _, _, _, hg, hne, _⟩ | ⟨_, _, _, _, hg, _⟩
    · exact hne header (Except.ok.inj (hg.symm.trans hx))
    · cases hg.symm.trans hx
  · rcases hin with ⟨_, g, _, _, _, _, hg, _⟩ | ⟨before, after', rfl, _, _, hbytes'⟩
    · cases hg.symm.trans hx
    · -- the frames that are left begin before the one it stands in, or behind it
      have hlen := congrArg List.length (hbytes.symm.trans hbytes')
      rw [List.length_append, List.length_drop] at hlen
      have hle : ∀ {l l' : List (Frame sha256 now)}, l <:+ l' →
          (l.flatMap Frame.bytes).length ≤ (l'.flatMap Frame.bytes).length := by
        rintro l l' ⟨t, rfl⟩
        rw [List.flatMap_append, List.length_append]
        exact Nat.le_add_left _ _
      rcases List.suffix_or_suffix_of_suffix hsuffix (List.suffix_append before after') with h | h
      · have := hle h
        rw [List.flatMap_cons, List.length_append] at this
        omega
      · rcases List.suffix_cons_iff.mp h with rfl | h
        · rw [List.flatMap_cons, List.length_append] at hlen
          omega
        · have := hle h
          omega

/-! ## Returning -/

/-- **Where no frame is cut and one answers, enough reads return it.** -/
theorem exists_receive_ok (hclear : Clear messageType frames its)
    (hbytes : streamOf its = frames.flatMap Frame.bytes)
    (hanswers : ∃ f ∈ frames, f.Answers messageType) :
    ∃ m, ∀ n, ∃ answer rest, receive sha256 now messageType (m + n) its = (.ok answer, rest) := by
  induction frames generalizing its with
  | nil =>
    obtain ⟨f, hf, -⟩ := hanswers
    exact absurd hf List.not_mem_nil
  | cons f frames ih =>
    obtain ⟨m, hm⟩ := @receive_dropStalls sha256 now messageType its
    obtain ⟨rest, hrest, hnext⟩ := hclear
    by_cases hf : f.Answers messageType
    · refine ⟨m + 1, fun n => ⟨f.message, rest, ?_⟩⟩
      rw [Nat.add_assoc, Nat.add_comm 1 n, hm, hrest, receive_frame_of_answers hf]
    · have hdrop := streamOf_dropStalls its
      rw [hrest, hbytes, streamOf_append, List.flatMap_cons] at hdrop
      obtain ⟨g, hg, hganswers⟩ := hanswers
      have hg' : g ∈ frames := (List.mem_cons.mp hg).resolve_left fun h => hf (h ▸ hganswers)
      obtain ⟨m', hm'⟩ := ih (hnext.resolve_left hf) (List.append_cancel_left hdrop)
        ⟨g, hg', hganswers⟩
      refine ⟨m + (m' + 1), fun n => ?_⟩
      obtain ⟨answer, rest', h⟩ := hm' n
      refine ⟨answer, rest', ?_⟩
      rw [Nat.add_assoc, hm, hrest, Nat.add_right_comm, receive_frame_of_not hf, h]

end InStep

/-- **Receiving stays in step with the stream exactly when no frame is cut**: for frames whose bytes
arrive in any pieces, with stalls anywhere between them, `receive` is in step after any number of reads if
and only if no stall stands inside a frame, up to the first that answers.  Then it also returns that
frame's message, once there are enough reads before the deadline. -/
theorem receive_inStep_iff (sha256 : List UInt8 → Bytes 32) (now : UInt32) (messageType : Bytes 12)
    (frames : List (Frame sha256 now)) (as : List (Arrival Stall))
    (hbytes : streamOf (items as) = frames.flatMap Frame.bytes) :
    ((∀ n, InStep messageType frames
        (Prod.map id items (receive sha256 now messageType n as)))
      ↔ Clear messageType frames (items as))
    ∧ (Clear messageType frames (items as) → (∃ f ∈ frames, f.Answers messageType) →
      ∃ m, ∀ n, ∃ answer rest, receive sha256 now messageType (m + n) as = (.ok answer, rest)) := by
  refine ⟨⟨fun h => ?_, fun hclear n => ?_⟩, fun hclear hanswers => ?_⟩
  · by_contra hclear
    obtain ⟨n, hn⟩ := exists_outOfStep hbytes hclear
    have hin := h n
    rw [pieceless_receive messageType n as] at hin
    exact hn.not_inStep hin
  · rw [pieceless_receive messageType n as]
    exact inStep_of_clear hbytes hclear n
  · obtain ⟨m, hm⟩ := exists_receive_ok hclear hbytes hanswers
    refine ⟨m, fun n => ?_⟩
    obtain ⟨answer, rest, h⟩ := hm n
    rw [← pieceless_receive messageType (m + n) as] at h
    have hok : (receive sha256 now messageType (m + n) as).1 = .ok answer := congrArg Prod.fst h
    exact ⟨answer, _, Op.eq_of_fst hok⟩

/-- **The scripted peer on such a stream**: where the script is what the reads of the socket return and
no frame is cut, what `receive` returns is the message of the first frame that answers it. -/
theorem Peer.receive_of_clear {messageType : Bytes 12} {frames : List (Frame sha256 now)}
    {as : List (Arrival Stall)} (hbytes : streamOf (items as) = frames.flatMap Frame.bytes)
    (hclear : Clear messageType frames (items as)) {p p' : Peer} {n : ℕ}
    (hp : p.incoming = reads sha256 now n as) {m : Message}
    (hok : Peer.receive messageType p = (.ok m, p')) :
    ∃ before f after, frames = before ++ f :: after ∧ (∀ g ∈ before, ¬g.Answers messageType)
      ∧ f.Answers messageType ∧ m = f.message := by
  obtain ⟨rest, hrest, -⟩ := Op.zoom_eq_ok.mp hok
  rw [hp] at hrest
  have hsocket : (Chain.receive sha256 now messageType n as).1 = .ok m :=
    (receiveFrom_reads sha256 now messageType n as).symm.trans (congrArg Prod.fst hrest)
  have hin := inStep_of_clear hbytes hclear n
  rw [← pieceless_receive messageType n as] at hin
  obtain ⟨before, f, after, hframes, hbefore, hf, hm, -⟩ | ⟨_, _, _, _, hm, _⟩ := hin
  · exact ⟨before, f, after, hframes, hbefore, hf, Except.ok.inj (hsocket.symm.trans hm)⟩
  · cases hsocket.symm.trans hm

/-! ## Two streams -/

/-- A `verack`, on the main network. -/
def verackFrame : Frame Bitspend.sha256 0 where
  header := Message.headerWithoutPayload Commands.VERACK Message.mainMagic
  payload := []
  message := .verack
  length_payload := rfl
  decodes := rfl

/-- A stall before the frame, and the frame in two pieces. -/
def verackArrivals : List (Arrival Stall) :=
  [.stall .wouldBlock, .chunk 0xf9 [0xbe, 0xb4], .chunk 0xd9 (verackFrame.bytes.drop 4)]

theorem receive_inStep_iff_verack :
    (∀ n, InStep Commands.VERACK [verackFrame] (Prod.map id items
        (receive Bitspend.sha256 0 Commands.VERACK n verackArrivals)))
      ∧ ∃ m, ∀ n, ∃ answer rest,
        receive Bitspend.sha256 0 Commands.VERACK (m + n) verackArrivals = (.ok answer, rest) := by
  have hclear : Clear Commands.VERACK [verackFrame] (items verackArrivals) :=
    ⟨[], by decide +kernel, .inl (.inr rfl)⟩
  obtain ⟨hiff, hok⟩ := receive_inStep_iff Bitspend.sha256 0 Commands.VERACK [verackFrame]
    verackArrivals (by decide +kernel)
  exact ⟨hiff.mpr hclear, hok hclear ⟨verackFrame, List.mem_singleton_self _, .inr rfl⟩⟩

/-- A `pong`. -/
def pongFrame : Frame Bitspend.sha256 0 where
  header := Message.headerWithPayload Bitspend.sha256 Commands.PONG (⟨7⟩ : Ping) Message.mainMagic
  payload := emitted (Payload.write (⟨7⟩ : Ping))
  message := .pong ⟨7⟩
  length_payload := by decide
  decodes := by
    have hkind : Kind.ofCommand Commands.PONG = some .pong := Kind.ofCommand_command .pong
    have hread := ((@Message.consumes_readPayload Bitspend.sha256 Ping _ _ _ Commands.PONG
      Message.mainMagic (Ping.length_write ⟨7⟩) (Message.size_ping_lt ⟨7⟩)
      (Ping.decodes ⟨7⟩)).map Message.pong) []
    rw [List.append_nil] at hread
    rw [Message.readPartial, Message.headerWithPayload]
    dsimp only
    rw [hkind]
    exact hread

/-- The frame with a stall between its header and its payload. -/
def cutPong : List (Arrival Stall) :=
  [.chunk 0xf9 ((pongFrame.bytes.take 24).drop 1), .stall .wouldBlock,
    .chunk 7 (pongFrame.payload.drop 1)]

/-- **A stall between the header and the payload of the frame that answers**: `receive` returns
`Message::Partial`, with the payload still to be read. -/
theorem not_receive_inStep :
    streamOf (items cutPong) = [pongFrame].flatMap Frame.bytes
      ∧ (receive Bitspend.sha256 0 Commands.PONG 1 cutPong).1
        = .ok (.partialRead pongFrame.header)
      ∧ (receive Bitspend.sha256 0 Commands.PONG 1 cutPong).2
        = [.chunk 7 (pongFrame.payload.drop 1)] := by
  refine ⟨?_, ?_, ?_⟩
  · decide +kernel
  · decide +kernel
  · decide +kernel

end Bitspend.Chain
