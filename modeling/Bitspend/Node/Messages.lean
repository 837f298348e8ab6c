import Bitspend.Machinery.Trace
import Bitspend.Node.Sending

/-!
# Node/Messages — what a node says to its peer

The messages of `p2p.rs`, as a grammar.  Whatever the peer answers, an operation of the node sends a word
of its language if it returns, and the beginning of one if it fails (`converses_run`): nothing else is
ever sent, no request goes out before the ones that lead to it, and a transaction only after it has been
announced.
-/

namespace Bitspend

open Chain Wallet Wire Computability

variable {Xpub PublicKey Signer : Type}

namespace Words

/-! ## The grammar -/

/-- A ping. -/
def ping : Language Message := letter fun m => ∃ p, m = .ping p

/-- The version is sent, then a verack, then a ping. -/
def handshake : Language Message :=
  letter (fun m => ∃ v, m = .version v) * (letter (· = .verack) * ping)

/-- A ping, and a handshake if that is not answered. -/
def keepAlive : Language Message := ping * (1 + handshake)

/-- The request for the headers after a block. -/
def getHeaders : Language Message := letter fun m => ∃ h, m = .getHeaders
  { version := PROTOCOL_VERSION, blockLocatorHashes := [h], hashStop := NO_HASH_STOP }

/-- The requests for the filter headers and for the filters of one range. -/
def getFilters : Language Message :=
  {w | ∃ startHeight hashStop, w = [.getCFHeaders { filterType := 0, startHeight, hashStop },
    .getCFilters { filterType := 0, startHeight, hashStop }]}

/-- The request for some blocks. -/
def getBlocks : Language Message := letter fun m => ∃ present, present ≠ [] ∧ m = .getData (blockInv present)

/-- A range: its filters, and its blocks if one matches. -/
def range : Language Message := getFilters * (1 + getBlocks)

/-- A round: headers, and ranges. -/
def round : Language Message := getHeaders * range∗

/-- `sync_state`. -/
def sync : Language Message := keepAlive * round∗

/-- A transaction is announced, and then sent. -/
def announce (sha256 : List UInt8 → Bytes 32) : Language Message :=
  {w | ∃ t : Tx, w = [.inv { objects := [{ objType := 1, hash := t.hash sha256 }] }, .tx t]}

/-- `send_to_address`. -/
def send (sha256 : List UInt8 → Bytes 32) : Language Message :=
  sync * (keepAlive * announce sha256)

end Words

/-! ## Requests -/

instance : Nonempty Message := ⟨.verack⟩

instance : Nonempty Peer := ⟨⟨[], [], [], default, default⟩⟩

namespace Chain.Peer

theorem emits_send (m : Message) : Op.Emits Peer.sent (send m) {[m]} :=
  ⟨⟨[m], rfl⟩, fun _ => ⟨[m], rfl, mem_begun_of_mem rfl, fun _ _ => rfl⟩⟩

theorem emits_letter {P : Message → Prop} {m : Message} (h : P m) :
    Op.Emits Peer.sent (send m) (letter P) := by
  refine (emits_send m).mono ?_
  rintro w rfl
  exact ⟨m, h, rfl⟩

theorem emits_receive (t : Bytes 12) : Op.Emits Peer.sent (receive t) 1 := .silent fun _ => rfl

/-- A reply of another kind ends a request. -/
theorem emits_wrong {α : Type} {L : Language Message} (hL : ∃ w, w ∈ L) :
    Op.Emits Peer.sent (Op.lift (Outcome.err .wrongP2PMessage) : Op Error Peer α) L :=
  .fail (fun _ h => by cases h) hL

theorem emits_handshake : Op.Emits Peer.sent handshake Words.handshake := by
  refine (Op.Emits.silent fun _ => rfl).silent_bind fun p => (emits_letter ⟨p.version, rfl⟩).bind fun _ => ?_
  have hping : Op.Emits Peer.sent (do
      send .verack
      send (.ping p.ping)
      let _ ← receive Commands.PONG
      pure ()) (letter (· = .verack) * Words.ping) := by
    refine Op.Emits.bind (emits_letter rfl) fun _ => ?_
    refine Op.Emits.bind_silent (emits_letter ⟨p.ping, rfl⟩) fun _ => ?_
    exact (emits_receive _).silent_bind fun _ => .silent fun _ => rfl
  refine (emits_receive _).silent_bind fun m => ?_
  split
  · refine (emits_receive _).silent_bind fun m => ?_
    split
    · exact hping
    · exact emits_wrong hping.nonempty
  · exact emits_wrong hping.nonempty

theorem emits_keepAlive : Op.Emits Peer.sent keepAlive Words.keepAlive := by
  refine (Op.Emits.silent fun _ => rfl).silent_bind fun p => (emits_letter ⟨p.ping, rfl⟩).bind fun _ => ?_
  obtain ⟨⟨v, hv⟩, hadds⟩ := emits_handshake
  refine ⟨⟨[], .inl rfl⟩, fun q => ?_⟩
  have hrec : (receive Commands.PONG q).2.sent = q.sent := rfl
  have hempty : q.sent = q.sent ++ [] := (List.append_nil q.sent).symm
  rcases h : receive Commands.PONG q with ⟨(e | msg) | m, q'⟩
  · rw [h] at hrec
    obtain ⟨w, hw, hbegun, hok⟩ := hadds q'
    rw [show q'.sent = q.sent from hrec] at hw
    exact ⟨w, hw, begun_mono le_sup_right hbegun, fun a ha => .inr (hok a ha)⟩
  · rw [h] at hrec
    exact ⟨[], hrec.trans hempty, mem_begun_of_mem (.inl rfl), fun a ha => by cases ha⟩
  · rw [h] at hrec
    exact ⟨[], hrec.trans hempty, mem_begun_of_mem (.inl rfl), fun _ _ => .inl rfl⟩

theorem emits_fetchHeaders (h : Hash256) :
    Op.Emits Peer.sent (fetchHeaders h) Words.getHeaders := by
  refine (emits_letter ⟨h, rfl⟩).bind_silent fun _ => (emits_receive _).silent_bind fun m => ?_
  split
  · exact .silent fun _ => rfl
  · exact emits_wrong ⟨[], rfl⟩

theorem emits_fetchCompactFilterHeaders (n : UInt32) (h : Hash256) :
    Op.Emits Peer.sent (fetchCompactFilterHeaders n h)
      {[.getCFHeaders { filterType := 0, startHeight := n, hashStop := h }]} := by
  refine (emits_send _).bind_silent fun _ => (emits_receive _).silent_bind fun m => ?_
  split
  · exact .silent fun _ => rfl
  · exact emits_wrong ⟨[], rfl⟩

/-- A loop that only reads the socket sends nothing. -/
theorem emits_repeatReading {α β : Type} [Nonempty α] {body : β → Op Error Peer (β ⊕ α)}
    (hbody : ∀ b, Op.Emits Peer.sent (body b) 1) (b : β) :
    Op.Emits Peer.sent (repeatReading body b) 1 := by
  rw [← @kstar_one (Language Message)]
  exact Op.Emits.loopOn hbody b

theorem emits_fetchCompactFilters (n : UInt32) (h : Hash256) :
    Op.Emits Peer.sent (fetchCompactFilters n h)
      {[.getCFilters { filterType := 0, startHeight := n, hashStop := h }]} := by
  refine (emits_send _).bind_silent fun _ => emits_repeatReading (fun fs => ?_) []
  refine (emits_receive _).silent_bind fun m => ?_
  split
  · split_ifs
    · exact .silent fun _ => rfl
    · exact .silent fun _ => rfl
  · exact emits_wrong ⟨[], rfl⟩

theorem emits_fetchBlocks {present : List Hash256} (h : present ≠ []) :
    Op.Emits Peer.sent (fetchBlocks (blockInv present)) Words.getBlocks := by
  refine (emits_letter ⟨present, h, rfl⟩).bind_silent fun _ => emits_repeatReading (fun bs => ?_) []
  refine (emits_receive _).silent_bind fun m => ?_
  split
  · split_ifs
    · exact .silent fun _ => rfl
    · exact .silent fun _ => rfl
  · exact emits_wrong ⟨[], rfl⟩

/-- **A transaction is only sent after it was announced.** -/
theorem emits_sendTransaction (sha256 : List UInt8 → Bytes 32) (t : Tx) :
    Op.Emits Peer.sent (sendTransaction sha256 t) (Words.announce sha256) := by
  have htx : ∃ w, w ∈ ({[.tx t]} : Language Message) := ⟨_, rfl⟩
  have hanswer (m : Message) : Op.Emits Peer.sent (answerGetData sha256 t m) {[.tx t]} := by
    unfold answerGetData
    split
    · rename_i inv
      rw [← one_mul ({[.tx t]} : Language Message)]
      refine Op.Emits.bind ?_ fun object => ?_
      · exact .silent fun _ => rfl
      · split_ifs
        · exact emits_send _
        · exact emits_wrong htx
    · exact emits_wrong htx
  refine Op.Emits.mono ((emits_send _).bind fun _ => (emits_receive _).silent_bind hanswer) ?_
  rintro _ ⟨_, rfl, _, rfl, rfl⟩
  exact ⟨t, rfl⟩

end Chain.Peer

/-! ## Calls of the chain -/

namespace Chain.ChainLib

variable (lib : ChainLib)

/-- What a chain has sent. -/
abbrev sent (c : CompactChain Xpub) : List Message := c.p2p.sent

instance : Nonempty CompactFilterHeader := ⟨default⟩

instance : Nonempty BlockHeader := ⟨default⟩

theorem emits_onPeer {α : Type} {x : Op Error Peer α} {L : Language Message}
    (hx : Op.Emits Peer.sent x L) : Op.Emits (@sent Xpub) (CompactChain.onPeer x) L :=
  hx.zoom (fun _ => rfl) fun _ _ => rfl

theorem emits_getAndVerifyCompactFilters (n : UInt32) (h : Hash256) :
    Op.Emits (@sent Xpub) (lib.getAndVerifyCompactFilters n h) Words.getFilters := by
  have hcfilters : Op.Emits (@sent Xpub) (CompactChain.onPeer (Peer.fetchCompactFilters n h)) _ :=
    emits_onPeer (Peer.emits_fetchCompactFilters n h)
  have hboth : Op.Emits (@sent Xpub) (lib.getAndVerifyCompactFilters n h)
      ({[.getCFHeaders { filterType := 0, startHeight := n, hashStop := h }]}
        * {[.getCFilters { filterType := 0, startHeight := n, hashStop := h }]}) := by
    refine (emits_onPeer (Peer.emits_fetchCompactFilterHeaders n h)).mapErr.bind fun header => ?_
    refine hcfilters.mapErr.bind_silent fun filters => ?_
    exact Op.Emits.silent_bind (.silent fun _ => rfl) fun _ => .silent fun _ => rfl
  refine hboth.mono ?_
  rintro _ ⟨_, rfl, _, rfl, rfl⟩
  exact ⟨n, h, rfl⟩

theorem emits_fetchAndSaveUtxos (filters : List CompactFilter) :
    Op.Emits (@sent Xpub) (lib.fetchAndSaveUtxos filters) (1 + Words.getBlocks) := by
  refine (Op.Emits.silent fun _ => rfl).silent_bind fun pubKeys => ?_
  refine Op.Emits.silent_bind (.silent fun _ => rfl) fun present => ?_
  split_ifs with h
  · exact Op.Emits.left (.silent fun _ => rfl)
  · have hne : present ≠ [] := by simpa using h
    refine Op.Emits.right ((emits_onPeer (Peer.emits_fetchBlocks hne)).mapErr.bind_silent fun blocks => ?_)
    exact Op.Emits.silent_bind (.silent fun _ => rfl) fun _ => .silent fun _ => rfl

theorem emits_syncRange (fetched : List BlockHeader) (startBlock : ℕ) (lastBlockHash : Hash256)
    (x : ℕ × ℕ) : Op.Emits (@sent Xpub) (lib.syncRange fetched startBlock lastBlockHash x)
      Words.range := by
  refine (lib.emits_getAndVerifyCompactFilters _ _).bind fun filters => ?_
  split_ifs
  · exact Op.Emits.left (.silent fun _ => rfl)
  · exact (lib.emits_fetchAndSaveUtxos filters).bind_silent fun _ => .silent fun _ => rfl

theorem emits_syncRound (u : Unit) : Op.Emits (@sent Xpub) (lib.syncRound u) Words.round := by
  refine (Op.Emits.silent fun _ => rfl).silent_bind fun hash => ?_
  refine Op.Emits.bind (emits_onPeer (Peer.emits_fetchHeaders hash)).mapErr fun fetched => ?_
  rw [syncHeaders]
  split
  · exact (Op.Emits.silent fun _ => rfl).mono one_le_kstar
  · refine Op.Emits.silent_bind (.silent fun _ => rfl) fun last => ?_
    refine Op.Emits.silent_bind (.silent fun _ => rfl) fun startBlock => ?_
    refine Op.Emits.bind_silent (Op.Emits.forM fun x _ => lib.emits_syncRange _ _ _ x) fun _ => ?_
    exact (Op.Emits.silent fun _ => rfl).silent_bind fun _ => .silent fun _ => rfl

theorem emits_syncState : Op.Emits (@sent Xpub) lib.syncState Words.sync :=
  Op.Emits.bind (emits_onPeer Peer.emits_keepAlive).mapErr fun _ =>
    Op.Emits.loopOn lib.emits_syncRound ()

theorem emits_sendTransaction (t : Tx) :
    Op.Emits (@sent Xpub) (lib.sendTransaction t) (Words.keepAlive * Words.announce lib.sha256) :=
  Op.Emits.bind (emits_onPeer Peer.emits_keepAlive).mapErr fun _ =>
    emits_onPeer (Peer.emits_sendTransaction lib.sha256 t)

end Chain.ChainLib

/-! ## Operations of the node -/

namespace SendLib

variable (lib : SendLib Xpub PublicKey Signer)

/-- What a node has sent. -/
abbrev sent (n : Node Xpub Signer) : List Message := n.chain.p2p.sent

instance : Nonempty (Psbt PublicKey) := ⟨⟨⟨0, 0, [], []⟩, []⟩⟩

/-- The language of an operation. -/
def words : NodeOp → Language Message
  | .balance => Words.sync
  | .getReceiveAddress => 1
  | .sendToAddress .. => Words.send lib.chain.sha256

/-- The operation returns. -/
def Returns (n : Node Xpub Signer) : NodeOp → Prop
  | .balance => ∃ b, (lib.balance n).1 = .ok b
  | .getReceiveAddress => ∃ address, (lib.getReceiveAddress n).1 = .ok address
  | .sendToAddress recipient amount feeRate rand =>
    (lib.sendToAddress recipient amount feeRate rand n).1 = .ok ()

theorem emits_onChain {α : Type} {x : Op Error (CompactChain Xpub) α} {L : Language Message}
    (hx : Op.Emits ChainLib.sent x L) : Op.Emits (@sent Xpub Signer) (NodeLib.onChain x) L :=
  hx.zoom (fun _ => rfl) fun _ _ => rfl

theorem emits_balance : Op.Emits (@sent Xpub Signer) lib.balance Words.sync :=
  Op.Emits.bind_silent (emits_onChain lib.chain.emits_syncState) fun _ =>
    (Op.Emits.silent fun _ => rfl).silent_bind fun _ => .silent fun _ => rfl

theorem emits_getReceiveAddress : Op.Emits (@sent Xpub Signer) lib.getReceiveAddress 1 :=
  Op.Emits.silent_bind (.silent fun _ => rfl) fun _ =>
    (Op.Emits.silent fun _ => rfl).silent_bind fun _ => .silent fun _ => rfl

theorem emits_sendToAddress (recipient : Script) (amount feeRate : UInt64) (rand : Rng) :
    Op.Emits (@sent Xpub Signer) (lib.sendToAddress recipient amount feeRate rand)
      (Words.send lib.chain.sha256) := by
  refine Op.Emits.bind (emits_onChain lib.chain.emits_syncState) fun _ => ?_
  refine Op.Emits.silent_bind (.silent fun _ => rfl) fun transaction => ?_
  refine Op.Emits.silent_bind (.silent fun _ => rfl) fun signed => ?_
  refine Op.Emits.silent_bind (.silent fun _ => rfl) fun finalised => ?_
  refine Op.Emits.silent_bind (.silent fun _ => rfl) fun deserialised => ?_
  refine Op.Emits.bind_silent ?_ fun _ => .silent fun _ => rfl
  exact (emits_onChain (lib.chain.emits_sendTransaction deserialised.1)).expectOk

/-- **One operation** adds a word of its language, or the beginning of one if it fails. -/
theorem sent_step (n : Node Xpub Signer) (op : NodeOp) :
    ∃ w, sent (lib.step n op) = sent n ++ w ∧ w ∈ begun (lib.words op)
      ∧ (lib.Returns n op → w ∈ lib.words op) := by
  cases op with
  | balance =>
    obtain ⟨w, hw, hbegun, hok⟩ := lib.emits_balance.adds n
    exact ⟨w, hw, hbegun, fun ⟨b, hb⟩ => hok b hb⟩
  | getReceiveAddress =>
    obtain ⟨w, hw, hbegun, hok⟩ := lib.emits_getReceiveAddress.adds n
    exact ⟨w, hw, hbegun, fun ⟨address, h⟩ => hok address h⟩
  | sendToAddress recipient amount feeRate rand =>
    obtain ⟨w, hw, hbegun, hok⟩ := (lib.emits_sendToAddress recipient amount feeRate rand).adds n
    exact ⟨w, hw, hbegun, hok ()⟩

/-- **A conversation**: for each operation of a run, what it has sent. -/
inductive Converses : Node Xpub Signer → List NodeOp → List (List Message) → Prop
  | nil (n : Node Xpub Signer) : Converses n [] []
  | cons {n : Node Xpub Signer} {op : NodeOp} {ops : List NodeOp} {w : List Message}
    {ws : List (List Message)} : w ∈ begun (lib.words op) → (lib.Returns n op → w ∈ lib.words op) →
    Converses (lib.step n op) ops ws → Converses n (op :: ops) (w :: ws)

/-- **What a node says over a run.**  From any node, with any peer, the messages sent are those of a
conversation: operation by operation a word of its language, cut off only where it has failed. -/
theorem converses_run (n : Node Xpub Signer) (ops : List NodeOp) :
    ∃ ws, lib.Converses n ops ws ∧ sent (lib.run n ops) = sent n ++ ws.flatten := by
  induction ops generalizing n with
  | nil => exact ⟨[], .nil n, (List.append_nil _).symm⟩
  | cons op ops ih =>
    obtain ⟨w, hw, hbegun, hok⟩ := lib.sent_step n op
    obtain ⟨ws, hws, hsent⟩ := ih (lib.step n op)
    refine ⟨w :: ws, .cons hbegun hok hws, ?_⟩
    change sent (lib.run (lib.step n op) ops) = _
    rw [hsent, hw, List.flatten_cons, List.append_assoc]

end SendLib

end Bitspend
