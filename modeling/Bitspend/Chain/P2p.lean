import Bitspend.Wire.Message

/-!
# Chain/P2p — requests to the peer

`p2p.rs`: each request is a message sent and one or more replies awaited.  What the peer does is not
modelled but scripted: the coming results of `Message::read`, with a mark where a call's deadline
passes, and the coming results of writing to the socket.  Every behaviour of a peer is some script.
`P2P` only forwards to its peer, which is there from `connect_peer` on.
-/

namespace Bitspend.Chain

open Wire

/-- What a waiting call meets next: the result of a read, or its deadline. -/
inductive Incoming where
  | read (r : Outcome Error (Message × MessageHeader))
  | deadline

/-- A message that arrives under a command. -/
def Incoming.message (command : Bytes 12) (m : Message) : Incoming :=
  .read (.ok (m, { magic := default, command, payloadSize := 0, checksum := default }))

/-- `Peer`: the script of its socket, the messages sent so far, and the two messages it sends that
hold no argument of a call. -/
structure Peer where
  incoming : List Incoming
  writes : List (Outcome Error Unit)
  sent : List Message
  version : Version
  ping : Ping

namespace Peer

/-! ## Sending and receiving -/

/-- `Peer::send`.  Past the script, writing succeeds. -/
def send (m : Message) : Op Error Peer Unit := fun p =>
  (p.writes.head?.getD (.ok ()), { p with writes := p.writes.tail, sent := p.sent ++ [m] })

/-- The loop of `receive`: other messages and failed reads are passed over until the deadline, and
past the script nothing arrives. -/
def receiveFrom (messageType : Bytes 12) : List Incoming → Outcome Error Message × List Incoming
  | [] => (Outcome.err .timeout, [])
  | .deadline :: rest => (Outcome.err .timeout, rest)
  | .read (.ok (m, header)) :: rest =>
    if header.command = Commands.NOTFOUND then (.ok m, rest)
    else if header.command = messageType then (.ok m, rest)
    else receiveFrom messageType rest
  | .read (.error (.error (.ioError _))) :: rest => receiveFrom messageType rest
  | .read (.error f) :: rest => (.error f, rest)

/-- `Peer::receive`. -/
def receive (messageType : Bytes 12) : Op Error Peer Message :=
  Op.zoom Peer.incoming (fun rest p => { p with incoming := rest }) (receiveFrom messageType)

/-- A loop that reads the socket. -/
def repeatReading {α β : Type} (body : β → Op Error Peer (β ⊕ α)) (b : β) : Op Error Peer α :=
  Op.loopOn (fun p => p.incoming.length) body b

/-! ## Requests -/

/-- `Peer::handshake`. -/
def handshake : Op Error Peer Unit := do
  let p ← Op.ask fun p => pure p
  send (.version p.version)
  match ← receive Commands.VERSION with
  | .version _ =>
    match ← receive Commands.VERACK with
    | .verack =>
      send .verack
      send (.ping p.ping)
      let _ ← receive Commands.PONG
    | _ => Op.lift (Outcome.err .wrongP2PMessage)
  | _ => Op.lift (Outcome.err .wrongP2PMessage)

/-- `Peer::fetch_headers`. -/
def fetchHeaders (lastKnownBlockhash : Hash256) : Op Error Peer (List BlockHeader) := do
  send (.getHeaders
    { version := PROTOCOL_VERSION, blockLocatorHashes := [lastKnownBlockhash],
      hashStop := NO_HASH_STOP })
  match ← receive Commands.HEADERS with
  | .headers headers => pure headers.inner
  | _ => Op.lift (Outcome.err .wrongP2PMessage)

/-- The loop of `fetch_compact_filters`: filters are collected up to the one of the stop hash. -/
def collectFilters (hashStop : Hash256) (blockFilters : List CompactFilter) :
    Op Error Peer (List CompactFilter ⊕ List CompactFilter) := do
  match ← receive Commands.CFILTERS with
  | .cFilters filters =>
    if filters.blockHash = hashStop then pure (.inr (blockFilters ++ [filters]))
    else pure (.inl (blockFilters ++ [filters]))
  | _ => Op.lift (Outcome.err .wrongP2PMessage)

/-- `Peer::fetch_compact_filters`. -/
def fetchCompactFilters (startHeight : UInt32) (hashStop : Hash256) :
    Op Error Peer (List CompactFilter) := do
  send (.getCFilters { filterType := 0, startHeight, hashStop })
  repeatReading (collectFilters hashStop) []

/-- `Peer::fetch_compact_filter_headers`. -/
def fetchCompactFilterHeaders (startHeight : UInt32) (hashStop : Hash256) :
    Op Error Peer CompactFilterHeader := do
  send (.getCFHeaders { filterType := 0, startHeight, hashStop })
  match ← receive Commands.CFHEADERS with
  | .cfHeaders cfheaders => pure cfheaders
  | _ => Op.lift (Outcome.err .wrongP2PMessage)

/-- `Peer::keep_alive`: a ping that fails to come back is followed by a new handshake. -/
def keepAlive : Op Error Peer Unit := do
  let p ← Op.ask fun p => pure p
  send (.ping p.ping)
  fun p =>
    match receive Commands.PONG p with
    | (.ok _, p') => (.ok (), p')
    | (.error (.error _), p') => handshake p'
    | (.error (.panic msg), p') => (.error (.panic msg), p')

/-- The loop of `fetch_blocks`: blocks are collected until there are as many as asked for. -/
def collectBlocks (dataLen : ℕ) (blocks : List Block) :
    Op Error Peer (List Block ⊕ List Block) := do
  match ← receive Commands.BLOCK with
  | .block block =>
    if (blocks ++ [block]).length = dataLen then pure (.inr (blocks ++ [block]))
    else pure (.inl (blocks ++ [block]))
  | _ => Op.lift (Outcome.err .wrongP2PMessage)

/-- `Peer::fetch_blocks`. -/
def fetchBlocks (inv : Inv) : Op Error Peer (List Block) := do
  send (.getData inv)
  repeatReading (collectBlocks inv.objects.length) []

/-- What `send_transaction` does with the peer's answer to its announcement. -/
def answerGetData (sha256 : List UInt8 → Bytes 32) (transaction : Tx) :
    Message → Op Error Peer Unit
  | .getData inv => do
    let object ← Op.lift
      (Outcome.expect "called `Option::unwrap()` on a `None` value" inv.objects.head?)
    if object.hash = transaction.hash sha256 then send (.tx transaction)
    else Op.lift (Outcome.err .wrongP2PMessage)
  | _ => Op.lift (Outcome.err .wrongP2PMessage)

/-- `Peer::send_transaction`. -/
def sendTransaction (sha256 : List UInt8 → Bytes 32) (transaction : Tx) : Op Error Peer Unit := do
  send (.inv { objects := [{ objType := 1, hash := transaction.hash sha256 }] })
  let answer ← receive Commands.GETDATA
  answerGetData sha256 transaction answer

/-! ## What a request consumes

Every call leaves a suffix of the script, and one that returns a reply a shorter one: so the loops
end, and each reply is one the script holds. -/

theorem receiveFrom_suffix (t : Bytes 12) (l : List Incoming) : (receiveFrom t l).2 <:+ l := by
  fun_induction receiveFrom t l with
  | case1 => exact List.suffix_rfl
  | case2 rest => exact List.suffix_cons _ rest
  | case3 m header rest => exact List.suffix_cons _ rest
  | case4 m header rest => exact List.suffix_cons _ rest
  | case5 m header rest _ _ ih => exact ih.trans (List.suffix_cons _ rest)
  | case6 e rest ih => exact ih.trans (List.suffix_cons _ rest)
  | case7 f rest => exact List.suffix_cons _ rest

/-- **A reply is in the script**, and what is left of it is shorter. -/
theorem receiveFrom_eq_ok {t : Bytes 12} {l rest : List Incoming} {m : Message}
    (h : receiveFrom t l = (.ok m, rest)) :
    (∃ header, .read (.ok (m, header)) ∈ l) ∧ rest.length < l.length := by
  fun_induction receiveFrom t l with
  | case1 => cases h
  | case2 => cases h
  | case3 m' header rest' =>
    cases h
    exact ⟨⟨header, List.mem_cons_self⟩, Nat.lt_succ_self _⟩
  | case4 m' header rest' =>
    cases h
    exact ⟨⟨header, List.mem_cons_self⟩, Nat.lt_succ_self _⟩
  | case5 m' header rest' _ _ ih =>
    obtain ⟨⟨header, hm⟩, hlt⟩ := ih h
    exact ⟨⟨header, List.mem_cons_of_mem _ hm⟩, Nat.lt_succ_of_lt hlt⟩
  | case6 e rest' ih =>
    obtain ⟨⟨header, hm⟩, hlt⟩ := ih h
    exact ⟨⟨header, List.mem_cons_of_mem _ hm⟩, Nat.lt_succ_of_lt hlt⟩
  | case7 => cases h

theorem receive_eq_ok {t : Bytes 12} {p p' : Peer} {m : Message} (h : receive t p = (.ok m, p')) :
    (∃ header, .read (.ok (m, header)) ∈ p.incoming)
      ∧ p'.incoming.length < p.incoming.length := by
  obtain ⟨rest, hrest, rfl⟩ := Op.zoom_eq_ok.mp h
  exact receiveFrom_eq_ok hrest

theorem incoming_of_send {m : Message} {p p' : Peer} {r : Outcome Error Unit}
    (h : send m p = (r, p')) : p'.incoming = p.incoming := by
  cases h
  rfl

/-! ## What requests keep

A request only sends and receives, so what sending and receiving preserve, it preserves; and only
`send_transaction` sends a transaction. -/

section Requests

variable {P : Peer → Prop} (hsend : ∀ m, (∀ t, m ≠ .tx t) → Op.Keeps P (send m))
  (hreceive : ∀ t, Op.Keeps P (receive t))

include hsend hreceive

theorem keeps_handshake : Op.Keeps P handshake := by
  refine (Op.Keeps.ask _).bind fun p => (hsend _ (by simp)).bind fun _ => ?_
  refine (hreceive _).bind fun m => ?_
  split
  · refine (hreceive _).bind fun m => ?_
    split
    · refine (hsend _ (by simp)).bind fun _ => (hsend _ (by simp)).bind fun _ => ?_
      exact (hreceive _).bind fun _ => Op.Keeps.pure _
    · exact Op.Keeps.lift _
  · exact Op.Keeps.lift _

theorem keeps_fetchHeaders (h : Hash256) : Op.Keeps P (fetchHeaders h) := by
  refine (hsend _ (by simp)).bind fun _ => (hreceive _).bind fun m => ?_
  split
  · exact Op.Keeps.pure _
  · exact Op.Keeps.lift _

omit hsend in
theorem keeps_collectFilters (h : Hash256) (fs : List CompactFilter) :
    Op.Keeps P (collectFilters h fs) := by
  refine (hreceive _).bind fun m => ?_
  split
  · split_ifs
    · exact Op.Keeps.pure _
    · exact Op.Keeps.pure _
  · exact Op.Keeps.lift _

theorem keeps_fetchCompactFilters (n : UInt32) (h : Hash256) :
    Op.Keeps P (fetchCompactFilters n h) :=
  (hsend _ (by simp)).bind fun _ => Op.Keeps.loopOn (keeps_collectFilters hreceive h) _

theorem keeps_fetchCompactFilterHeaders (n : UInt32) (h : Hash256) :
    Op.Keeps P (fetchCompactFilterHeaders n h) := by
  refine (hsend _ (by simp)).bind fun _ => (hreceive _).bind fun m => ?_
  split
  · exact Op.Keeps.pure _
  · exact Op.Keeps.lift _

theorem keeps_keepAlive : Op.Keeps P keepAlive := by
  refine (Op.Keeps.ask _).bind fun p => (hsend _ (by simp)).bind fun _ => ?_
  intro q hq
  have hrec := hreceive Commands.PONG q hq
  dsimp only
  rcases h : receive Commands.PONG q with ⟨(_ | _) | _, q'⟩
  · rw [h] at hrec
    exact keeps_handshake hsend hreceive q' hrec
  · rwa [h] at hrec
  · rwa [h] at hrec

omit hsend in
theorem keeps_collectBlocks (n : ℕ) (bs : List Block) : Op.Keeps P (collectBlocks n bs) := by
  refine (hreceive _).bind fun m => ?_
  split
  · split_ifs
    · exact Op.Keeps.pure _
    · exact Op.Keeps.pure _
  · exact Op.Keeps.lift _

theorem keeps_fetchBlocks (inv : Inv) : Op.Keeps P (fetchBlocks inv) :=
  (hsend _ (by simp)).bind fun _ => Op.Keeps.loopOn (keeps_collectBlocks hreceive _) _

end Requests

/-- Every call leaves a suffix of the script. -/
theorem keeps_suffix_send (l : List Incoming) (m : Message) (_ : ∀ t, m ≠ .tx t) :
    Op.Keeps (fun p => p.incoming <:+ l) (send m) := fun _ h => h

theorem keeps_suffix_receive (l : List Incoming) (t : Bytes 12) :
    Op.Keeps (fun p => p.incoming <:+ l) (receive t) :=
  fun p h => (receiveFrom_suffix t p.incoming).trans h

/-! ## What a request returns -/

/-- **The headers returned are those of a reply in the script.** -/
theorem fetchHeaders_eq_ok {h : Hash256} {p p' : Peer} {hs : List BlockHeader}
    (hok : fetchHeaders h p = (.ok hs, p')) :
    (∃ header, .read (.ok (.headers { inner := hs }, header)) ∈ p.incoming)
      ∧ p'.incoming.length < p.incoming.length := by
  obtain ⟨_, p₁, hsend, hok⟩ := Op.bind_eq_ok.mp hok
  obtain ⟨m, p₂, hrec, hok⟩ := Op.bind_eq_ok.mp hok
  have hm := receive_eq_ok hrec
  rw [incoming_of_send hsend] at hm
  split at hok
  · obtain ⟨rfl, rfl⟩ := Op.pure_eq_ok.mp hok
    exact hm
  · cases hok

theorem collectFilters_eq_ok {h : Hash256} {fs : List CompactFilter} {p p' : Peer}
    {r : List CompactFilter ⊕ List CompactFilter} (hok : collectFilters h fs p = (.ok r, p')) :
    (∃ f : CompactFilter, (f.blockHash = h ∧ r = .inr (fs ++ [f]))
        ∨ (f.blockHash ≠ h ∧ r = .inl (fs ++ [f])))
      ∧ p'.incoming.length < p.incoming.length := by
  obtain ⟨m, p₁, hrec, hok⟩ := Op.bind_eq_ok.mp hok
  have hlt := (receive_eq_ok hrec).2
  split at hok
  · rename_i f
    split_ifs at hok with hf
    · obtain ⟨rfl, rfl⟩ := Op.pure_eq_ok.mp hok
      exact ⟨⟨f, .inl ⟨hf, rfl⟩⟩, hlt⟩
    · obtain ⟨rfl, rfl⟩ := Op.pure_eq_ok.mp hok
      exact ⟨⟨f, .inr ⟨hf, rfl⟩⟩, hlt⟩
  · cases hok

/-- **Filters are only returned with the one of the stop hash among them**, as the last. -/
theorem fetchCompactFilters_eq_ok {n : UInt32} {h : Hash256} {p p' : Peer}
    {fs : List CompactFilter} (hok : fetchCompactFilters n h p = (.ok fs, p')) :
    ∃ fs' f, fs = fs' ++ [f] ∧ f.blockHash = h := by
  obtain ⟨_, p₁, _, hok⟩ := Op.bind_eq_ok.mp hok
  -- the loop ends in a round that was sent the filter of the stop hash
  obtain ⟨_, fs', p₂, -, ⟨a, ha, hlast⟩ | ⟨e, he, -⟩⟩ :=
    Op.loopOn_cases (fun _ _ _ _ hgo => (collectFilters_eq_ok hgo).2) hok
  · cases ha
    obtain ⟨⟨f, ⟨hf, hr⟩ | ⟨_, hr⟩⟩, _⟩ := collectFilters_eq_ok hlast
    · cases hr
      exact ⟨fs', f, rfl, hf⟩
    · cases hr
  · cases he

theorem collectBlocks_eq_ok {n : ℕ} {bs : List Block} {p p' : Peer} {r : List Block ⊕ List Block}
    (hok : collectBlocks n bs p = (.ok r, p')) :
    (∃ b, (bs.length + 1 = n ∧ r = .inr (bs ++ [b])) ∨ (bs.length + 1 ≠ n ∧ r = .inl (bs ++ [b])))
      ∧ p'.incoming.length < p.incoming.length := by
  obtain ⟨m, p₁, hrec, hok⟩ := Op.bind_eq_ok.mp hok
  have hlt := (receive_eq_ok hrec).2
  split at hok
  · rename_i b
    rw [List.length_append] at hok
    split_ifs at hok with hn
    · obtain ⟨rfl, rfl⟩ := Op.pure_eq_ok.mp hok
      exact ⟨⟨b, .inl ⟨hn, rfl⟩⟩, hlt⟩
    · obtain ⟨rfl, rfl⟩ := Op.pure_eq_ok.mp hok
      exact ⟨⟨b, .inr ⟨hn, rfl⟩⟩, hlt⟩
  · cases hok

/-- **As many blocks are returned as were asked for.** -/
theorem fetchBlocks_eq_ok {inv : Inv} {p p' : Peer} {bs : List Block}
    (hok : fetchBlocks inv p = (.ok bs, p')) : bs.length = inv.objects.length := by
  obtain ⟨_, p₁, _, hok⟩ := Op.bind_eq_ok.mp hok
  obtain ⟨_, bs', p₂, -, ⟨a, ha, hlast⟩ | ⟨e, he, -⟩⟩ :=
    Op.loopOn_cases (fun _ _ _ _ hgo => (collectBlocks_eq_ok hgo).2) hok
  · cases ha
    obtain ⟨⟨block, ⟨hn, hr⟩ | ⟨_, hr⟩⟩, _⟩ := collectBlocks_eq_ok hlast
    · cases hr
      rw [List.length_append]
      exact hn
    · cases hr
  · cases he

end Peer

end Bitspend.Chain
