import Bitspend.Chain.P2p

/-!
# Chain/Replies — requests that are answered

What a request needs to return.  Against a script that delivers the replies it awaits, in order, with
any other messages and failed reads between them (`Delivers`), a request returns what they hold and
leaves the rest of the script (`Gets`).  So requests compose as their lists of replies do.
-/

namespace Bitspend.Chain

open Wire

/-- A reply that is awaited: the command it comes under, and what it may be. -/
structure Awaited where
  command : Bytes 12
  fits : Message → Prop

/-- Exactly this message is awaited. -/
def Awaited.exactly (command : Bytes 12) (m : Message) : Awaited := ⟨command, (· = m)⟩

/-- **The script delivers the replies**, in order.  Before each of them other messages may arrive, and
reads may fail. -/
inductive Delivers : List Awaited → List Incoming → Prop
  | done (l : List Incoming) : Delivers [] l
  | reply {a : Awaited} {as : List Awaited} {m : Message} {header : MessageHeader}
    {l : List Incoming} : header.command = a.command → a.fits m → Delivers as l →
    Delivers (a :: as) (.read (.ok (m, header)) :: l)
  | other {a : Awaited} {as : List Awaited} {m : Message} {header : MessageHeader}
    {l : List Incoming} : header.command ≠ Commands.NOTFOUND → header.command ≠ a.command →
    Delivers (a :: as) l → Delivers (a :: as) (.read (.ok (m, header)) :: l)
  | failed {a : Awaited} {as : List Awaited} {e : IoError} {l : List Incoming} :
    Delivers (a :: as) l → Delivers (a :: as) (.read (.error (.error (.ioError e))) :: l)

theorem Delivers.length_le {as : List Awaited} {l : List Incoming} (h : Delivers as l) :
    as.length ≤ l.length := by
  induction h with
  | done l => exact Nat.zero_le _
  | reply _ _ _ ih => exact Nat.succ_le_succ ih
  | other _ _ _ ih => exact Nat.le_succ_of_le ih
  | failed _ ih => exact Nat.le_succ_of_le ih

/-- **`receive` finds the next reply.** -/
theorem Delivers.receiveFrom {a : Awaited} {as : List Awaited} {l : List Incoming}
    (h : Delivers (a :: as) l) :
    ∃ m rest, Peer.receiveFrom a.command l = (.ok m, rest) ∧ a.fits m ∧ Delivers as rest := by
  generalize has : a :: as = as' at h
  induction h with
  | done l => cases has
  | @reply a' as' m header l hcommand hfits hrest ih =>
    cases has
    refine ⟨m, l, ?_, hfits, hrest⟩
    rw [Peer.receiveFrom, if_pos hcommand, ite_self]
  | @other a' as' m header l hnot hne _ ih =>
    cases has
    obtain ⟨m', rest, hrec, hfits, hrest⟩ := ih rfl
    refine ⟨m', rest, ?_, hfits, hrest⟩
    rw [Peer.receiveFrom, if_neg hnot, if_neg hne, hrec]
  | @failed a' as' e l _ ih =>
    cases has
    obtain ⟨m', rest, hrec, hfits, hrest⟩ := ih rfl
    exact ⟨m', rest, by rw [Peer.receiveFrom, hrec], hfits, hrest⟩

namespace Peer

/-- **The peer is ready to reply**, and the socket takes what is written. -/
structure Ready (as : List Awaited) (p : Peer) : Prop where
  delivers : Delivers as p.incoming
  writes : ∀ r ∈ p.writes, r = .ok ()

/-- **The request returns from the replies**, whatever follows them. -/
def Gets {α : Type} (x : Op Error Peer α) (Q : α → Prop) (as : List Awaited) : Prop :=
  ∀ p rest, p.Ready (as ++ rest) → ∃ a p', x p = (.ok a, p') ∧ Q a ∧ p'.Ready rest

namespace Gets

variable {α β : Type} {Q : α → Prop} {R : β → Prop} {as bs : List Awaited}

theorem pure {a : α} (h : Q a) : Gets (Pure.pure a) Q [] := fun p _ hp => ⟨a, p, rfl, h, hp⟩

theorem bind {x : Op Error Peer α} {f : α → Op Error Peer β} (hx : Gets x Q as)
    (hf : ∀ a, Q a → Gets (f a) R bs) : Gets (x >>= f) R (as ++ bs) := by
  intro p rest hp
  rw [List.append_assoc] at hp
  obtain ⟨a, p₁, ha, hQ, hp₁⟩ := hx p (bs ++ rest) hp
  obtain ⟨b, p₂, hb, hR, hp₂⟩ := hf a hQ p₁ rest hp₁
  exact ⟨b, p₂, Op.bind_eq_ok.mpr ⟨a, p₁, ha, hb⟩, hR, hp₂⟩

/-- Nothing is awaited to send. -/
theorem send (m : Message) : Gets (Peer.send m) (fun _ => True) [] := by
  rintro p rest ⟨hdelivers, hwrites⟩
  refine ⟨(), _, Prod.ext ?_ rfl, trivial, hdelivers, fun r hr => hwrites r (List.mem_of_mem_tail hr)⟩
  change p.writes.head?.getD (.ok ()) = .ok ()
  cases h : p.writes with
  | nil => rfl
  | cons r rs => exact hwrites r (h ▸ List.mem_cons_self)

theorem receive (a : Awaited) : Gets (Peer.receive a.command) a.fits [a] := by
  rintro p rest ⟨hdelivers, hwrites⟩
  obtain ⟨m, l, hrec, hfits, hrest⟩ := hdelivers.receiveFrom
  exact ⟨m, _, Op.zoom_eq_ok.mpr ⟨l, hrec, rfl⟩, hfits, hrest, hwrites⟩

/-- The request that sends a message and then goes on. -/
theorem after_send {x : Op Error Peer α} (hx : Gets x Q as) (m : Message) :
    Gets (Peer.send m >>= fun _ => x) Q as := (send m).bind fun _ _ => hx

/-- One reply, and then the others. -/
theorem bind_cons {a : Awaited} {x : Op Error Peer α} {f : α → Op Error Peer β} (hx : Gets x Q [a])
    (hf : ∀ a, Q a → Gets (f a) R bs) : Gets (x >>= f) R (a :: bs) := hx.bind hf

/-- A reply and what is made of it. -/
theorem receive_bind {a : Awaited} {f : Message → Op Error Peer β} (hf : ∀ m, a.fits m → Gets (f m) R bs) :
    Gets (Peer.receive a.command >>= f) R (a :: bs) := (receive a).bind_cons hf

end Gets

/-! ## The requests -/

/-- The reply with some headers… -/
def headersReply (hs : List BlockHeader) : Awaited := .exactly Commands.HEADERS (.headers { inner := hs })

theorem gets_fetchHeaders (locator : Hash256) (hs : List BlockHeader) :
    Gets (fetchHeaders locator) (· = hs) [headersReply hs] := by
  refine Gets.after_send (Gets.receive_bind (a := headersReply hs) ?_) _
  rintro m rfl
  exact Gets.pure rfl

/-- …with some filter hashes… -/
def cfheadersReply (hashes : List Hash256) : Awaited :=
  ⟨Commands.CFHEADERS, fun m => ∃ f, m = .cfHeaders f ∧ f.filterHashes = hashes⟩

theorem gets_fetchCompactFilterHeaders (n : UInt32) (h : Hash256) (hashes : List Hash256) :
    Gets (fetchCompactFilterHeaders n h) (fun f => f.filterHashes = hashes) [cfheadersReply hashes] := by
  refine Gets.after_send (Gets.receive_bind (a := cfheadersReply hashes) ?_) _
  rintro m ⟨f, rfl, hf⟩
  exact Gets.pure hf

/-- …with a filter… -/
def cfilterReply (f : CompactFilter) : Awaited := .exactly Commands.CFILTERS (.cFilters f)

/-- …and with a block. -/
def blockReply (b : Block) : Awaited := .exactly Commands.BLOCK (.block b)

/-- **Filters are collected up to the one of the stop hash.** -/
theorem gets_loop_collectFilters {stop : Hash256} {fs : List CompactFilter} {last : CompactFilter}
    (hlast : last.blockHash = stop) (hfs : ∀ f ∈ fs, f.blockHash ≠ stop) {n : ℕ} (hn : fs.length < n)
    (acc : List CompactFilter) :
    Gets (Op.loop (collectFilters stop) n acc) (· = acc ++ (fs ++ [last]))
      ((fs ++ [last]).map cfilterReply) := by
  induction fs generalizing n acc with
  | nil =>
    obtain ⟨n, rfl⟩ : ∃ k, n = k + 1 := ⟨n - 1, by rw [List.length_nil] at hn; omega⟩
    have hbody : Gets (collectFilters stop acc) (· = .inr (acc ++ [last])) [cfilterReply last] := by
      refine Gets.receive_bind (a := cfilterReply last) ?_
      rintro m rfl
      dsimp only
      rw [if_pos hlast]
      exact Gets.pure rfl
    refine hbody.bind_cons ?_
    rintro r rfl
    exact Gets.pure rfl
  | cons f fs ih =>
    rw [List.length_cons] at hn
    obtain ⟨n, rfl⟩ : ∃ k, n = k + 1 := ⟨n - 1, by omega⟩
    have hbody : Gets (collectFilters stop acc) (· = .inl (acc ++ [f])) [cfilterReply f] := by
      refine Gets.receive_bind (a := cfilterReply f) ?_
      rintro m rfl
      dsimp only
      rw [if_neg (hfs f List.mem_cons_self)]
      exact Gets.pure rfl
    refine hbody.bind_cons ?_
    rintro r rfl
    have hrest := @ih (fun g hg => hfs g (List.mem_cons_of_mem f hg)) n (by omega) (acc ++ [f])
    rwa [List.append_assoc] at hrest

/-- A loop that reads the socket has rounds enough for its replies. -/
theorem gets_repeatReading {α β : Type} {body : β → Op Error Peer (β ⊕ α)} {b : β} {Q : α → Prop}
    {as : List Awaited} (h : ∀ n, as.length < n → Gets (Op.loop body n b) Q as) :
    Gets (repeatReading body b) Q as := by
  intro p rest hp
  refine h (p.incoming.length + 1) ?_ p rest hp
  have hlen := hp.delivers.length_le
  rw [List.length_append] at hlen
  omega

theorem gets_fetchCompactFilters (n : UInt32) {stop : Hash256} {fs : List CompactFilter}
    {last : CompactFilter} (hlast : last.blockHash = stop) (hfs : ∀ f ∈ fs, f.blockHash ≠ stop) :
    Gets (fetchCompactFilters n stop) (· = fs ++ [last]) ((fs ++ [last]).map cfilterReply) := by
  refine Gets.after_send (gets_repeatReading fun k hk => ?_) _
  rw [List.length_map, List.length_append] at hk
  exact gets_loop_collectFilters hlast hfs (by omega) []

/-- **Blocks are collected until there are as many as were asked for.** -/
theorem gets_loop_collectBlocks {k : ℕ} {bs : List Block} (hne : bs ≠ []) {acc : List Block}
    (hk : acc.length + bs.length = k) {n : ℕ} (hn : bs.length ≤ n) :
    Gets (Op.loop (collectBlocks k) n acc) (· = acc ++ bs) (bs.map blockReply) := by
  induction bs generalizing acc n with
  | nil => exact absurd rfl hne
  | cons b bs ih =>
    rw [List.length_cons] at hk hn
    obtain ⟨n, rfl⟩ : ∃ j, n = j + 1 := ⟨n - 1, by omega⟩
    rcases eq_or_ne bs [] with rfl | hbs
    · have hbody : Gets (collectBlocks k acc) (· = .inr (acc ++ [b])) [blockReply b] := by
        refine Gets.receive_bind (a := blockReply b) ?_
        rintro m rfl
        dsimp only
        rw [if_pos (by rw [List.length_append]; exact hk)]
        exact Gets.pure rfl
      refine hbody.bind_cons ?_
      rintro r rfl
      exact Gets.pure rfl
    · have hpos : 0 < bs.length := List.length_pos_iff.mpr hbs
      have hbody : Gets (collectBlocks k acc) (· = .inl (acc ++ [b])) [blockReply b] := by
        refine Gets.receive_bind (a := blockReply b) ?_
        rintro m rfl
        dsimp only
        rw [if_neg (by rw [List.length_append, List.length_singleton]; omega)]
        exact Gets.pure rfl
      refine hbody.bind_cons ?_
      rintro r rfl
      have hrest := @ih hbs (acc ++ [b]) (by rw [List.length_append, List.length_singleton]; omega) n
        (by omega)
      rwa [List.append_assoc] at hrest

theorem gets_fetchBlocks {inv : Inv} {bs : List Block} (hne : bs ≠ [])
    (hlen : bs.length = inv.objects.length) :
    Gets (fetchBlocks inv) (· = bs) (bs.map blockReply) := by
  refine Gets.after_send (gets_repeatReading fun k hk => ?_) _
  rw [List.length_map] at hk
  exact gets_loop_collectBlocks hne (by rw [List.length_nil, Nat.zero_add, hlen]) hk.le

/-- The reply to a ping. -/
def pongReply : Awaited := ⟨Commands.PONG, fun _ => True⟩

/-- **A ping that comes back** is all of `keep_alive`. -/
theorem gets_keepAlive : Gets keepAlive (fun _ => True) [pongReply] := by
  intro p rest hp
  obtain ⟨_, p₁, hsend, -, hp₁⟩ := Gets.send (.ping p.ping) p ([pongReply] ++ rest) hp
  obtain ⟨m, p₂, hrec, -, hp₂⟩ := Gets.receive pongReply p₁ rest hp₁
  replace hrec : receive Commands.PONG p₁ = (.ok m, p₂) := hrec
  refine ⟨(), p₂, ?_, trivial, hp₂⟩
  refine Op.bind_eq_ok.mpr ⟨p, p, rfl, Op.bind_eq_ok.mpr ⟨(), p₁, hsend, ?_⟩⟩
  rw [hrec]

end Peer

end Bitspend.Chain
