import Bitspend.Machinery.Sha256
import Bitspend.Machinery.Sink
import Bitspend.Wire.Message

/-!
# Wire/ShortWrites — sending to a writer that takes less than it is given

`Message::write` on an arbitrary writer.  Integers go out through `byteorder`, that is through
`write_all`; hashes, strings, addresses and the fixed fields of the header go out through a bare
`write` whose count is dropped.  So the frame arrives exactly when the writer takes every one of the
latter whole (`Message.writeTo_exact_iff`), and a writer that takes a byte at a time gets seven bytes
of the twenty-four of a `verack` (`Message.writeTo_verack`).
-/

namespace Bitspend.Wire.Message

variable {σ : Type} (sha256 : List UInt8 → Bytes 32)

/-- `Message::write` on a writer: what the message makes of the calls, and the calls themselves. -/
def writeTo (S : Sink IoError σ) (magic : Bytes 4) (m : Message) :
    Op IoError (σ × List UInt8) Unit := fun t =>
  match m.write sha256 magic with
  | .ok ws => S.perform ws t
  | .error e => (.error (.error e), t)

/-- The bytes the same call produces on an in-memory buffer. -/
def frameBytes (magic : Bytes 4) (m : Message) : List UInt8 :=
  (m.writeTo sha256 .vec magic ((), [])).2.2

/-- **Every bare `write` of the message is taken whole** by the writer, when it is sent from `s`:
the magic, the command and the checksum of the header; the hashes of the payload; the addresses and
the user agent of a version; the strings and the data of a reject. -/
def TakesWhole (S : Sink IoError σ) (magic : Bytes 4) (m : Message) (s : σ) : Prop :=
  ∀ ws, m.write sha256 magic = .ok ws → S.TakesWhole ws (s, [])

variable {sha256}

theorem writeTo_eq_ok {S : Sink IoError σ} {magic : Bytes 4} {m : Message}
    {t t' : σ × List UInt8} (h : m.writeTo sha256 S magic t = (.ok (), t')) :
    ∃ ws, m.write sha256 magic = .ok ws ∧ S.perform ws t = (.ok (), t') := by
  unfold writeTo at h
  split at h
  · next ws hws => exact ⟨ws, hws, h⟩
  · cases h

theorem frameBytes_eq {magic : Bytes 4} {m : Message} {ws : List WriteCall}
    (h : m.write sha256 magic = .ok ws) : m.frameBytes sha256 magic = emitted ws := by
  have hrun : m.writeTo sha256 .vec magic ((), []) = Sink.vec.perform ws ((), []) := by
    rw [writeTo, h]
  rw [frameBytes, hrun, Sink.perform_vec]

/-- **A frame arrives whole exactly when every bare `write` of it is taken whole.** -/
theorem writeTo_exact_iff (S : Sink IoError σ) (magic : Bytes 4) (m : Message) {s s' : σ}
    {accepted : List UInt8} (h : m.writeTo sha256 S magic (s, []) = (.ok (), (s', accepted))) :
    accepted = m.frameBytes sha256 magic ↔ m.TakesWhole sha256 S magic s := by
  obtain ⟨ws, hws, hrun⟩ := writeTo_eq_ok h
  have hiff := Sink.accepted_eq_iff hrun
  rw [List.nil_append] at hiff
  rw [frameBytes_eq hws, hiff, TakesWhole, hws]
  constructor
  · rintro hwhole ws' ⟨⟩
    exact hwhole
  · exact fun hwhole => hwhole ws rfl

/-- A ping to a writer that takes twelve bytes per call: no bare `write` of it is longer. -/
theorem writeTo_exact_iff_ping :
    (ping ⟨7⟩).TakesWhole Bitspend.sha256 (.capped 11) mainMagic () := by
  have hok : ((ping ⟨7⟩).writeTo Bitspend.sha256 (.capped 11) mainMagic ((), [])).1 = .ok () := by
    decide +kernel
  refine (writeTo_exact_iff (.capped 11) mainMagic (ping ⟨7⟩) (Op.eq_of_fst hok)).mp ?_
  decide +kernel

/-- **A `verack` to a writer that takes one byte per call**: it returns `Ok`, and the writer holds
one byte of the magic, one of the command, the size and one byte of the checksum. -/
theorem writeTo_verack :
    (verack.writeTo Bitspend.sha256 (.capped 0) mainMagic ((), [])).1 = .ok ()
      ∧ (verack.writeTo Bitspend.sha256 (.capped 0) mainMagic ((), [])).2.2
        = [0xf9, 0x76, 0, 0, 0, 0, 0x5d]
      ∧ (verack.writeTo Bitspend.sha256 (.capped 0) mainMagic ((), [])).2.2
        ≠ verack.frameBytes Bitspend.sha256 mainMagic := by
  refine ⟨by decide +kernel, by decide +kernel, by decide +kernel⟩

end Bitspend.Wire.Message
