import Bitspend.Machinery.Bytes

/-!
# Machinery/Sha256 — the hash function itself

Everywhere else SHA-256 is a parameter, of which at most some instances of collision-freeness are
used.  Concrete frames, headers and transactions need a concrete function: this is FIPS 180-4, in a
form that evaluates.
-/

namespace Bitspend

namespace Sha256

/-- The chaining state: eight words. -/
structure State where
  a : UInt32
  b : UInt32
  c : UInt32
  d : UInt32
  e : UInt32
  f : UInt32
  g : UInt32
  h : UInt32

/-- The round constants. -/
def roundConstants : List UInt32 :=
  [0x428a2f98, 0x71374491, 0xb5c0fbcf, 0xe9b5dba5, 0x3956c25b, 0x59f111f1, 0x923f82a4, 0xab1c5ed5,
    0xd807aa98, 0x12835b01, 0x243185be, 0x550c7dc3, 0x72be5d74, 0x80deb1fe, 0x9bdc06a7, 0xc19bf174,
    0xe49b69c1, 0xefbe4786, 0x0fc19dc6, 0x240ca1cc, 0x2de92c6f, 0x4a7484aa, 0x5cb0a9dc, 0x76f988da,
    0x983e5152, 0xa831c66d, 0xb00327c8, 0xbf597fc7, 0xc6e00bf3, 0xd5a79147, 0x06ca6351, 0x14292967,
    0x27b70a85, 0x2e1b2138, 0x4d2c6dfc, 0x53380d13, 0x650a7354, 0x766a0abb, 0x81c2c92e, 0x92722c85,
    0xa2bfe8a1, 0xa81a664b, 0xc24b8b70, 0xc76c51a3, 0xd192e819, 0xd6990624, 0xf40e3585, 0x106aa070,
    0x19a4c116, 0x1e376c08, 0x2748774c, 0x34b0bcb5, 0x391c0cb3, 0x4ed8aa4a, 0x5b9cca4f, 0x682e6ff3,
    0x748f82ee, 0x78a5636f, 0x84c87814, 0x8cc70208, 0x90befffa, 0xa4506ceb, 0xbef9a3f7, 0xc67178f2]

/-- The state before the first block. -/
def initial : State :=
  ⟨0x6a09e667, 0xbb67ae85, 0x3c6ef372, 0xa54ff53a, 0x510e527f, 0x9b05688c, 0x1f83d9ab, 0x5be0cd19⟩

def rotr (x n : UInt32) : UInt32 := (x >>> n) ||| (x <<< (32 - n))

/-- The message schedule: `window` holds the next sixteen words. -/
def schedule : ℕ → List UInt32 → List UInt32
  | n + 1, w :: window =>
    let w₁ := window.getD 0 0
    let w₉ := window.getD 8 0
    let w₁₄ := window.getD 13 0
    let s₀ := rotr w₁ 7 ^^^ rotr w₁ 18 ^^^ (w₁ >>> 3)
    let s₁ := rotr w₁₄ 17 ^^^ rotr w₁₄ 19 ^^^ (w₁₄ >>> 10)
    w :: schedule n (window ++ [w + s₀ + w₉ + s₁])
  | _, _ => []

/-- One round, with its constant and its word of the schedule. -/
def round (s : State) (x : UInt32 × UInt32) : State :=
  let s₁ := rotr s.e 6 ^^^ rotr s.e 11 ^^^ rotr s.e 25
  let ch := (s.e &&& s.f) ^^^ (~~~s.e &&& s.g)
  let t₁ := s.h + s₁ + ch + x.1 + x.2
  let s₀ := rotr s.a 2 ^^^ rotr s.a 13 ^^^ rotr s.a 22
  let maj := (s.a &&& s.b) ^^^ (s.a &&& s.c) ^^^ (s.b &&& s.c)
  ⟨t₁ + s₀ + maj, s.a, s.b, s.c, s.d + t₁, s.e, s.f, s.g⟩

/-- The compression function, on the sixteen words of a block. -/
def compress (s : State) (block : List UInt32) : State :=
  let t := (roundConstants.zip (schedule 64 block)).foldl round s
  ⟨s.a + t.a, s.b + t.b, s.c + t.c, s.d + t.d, s.e + t.e, s.f + t.f, s.g + t.g, s.h + t.h⟩

/-- Padding: a one bit, zeros up to the last eight bytes of a block, and the length in bits. -/
def pad (message : List UInt8) : List UInt8 :=
  message ++ 0x80 :: List.replicate ((119 - message.length % 64) % 64) 0
    ++ (toLE 8 (8 * message.length)).reverse

/-- Big-endian words. -/
def words : List UInt8 → List UInt32
  | b₀ :: b₁ :: b₂ :: b₃ :: rest => UInt32.ofNat (ofLE [b₃, b₂, b₁, b₀]) :: words rest
  | _ => []

/-- The blocks of a padded message, compressed in turn. -/
def compressAll : ℕ → State → List UInt32 → State
  | 0, s, _ => s
  | n + 1, s, ws => compressAll n (compress s (ws.take 16)) (ws.drop 16)

/-- A word's bytes, most significant first. -/
def bytes (w : UInt32) : List UInt8 := (u32LE w).reverse

end Sha256

open Sha256 in
/-- **SHA-256.** -/
def sha256 (message : List UInt8) : Bytes 32 :=
  let s := compressAll ((pad message).length / 64) initial (words (pad message))
  ⟨bytes s.a ++ bytes s.b ++ bytes s.c ++ bytes s.d ++ bytes s.e ++ bytes s.f ++ bytes s.g
    ++ bytes s.h, by simp [bytes]⟩

example : (sha256 [0x61, 0x62, 0x63]).toList =
    [0xba, 0x78, 0x16, 0xbf, 0x8f, 0x01, 0xcf, 0xea, 0x41, 0x41, 0x40, 0xde, 0x5d, 0xae, 0x22, 0x23,
      0xb0, 0x03, 0x61, 0xa3, 0x96, 0x17, 0x7a, 0x9c, 0xb4, 0x10, 0xff, 0x61, 0xf2, 0x00, 0x15,
      0xad] := by
  decide +kernel

end Bitspend
