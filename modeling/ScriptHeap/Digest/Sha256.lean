/-!
# SHA-256

* `Sha256.pad`         a message filled up to whole blocks of 64 bytes, its length in bits last;
* `Sha256.State`       the eight words of the hash, `Sha256.State.round` one round on them;
* `Sha256.compress`    the state after one block of sixteen words;
* `Sha256.digest`      the 32 bytes of the hash of a message.
-/

namespace ScriptHeap

namespace Sha256

/-! ## words and bytes -/

/-- the big-endian bytes of a word -/
def wordBytes (w : UInt32) : List UInt8 :=
  [(w >>> 24).toUInt8, (w >>> 16).toUInt8, (w >>> 8).toUInt8, w.toUInt8]

/-- the words of bytes, four at a time -/
def words : List UInt8 → List UInt32
  | a :: b :: c :: d :: rest =>
    (a.toUInt32 <<< 24 ||| b.toUInt32 <<< 16 ||| c.toUInt32 <<< 8 ||| d.toUInt32) :: words rest
  | _ => []

/-- the message, a one bit, zeros, and the length in bits as eight bytes -/
def pad (message : List UInt8) : List UInt8 :=
  let bits := UInt64.ofNat (8 * message.length)
  message ++ [(0x80 : UInt8)] ++ List.replicate ((119 - message.length % 64) % 64) (0 : UInt8) ++
    wordBytes (bits >>> 32).toUInt32 ++ wordBytes bits.toUInt32

/-! ## rounds -/

def rotateRight (w : UInt32) (n : UInt32) : UInt32 := w >>> n ||| w <<< (32 - n)

/-- the first 32 bits of the fractional parts of the cube roots of the first 64 primes -/
def roundConstants : List UInt32 := [
  0x428a2f98, 0x71374491, 0xb5c0fbcf, 0xe9b5dba5, 0x3956c25b, 0x59f111f1, 0x923f82a4, 0xab1c5ed5,
  0xd807aa98, 0x12835b01, 0x243185be, 0x550c7dc3, 0x72be5d74, 0x80deb1fe, 0x9bdc06a7, 0xc19bf174,
  0xe49b69c1, 0xefbe4786, 0x0fc19dc6, 0x240ca1cc, 0x2de92c6f, 0x4a7484aa, 0x5cb0a9dc, 0x76f988da,
  0x983e5152, 0xa831c66d, 0xb00327c8, 0xbf597fc7, 0xc6e00bf3, 0xd5a79147, 0x06ca6351, 0x14292967,
  0x27b70a85, 0x2e1b2138, 0x4d2c6dfc, 0x53380d13, 0x650a7354, 0x766a0abb, 0x81c2c92e, 0x92722c85,
  0xa2bfe8a1, 0xa81a664b, 0xc24b8b70, 0xc76c51a3, 0xd192e819, 0xd6990624, 0xf40e3585, 0x106aa070,
  0x19a4c116, 0x1e376c08, 0x2748774c, 0x34b0bcb5, 0x391c0cb3, 0x4ed8aa4a, 0x5b9cca4f, 0x682e6ff3,
  0x748f82ee, 0x78a5636f, 0x84c87814, 0x8cc70208, 0x90befffa, 0xa4506ceb, 0xbef9a3f7, 0xc67178f2]

/-- the eight words of the hash -/
structure State where
  a : UInt32
  b : UInt32
  c : UInt32
  d : UInt32
  e : UInt32
  f : UInt32
  g : UInt32
  h : UInt32

namespace State

/-- the first 32 bits of the fractional parts of the square roots of the first eight primes -/
def initial : State :=
  ⟨0x6a09e667, 0xbb67ae85, 0x3c6ef372, 0xa54ff53a, 0x510e527f, 0x9b05688c, 0x1f83d9ab, 0x5be0cd19⟩

/-- one round with a word of the schedule and the constant of the round -/
def round (s : State) (word constant : UInt32) : State :=
  let s₁ := rotateRight s.e 6 ^^^ rotateRight s.e 11 ^^^ rotateRight s.e 25
  let choice := (s.e &&& s.f) ^^^ (~~~s.e &&& s.g)
  let t₁ := s.h + s₁ + choice + constant + word
  let s₀ := rotateRight s.a 2 ^^^ rotateRight s.a 13 ^^^ rotateRight s.a 22
  let majority := (s.a &&& s.b) ^^^ (s.a &&& s.c) ^^^ (s.b &&& s.c)
  ⟨t₁ + (s₀ + majority), s.a, s.b, s.c, s.d + t₁, s.e, s.f, s.g⟩

def add (s t : State) : State :=
  ⟨s.a + t.a, s.b + t.b, s.c + t.c, s.d + t.d, s.e + t.e, s.f + t.f, s.g + t.g, s.h + t.h⟩

def toList (s : State) : List UInt32 := [s.a, s.b, s.c, s.d, s.e, s.f, s.g, s.h]

end State

/-- the word of the schedule after a window of sixteen -/
def nextWord (window : List UInt32) : UInt32 :=
  let w₁ := window.getD 1 0
  let w₁₄ := window.getD 14 0
  let s₀ := rotateRight w₁ 7 ^^^ rotateRight w₁ 18 ^^^ w₁ >>> 3
  let s₁ := rotateRight w₁₄ 17 ^^^ rotateRight w₁₄ 19 ^^^ w₁₄ >>> 10
  window.getD 0 0 + s₀ + window.getD 9 0 + s₁

/-- one round, with the schedule as a window of sixteen words that moves on by one -/
def windowRound (acc : State × List UInt32) (constant : UInt32) : State × List UInt32 :=
  (acc.1.round (acc.2.headD 0) constant, acc.2.tail ++ [nextWord acc.2])

def compress (s : State) (block : List UInt32) : State :=
  s.add (roundConstants.foldl windowRound (s, block)).1

/-- `compress` over so many blocks of sixteen words -/
def compressBlocks : Nat → State → List UInt32 → State
  | 0, s, _ => s
  | n + 1, s, message => compressBlocks n (compress s (message.take 16)) (message.drop 16)

def digest (message : List UInt8) : List UInt8 :=
  let message := words (pad message)
  (compressBlocks (message.length / 16) State.initial message).toList.flatMap wordBytes

theorem length_digest (message : List UInt8) : (digest message).length = 32 := rfl

end Sha256

end ScriptHeap
