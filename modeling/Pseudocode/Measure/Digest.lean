import Pseudocode.Text.Quoted

/-!
# SHA-256

The digest of a run of bytes: the bytes are padded to whole blocks of sixteen words, and each block is
stirred into a state of eight words in sixty-four rounds.
-/

namespace Pseudocode.Measure

/-- The state of the digest. -/
structure Digest where
  a : UInt32
  b : UInt32
  c : UInt32
  d : UInt32
  e : UInt32
  f : UInt32
  g : UInt32
  h : UInt32
deriving DecidableEq

namespace Digest

/-- The state before the first block. -/
def start : Digest :=
  ⟨0x6a09e667, 0xbb67ae85, 0x3c6ef372, 0xa54ff53a, 0x510e527f, 0x9b05688c, 0x1f83d9ab, 0x5be0cd19⟩

/-- One constant for each round. -/
def roundConstants : List UInt32 :=
  [0x428a2f98, 0x71374491, 0xb5c0fbcf, 0xe9b5dba5, 0x3956c25b, 0x59f111f1, 0x923f82a4, 0xab1c5ed5,
   0xd807aa98, 0x12835b01, 0x243185be, 0x550c7dc3, 0x72be5d74, 0x80deb1fe, 0x9bdc06a7, 0xc19bf174,
   0xe49b69c1, 0xefbe4786, 0x0fc19dc6, 0x240ca1cc, 0x2de92c6f, 0x4a7484aa, 0x5cb0a9dc, 0x76f988da,
   0x983e5152, 0xa831c66d, 0xb00327c8, 0xbf597fc7, 0xc6e00bf3, 0xd5a79147, 0x06ca6351, 0x14292967,
   0x27b70a85, 0x2e1b2138, 0x4d2c6dfc, 0x53380d13, 0x650a7354, 0x766a0abb, 0x81c2c92e, 0x92722c85,
   0xa2bfe8a1, 0xa81a664b, 0xc24b8b70, 0xc76c51a3, 0xd192e819, 0xd6990624, 0xf40e3585, 0x106aa070,
   0x19a4c116, 0x1e376c08, 0x2748774c, 0x34b0bcb5, 0x391c0cb3, 0x4ed8aa4a, 0x5b9cca4f, 0x682e6ff3,
   0x748f82ee, 0x78a5636f, 0x84c87814, 0x8cc70208, 0x90befffa, 0xa4506ceb, 0xbef9a3f7, 0xc67178f2]

/-- A word turned right by some bits. -/
def turn (w : UInt32) (n : UInt32) : UInt32 :=
  (w >>> n) ||| (w <<< (32 - n))

/-- The word that follows sixteen words of a block's schedule. -/
def nextWord (window : List UInt32) : UInt32 :=
  let near := window.getD 1 0
  let far := window.getD 14 0
  window.getD 0 0 + (turn near 7 ^^^ turn near 18 ^^^ (near >>> 3)) + window.getD 9 0 +
    (turn far 17 ^^^ turn far 19 ^^^ (far >>> 10))

/-- The state after a round with a constant and a word of the schedule. -/
def round (s : Digest) (k w : UInt32) : Digest :=
  let choice := (s.e &&& s.f) ^^^ (~~~s.e &&& s.g)
  let majority := (s.a &&& s.b) ^^^ (s.a &&& s.c) ^^^ (s.b &&& s.c)
  let first := s.h + (turn s.e 6 ^^^ turn s.e 11 ^^^ turn s.e 25) + choice + k + w
  let second := (turn s.a 2 ^^^ turn s.a 13 ^^^ turn s.a 22) + majority
  ⟨first + second, s.a, s.b, s.c, s.d + first, s.e, s.f, s.g⟩

/-- The state after some rounds, on a window of sixteen words of the schedule. -/
def rounds (s : Digest) (window : List UInt32) : List UInt32 → Digest
  | [] => s
  | k :: rest => (s.round k (window.headD 0)).rounds (window.tail ++ [nextWord window]) rest

/-- The state after a block. -/
def block (s : Digest) (words : List UInt32) : Digest :=
  let t := s.rounds words roundConstants
  ⟨s.a + t.a, s.b + t.b, s.c + t.c, s.d + t.d, s.e + t.e, s.f + t.f, s.g + t.g, s.h + t.h⟩

/-- The state after all blocks of a run of words. -/
def blocks (s : Digest) (words : List UInt32) : Digest :=
  if words.length < 16 then s else (s.block (words.take 16)).blocks (words.drop 16)
termination_by words.length
decreasing_by
  rw [List.length_drop]
  omega

/-- The words of a run of bytes, the high byte first. -/
def words : List UInt8 → List UInt32
  | a :: b :: c :: d :: rest =>
    ((a.toUInt32 <<< 24) ||| (b.toUInt32 <<< 16) ||| (c.toUInt32 <<< 8) ||| d.toUInt32) :: words rest
  | _ => []

/-- The bytes of a number below two to the sixty-fourth, the high byte first. -/
def lengthBytes (n : Nat) : List UInt8 :=
  [56, 48, 40, 32, 24, 16, 8, 0].map fun shift => UInt8.ofNat (n >>> shift)

/-- The bytes with a one, zeros and their length in bits behind, to fill whole blocks. -/
def pad (bytes : List UInt8) : List UInt8 :=
  bytes ++ 0x80 :: List.replicate ((119 - bytes.length % 64) % 64) 0 ++ lengthBytes (8 * bytes.length)

/-- The digest of some bytes. -/
def ofBytes (bytes : List UInt8) : Digest :=
  start.blocks (words (pad bytes))

/-- A digest in hexadecimal digits. -/
def text (s : Digest) : String :=
  String.join ([s.a, s.b, s.c, s.d, s.e, s.f, s.g, s.h].map fun w => Text.hex 8 w.toNat)

/-- Padding fills whole blocks. -/
theorem length_pad (bytes : List UInt8) : (pad bytes).length % 64 = 0 := by
  simp only [pad, lengthBytes, List.length_append, List.length_cons, List.length_replicate,
    List.length_map, List.length_nil]
  omega

end Digest

end Pseudocode.Measure
