import Derivations.Text.Basic

/-!
# MD5

The digest that identifies a set of productions. A message is padded to a
whole number of 64-byte blocks, each block is worked into four 32-bit words
over 64 rounds, and the words are written out with their low bytes first.

## Main definitions

* `Md5.pad`: A message filled up to whole blocks.
* `Md5.State.absorb`: Works one block into the state.
* `Md5.digest`: The sixteen bytes of the digest.
* `Md5.hexDigest`: The digest in hexadecimal notation.
-/

namespace Derivations

namespace Md5

/-- The constant added in each round: the integer part of the sine of the
    round's number, counted from one, scaled by 2^32 and freed of its sign. -/
def constants : List UInt32 := [
  0xD76AA478, 0xE8C7B756, 0x242070DB, 0xC1BDCEEE,
  0xF57C0FAF, 0x4787C62A, 0xA8304613, 0xFD469501,
  0x698098D8, 0x8B44F7AF, 0xFFFF5BB1, 0x895CD7BE,
  0x6B901122, 0xFD987193, 0xA679438E, 0x49B40821,
  0xF61E2562, 0xC040B340, 0x265E5A51, 0xE9B6C7AA,
  0xD62F105D, 0x02441453, 0xD8A1E681, 0xE7D3FBC8,
  0x21E1CDE6, 0xC33707D6, 0xF4D50D87, 0x455A14ED,
  0xA9E3E905, 0xFCEFA3F8, 0x676F02D9, 0x8D2A4C8A,
  0xFFFA3942, 0x8771F681, 0x6D9D6122, 0xFDE5380C,
  0xA4BEEA44, 0x4BDECFA9, 0xF6BB4B60, 0xBEBFBC70,
  0x289B7EC6, 0xEAA127FA, 0xD4EF3085, 0x04881D05,
  0xD9D4D039, 0xE6DB99E5, 0x1FA27CF8, 0xC4AC5665,
  0xF4292244, 0x432AFF97, 0xAB9423A7, 0xFC93A039,
  0x655B59C3, 0x8F0CCC92, 0xFFEFF47D, 0x85845DD1,
  0x6FA87E4F, 0xFE2CE6E0, 0xA3014314, 0x4E0811A1,
  0xF7537E82, 0xBD3AF235, 0x2AD7D2BB, 0xEB86D391]

/-- How far each round rotates, for a group of sixteen rounds repeating four
    times the same four amounts. -/
def rotations (round : Nat) : UInt32 :=
  match round / 16, round % 4 with
  | 0, 0 => 7
  | 0, 1 => 12
  | 0, 2 => 17
  | 0, _ => 22
  | 1, 0 => 5
  | 1, 1 => 9
  | 1, 2 => 14
  | 1, _ => 20
  | 2, 0 => 4
  | 2, 1 => 11
  | 2, 2 => 16
  | 2, _ => 23
  | _, 0 => 6
  | _, 1 => 10
  | _, 2 => 15
  | _, _ => 21

/-- Which word of the block a round uses. -/
def wordIndex (round : Nat) : Nat :=
  match round / 16 with
  | 0 => round
  | 1 => (5 * round + 1) % 16
  | 2 => (3 * round + 5) % 16
  | _ => (7 * round) % 16

/-- The four words that blocks are worked into. -/
structure State where
  a : UInt32
  b : UInt32
  c : UInt32
  d : UInt32
deriving DecidableEq, Repr

/-- The state before the first block. -/
def State.start : State :=
  ⟨0x67452301, 0xEFCDAB89, 0x98BADCFE, 0x10325476⟩

/-- Rotates a word to the left by less than its width. -/
def rotate (x n : UInt32) : UInt32 :=
  (x <<< n) ||| (x >>> (32 - n))

/-- The function of three words that a round mixes in. -/
def mix (round : Nat) (b c d : UInt32) : UInt32 :=
  match round / 16 with
  | 0 => (b &&& c) ||| (~~~b &&& d)
  | 1 => (d &&& b) ||| (~~~d &&& c)
  | 2 => b ^^^ c ^^^ d
  | _ => c ^^^ (b ||| ~~~d)

/-- One round with its constant, on a block of sixteen words. -/
def State.round (block : List UInt32) (s : State) (numbered : UInt32 × Nat) : State :=
  let (constant, round) := numbered
  let sum := s.a + mix round s.b s.c s.d + constant + block.getD (wordIndex round) 0
  ⟨s.d, s.b + rotate sum (rotations round), s.b, s.c⟩

/-- Works one block into the state. -/
def State.absorb (s : State) (block : List UInt32) : State :=
  let t := constants.zipIdx.foldl (State.round block) s
  ⟨s.a + t.a, s.b + t.b, s.c + t.c, s.d + t.d⟩

/-- A number as bytes, low byte first. -/
def littleEndian : Nat → Nat → Text
  | 0, _ => []
  | width + 1, n => UInt8.ofNat n :: littleEndian width (n / 256)

/-- The word whose bytes are given, low byte first. -/
def word (bytes : Text) : UInt32 :=
  bytes.foldr (fun b w => w * 256 + b.toUInt32) 0

/-- A message filled up to whole blocks: a single one bit, zeros, and in the
    last eight bytes the length of the message in bits. -/
def pad (t : Text) : Text :=
  let zeros := (119 - t.length % 64) % 64
  t ++ 0x80 :: (List.replicate zeros 0 ++ littleEndian 8 (8 * t.length))

/-- The first `count` pieces of a list, each of the given size. -/
def pieces (size : Nat) : Nat → List α → List (List α)
  | 0, _ => []
  | count + 1, xs => xs.take size :: pieces size count (xs.drop size)

/-- The sixteen bytes of the digest. -/
def digest (t : Text) : Text :=
  let padded := pad t
  let blocks := pieces 64 (padded.length / 64) padded
  let s := blocks.foldl (fun s block => s.absorb ((pieces 4 16 block).map word)) State.start
  [s.a, s.b, s.c, s.d].flatMap fun w => littleEndian 4 w.toNat

/-- The digest in hexadecimal notation, two digits for each byte. -/
def hexDigest (t : Text) : Text :=
  (digest t).flatMap fun b => Text.hex 2 b.toNat

end Md5

end Derivations
