import Derivations.Text.Cut

/-!
# Characters of a Text

How a sequence of bytes reads as UTF-8. Reading never fails: a byte which
does not begin a well-formed sequence counts as a character of its own, shown
as U+FFFD, and reading goes on behind it. A sequence is well-formed if it has
the continuation bytes its first byte announces, encodes its code point in
the shortest possible way, and encodes neither a surrogate nor a number
beyond the code space.

Every character keeps the bytes it was read from, so a text can be cut at
character boundaries without changing it.

## Main definitions

* `Glyph`: A character together with the bytes it was read from.
* `Utf8.glyphs`: The characters of a text.
* `Utf8.count`: The number of characters of a text.
* `Utf8.encode`: The bytes of a character.
-/

namespace Derivations

/-- A character together with the bytes it was read from. A malformed byte is
    read as U+FFFD and is the only kind of glyph whose bytes are not the
    encoding of its character. -/
structure Glyph where
  char : Char
  bytes : Text
deriving DecidableEq, Repr

namespace Utf8

/-- The bytes of a character. -/
def encode (c : Char) : Text :=
  String.utf8EncodeChar c

/-- The character that stands for a malformed byte. -/
def replacement : Char := '\uFFFD'

/-- The six low bits of a continuation byte, if it is one. -/
def continuation? (b : UInt8) : Option Nat :=
  if b &&& 0xC0 = 0x80 then some (b &&& 0x3F).toNat else none

/-- The character with the given code point, provided that the code point is
    at least `least`: longer sequences are reserved for larger numbers. -/
def scalar? (least code : Nat) : Option Char :=
  if h : code.isValidChar then
    if least ≤ code then some (Char.ofNatAux code h) else none
  else
    none

/-- The character at the front of the text `first :: rest` and the number of
    continuation bytes it takes from `rest`, or nothing if the sequence is
    malformed. -/
def front? (first : UInt8) (rest : Text) : Option (Char × Nat) :=
  if first < 0x80 then
    (scalar? 0 first.toNat).map (·, 0)
  else if first &&& 0xE0 = 0xC0 then
    match rest with
    | b :: _ => do
      let b ← continuation? b
      let c ← scalar? 0x80 ((first &&& 0x1F).toNat * 64 + b)
      return (c, 1)
    | _ => none
  else if first &&& 0xF0 = 0xE0 then
    match rest with
    | b :: b' :: _ => do
      let b ← continuation? b
      let b' ← continuation? b'
      let c ← scalar? 0x800 (((first &&& 0x0F).toNat * 64 + b) * 64 + b')
      return (c, 2)
    | _ => none
  else if first &&& 0xF8 = 0xF0 then
    match rest with
    | b :: b' :: b'' :: _ => do
      let b ← continuation? b
      let b' ← continuation? b'
      let b'' ← continuation? b''
      let c ← scalar? 0x10000 ((((first &&& 0x07).toNat * 64 + b) * 64 + b') * 64 + b'')
      return (c, 3)
    | _ => none
  else
    none

/-- The character at the front of the text `first :: rest`, or the replacement
    for its first byte. -/
def front (first : UInt8) (rest : Text) : Char × Nat :=
  (front? first rest).getD (replacement, 0)

/-- The characters of a text. -/
def glyphs (t : Text) : List Glyph :=
  (t.cut front).map fun (c, bytes) => ⟨c, bytes⟩

/-- The number of characters of a text, malformed bytes counting one each. -/
def count (t : Text) : Nat :=
  (glyphs t).length

end Utf8

end Derivations
