import Derivations.Text.Basic

/-!
# FNV-1a

The hash of a text: a 64-bit word, started at a fixed offset and, for every
byte, combined with it by exclusive or and multiplied by a fixed prime. It
tells texts apart quickly but not reliably, so whoever compares by hash has to
compare by content as well.

## Main definitions

* `Fnv.step`: Takes one byte into the hash.
* `Fnv.hash`: The hash of a text.
-/

namespace Derivations

namespace Fnv

/-- The hash of the empty text. -/
def offset : UInt64 := 14695981039346656037

/-- The factor every step multiplies with. -/
def prime : UInt64 := 1099511628211

/-- Takes one byte into the hash. -/
def step (h : UInt64) (b : UInt8) : UInt64 :=
  (h ^^^ b.toUInt64) * prime

/-- The hash of a text. -/
def hash (t : Text) : UInt64 :=
  t.foldl step offset

end Fnv

end Derivations
