import Derivations.Text.Basic

/-!
# Spans

A stretch of the input, given by the position where it starts and the
position just behind its end. Positions are 64-bit words and all arithmetic
wraps, so a span whose end lies before its start still has a length.

## Main definitions

* `Span`: A stretch of input positions.
* `Span.length`: The number of positions, modulo 2^64.
* `Span.extend`: The smallest span that covers two spans.
* `Span.text`: The written form.
-/

namespace Derivations

/-- A stretch of input positions: `start` is the first, `stop` the one just
    behind the last. -/
structure Span where
  start : UInt64
  stop : UInt64
deriving DecidableEq, Repr

namespace Span

/-- The number of positions, modulo 2^64. -/
def length (s : Span) : UInt64 :=
  s.stop - s.start

/-- Whether the span covers no position at all. -/
def isNull (s : Span) : Bool :=
  s.start == s.stop

/-- The smallest span that covers both. -/
def extend (s other : Span) : Span :=
  { start := if other.start < s.start then other.start else s.start
    stop := if s.stop < other.stop then other.stop else s.stop }

/-- The written form, such as `(0…4)`. -/
def text (s : Span) : Text :=
  "(" ++ Text.decimal s.start.toNat ++ "…" ++ Text.decimal s.stop.toNat ++ ")"

end Span

end Derivations
