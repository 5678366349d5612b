import Derivations.Text.Basic

/-!
# Numerals

How numbers are read from command lines, settings and sessions. A numeral is
an optional sign followed by digits. In the plain form the digits are decimal;
in the tagged form a prefix chooses the base (`0b`, `0o`, `0x`, or a bare `0`
for octal) and single underscores may separate digits.

Numbers have to fit into 64 bits including their sign. Digits are read from
left to right and reading stops at the first digit that makes the magnitude
exceed 64 bits, so what follows that digit is not looked at; a numeral whose
digits all fit but whose value does not is out of range as well. A value out
of range is clamped to the nearest bound.

## Main definitions

* `Numeral.Reading`: What reading a numeral results in.
* `Numeral.plain`: Reads a decimal numeral.
* `Numeral.tagged`: Reads a numeral whose prefix tells its base.
-/

namespace Derivations

namespace Numeral

/-- What reading a numeral results in. -/
inductive Reading where
  /-- The number read. -/
  | value (n : Int)
  /-- The text is no numeral. -/
  | malformed
  /-- The number does not fit; `nearest` is the bound it exceeds. -/
  | outOfRange (nearest : Int)
deriving DecidableEq, Repr

/-- The number read, the exceeded bound, or zero for a malformed numeral. -/
def Reading.clamped : Reading → Int
  | .value n => n
  | .malformed => 0
  | .outOfRange nearest => nearest

/-- What reading the digits of a numeral results in. -/
inductive Magnitude where
  | fits (n : Nat)
  | malformed
  | tooLarge
deriving DecidableEq, Repr

/-- The value of a digit or letter, letters counting from ten on. -/
def digit? (b : UInt8) : Option Nat :=
  if '0'.toUInt8 ≤ b && b ≤ '9'.toUInt8 then some (b - '0'.toUInt8).toNat
  else if 'a'.toUInt8 ≤ b && b ≤ 'z'.toUInt8 then some ((b - 'a'.toUInt8).toNat + 10)
  else if 'A'.toUInt8 ≤ b && b ≤ 'Z'.toUInt8 then some ((b - 'A'.toUInt8).toNat + 10)
  else none

/-- Reads digits of the given base behind a number read so far. Underscores
    are passed over if they are allowed at all; where they may stand is a
    separate question (`underscoresFit`). -/
def magnitude (base : Nat) (underscores : Bool) (sofar : Nat) : Text → Magnitude
  | [] => .fits sofar
  | b :: rest =>
    if underscores && b = '_'.toUInt8 then magnitude base underscores sofar rest
    else
      match digit? b with
      | none => .malformed
      | some d =>
        if base ≤ d then .malformed
        else if 2 ^ 64 ≤ sofar * base + d then .tooLarge
        else magnitude base underscores (sofar * base + d) rest

/-- The least magnitude that does not fit beside a plus sign. -/
def signedBound : Nat := 0x8000000000000000

/-- The number with the given sign and magnitude. -/
def signed (negative : Bool) : Magnitude → Reading
  | .malformed => .malformed
  | .tooLarge => .outOfRange (if negative then -signedBound else signedBound - 1)
  | .fits n =>
    if negative then
      if n ≤ signedBound then .value (-n) else .outOfRange (-signedBound)
    else
      if n < signedBound then .value n else .outOfRange (signedBound - 1)

/-- Takes a sign off a numeral and tells whether it was a minus. -/
def takeSign : Text → Bool × Text
  | [] => (false, [])
  | b :: rest =>
    if b = '-'.toUInt8 then (true, rest)
    else if b = '+'.toUInt8 then (false, rest)
    else (false, b :: rest)

/-- Reads a decimal numeral. -/
def plain (t : Text) : Reading :=
  let (negative, digits) := takeSign t
  if digits.isEmpty then .malformed else signed negative (magnitude 10 false 0 digits)

/-- The base named by the letter behind a leading zero. -/
def taggedBase? (b : UInt8) : Option Nat :=
  if b = 'b'.toUInt8 || b = 'B'.toUInt8 then some 2
  else if b = 'o'.toUInt8 || b = 'O'.toUInt8 then some 8
  else if b = 'x'.toUInt8 || b = 'X'.toUInt8 then some 16
  else none

/-- The base of an unsigned numeral and the digits behind its prefix. A prefix
    letter counts only if something follows it; a leading zero without one
    means octal. -/
def takeBase (t : Text) : Nat × Text :=
  match t with
  | [] => (10, [])
  | b :: rest =>
    if b = '0'.toUInt8 then
      match rest with
      | l :: d :: more =>
        match taggedBase? l with
        | some base => (base, d :: more)
        | none => (8, rest)
      | _ => (8, rest)
    else
      (10, t)

/-- Whether every underscore stands behind a digit and in front of one,
    `digit` telling whether a digit has just been passed. -/
def underscoresFit (digit : Bool) : Text → Bool
  | [] => true
  | b :: rest =>
    if b = '_'.toUInt8 then
      match rest with
      | next :: _ => digit && next ≠ '_'.toUInt8 && underscoresFit false rest
      | [] => false
    else
      underscoresFit true rest

/-- Reads a numeral whose prefix tells its base. -/
def tagged (t : Text) : Reading :=
  let (negative, unsigned) := takeSign t
  if unsigned.isEmpty then .malformed
  else
    let (base, digits) := takeBase unsigned
    match magnitude base true 0 digits with
    -- The prefix, or the zero that means octal, counts as a digit.
    | .fits n => if underscoresFit (base ≠ 10) digits then signed negative (.fits n) else .malformed
    | other => signed negative other

end Numeral

end Derivations
