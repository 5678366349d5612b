import Derivations.Text.Cut

/-!
# Console Styles

Text on a console may be coloured. Where it is, a style puts a control sequence
in front of the text and a reset behind it, and resets within the text fall
back to the style itself.

Where it is not, nothing in the text may take effect as a colour either.
Control sequences are taken out, and so are colour tags; these are looked for
only if the text closes one. Taking out a tag can make another one of what stood
around it, which only the next pass takes out, so it matters how many passes a
text goes through: a styled text goes through one, a line of plain text through
five, and a message through one before it is styled and those of a line
afterwards.

## Main definitions

* `Display`: Whether colours are on.
* `Display.style`: A text in a style.
* `Display.info`, `Display.error`: A message line.
* `Display.line`: A line of plain text.
-/

namespace Derivations

namespace Style

/-- The control character that begins a control sequence. -/
def escape : UInt8 := 0x1B

/-- The control sequence that switches to a style. -/
def switch (code : Text) : Text :=
  escape :: ("[" ++ code ++ "m")

/-- The control sequence that ends all styles. -/
def reset : Text := switch "0"

/-- Whether a byte is a letter or one of the marks that colour tags consist
    of. -/
def isTagByte (b : UInt8) : Bool :=
  ('a'.toUInt8 ≤ b && b ≤ 'z'.toUInt8) || ('A'.toUInt8 ≤ b && b ≤ 'Z'.toUInt8) ||
    b = '_'.toUInt8 || b = '='.toUInt8 || b = ','.toUInt8 || b = ';'.toUInt8

/-- Whether a byte can be part of the numbers in a control sequence. -/
def isCodeByte (b : UInt8) : Bool :=
  ('0'.toUInt8 ≤ b && b ≤ '9'.toUInt8) || b = ';'.toUInt8 || b = '?'.toUInt8

/-- How many bytes behind an opening angle bracket complete a colour tag. -/
def tagLength? (rest : Text) : Option Nat :=
  let slashes := if rest.head? == some '/'.toUInt8 then 1 else 0
  let letters := ((rest.drop slashes).takeWhile isTagByte).length
  if rest[slashes + letters]? == some '>'.toUInt8 then some (slashes + letters + 1) else none

/-- How many bytes behind the control character complete a control sequence
    that sets a style. -/
def codeLength? (rest : Text) : Option Nat :=
  let digits := ((rest.drop 1).takeWhile isCodeByte).length
  if rest.head? == some '['.toUInt8 && 0 < digits && rest[digits + 1]? == some 'm'.toUInt8 then
    some (digits + 2)
  else
    none

/-- Whether a piece of text stays. -/
inductive Piece where
  | kept
  | removed
deriving DecidableEq, Repr

/-- A text without the pieces that begin with a given byte and are completed
    by what `length?` finds behind it. -/
def removePieces (begins : UInt8) (length? : Text → Option Nat) (t : Text) : Text :=
  let measure (first : UInt8) (rest : Text) : Piece × Nat :=
    if first = begins then
      match length? rest with
      | some n => (.removed, n)
      | none => (.kept, 0)
    else
      (.kept, 0)
  ((t.cut measure).filter (·.1 = .kept)).flatMap (·.2)

/-- Whether a text closes a colour tag. -/
def closesTag (t : Text) : Bool :=
  Text.occursIn "</>" t

/-- A text without colour tags, provided that it closes one. -/
def withoutTags (t : Text) : Text :=
  if closesTag t then removePieces '<'.toUInt8 tagLength? t else t

/-- A text without control sequences that set a style. -/
def withoutCodes (t : Text) : Text :=
  removePieces escape codeLength? t

/-- Takes colour tags out in a number of passes. -/
def withoutTagsTimes : Nat → Text → Text
  | 0, t => t
  | passes + 1, t => withoutTagsTimes passes (withoutTags t)

/-- How many passes a message goes through before it is styled. -/
def messagePasses : Nat := 1

/-- How many passes a line goes through. -/
def linePasses : Nat := 5

/-- A text in which every reset is replaced by a switch to a style. -/
def fallBack (code : Text) (t : Text) : Text :=
  let measure (first : UInt8) (rest : Text) : Piece × Nat :=
    if reset.isPrefixOf (first :: rest) then (.removed, reset.length - 1) else (.kept, 0)
  (t.cut measure).flatMap fun
    | (.kept, bytes) => bytes
    | (.removed, _) => switch code

end Style

/-- Whether colours are on. -/
inductive Display where
  | plain
  | coloured
deriving DecidableEq, Repr

namespace Display

open Style

/-- A text in a style. -/
def style (d : Display) (code t : Text) : Text :=
  match d with
  | plain => withoutCodes (withoutTags t)
  | coloured => switch code ++ fallBack code t ++ reset

/-- A message behind a label, each in a style of its own. -/
def message (d : Display) (labelCode label messageCode t : Text) : Text :=
  match d with
  | plain =>
    let styled := d.style messageCode (withoutTagsTimes messagePasses t)
    " " ++ label ++ "  " ++ withoutTagsTimes linePasses styled ++ "\n"
  | coloured => d.style labelCode (" " ++ label ++ " ") ++ " " ++ d.style messageCode t ++ "\n"

/-- A message that something has happened. -/
def info (d : Display) (t : Text) : Text :=
  d.message "46;30" "  >>" "96" t

/-- A message that something is wrong. -/
def error (d : Display) (t : Text) : Text :=
  d.message "41;30" "  Error" "91" t

/-- A line of text without a style. -/
def line (d : Display) (t : Text) : Text :=
  match d with
  | plain => withoutTagsTimes linePasses t ++ "\n"
  | coloured => t ++ "\n"

end Display

end Derivations
