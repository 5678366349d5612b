import Derivations.Text.Utf8

/-!
# Typed Lines

How characters that are typed one after the other become lines. Most of them
are written to the line; some are keys that do something else. A line ends with
either of the two characters that keyboards and files know for it, or with the
end of what is typed. Keys for taking back the last character or the whole line
are obeyed. An interrupt ends everything, and so does a key for the end of the
input where nothing has been written yet.

All other keys do nothing: those which ask for a completion, a redrawn screen or
the rest of the line to be cut off have nothing to work on, and there is no
moving about in a line or back to an earlier one. Keys that send several
characters begin with an escape character and an opening bracket, and are passed
over as a whole; an escape character in front of anything else is passed over
alone.

Lines are written again from their characters, so a malformed byte arrives as
U+FFFD.

## Main definitions

* `Key`: What a typed character does.
* `Key.ofChar`: The key of a character.
* `Key.ofChars`: The keys of characters, escape sequences taken into account.
* `typedLines`: The lines that are typed.
-/

namespace Derivations

/-- What a typed character does. -/
inductive Key where
  /-- Ends the line. -/
  | enter
  /-- Takes back the last character of the line. -/
  | erase
  /-- Takes back the whole line. -/
  | clear
  /-- Does nothing. -/
  | idle
  /-- Ends the input if the line is empty, and does nothing otherwise. -/
  | finish
  /-- Ends the input if the line is empty, and the line otherwise. -/
  | enterOrFinish
  /-- Ends the input. -/
  | interrupt
  /-- Is written to the line. -/
  | write (c : Char)
deriving DecidableEq, Repr

/-- The key of a character. -/
def Key.ofChar (c : Char) : Key :=
  match c.toNat with
  | 0x0A | 0x0D => enter
  | 0x08 | 0x7F => erase
  | 0x15 => clear
  | 0x01 | 0x02 | 0x05 | 0x06 | 0x07 | 0x09 | 0x0B | 0x0C | 0x0E | 0x10 | 0x12 | 0x13 | 0x14
  | 0x17 | 0x19 | 0x1A => idle
  | 0x04 => finish
  | 0x00 => enterOrFinish
  | 0x03 => interrupt
  | _ => write c

/-- Where among the characters of an escape sequence the next one stands. -/
inductive Key.Mode where
  /-- Outside of any. -/
  | outside
  /-- Behind the escape character. -/
  | escaped
  /-- Behind the opening bracket, or among the numbers behind it. -/
  | sequence
deriving DecidableEq, Repr

/-- The character that begins an escape sequence. -/
def Key.escape : Char := '\x1B'

/-- The keys of characters, given where the first of them stands. -/
def Key.ofChars : Key.Mode → List Char → List Key
  | _, [] => []
  | .outside, c :: rest =>
    if c = escape then ofChars .escaped rest else ofChar c :: ofChars .outside rest
  | .escaped, c :: rest =>
    if c = '[' then ofChars .sequence rest
    else if c = escape then ofChars .escaped rest
    else ofChar c :: ofChars .outside rest
  | .sequence, c :: rest =>
    if c = ';' || c.isDigit then ofChars .sequence rest else ofChars .outside rest

/-- The text of a line whose characters are given last one first. -/
def lineText (line : List Char) : Text :=
  line.reverse.flatMap Utf8.encode

/-- The lines that keys make, `line` being the line written so far, its last
    character first. A last line that is empty is none. -/
def linesFrom (line : List Char) : List Key → List Text
  | [] => if line.isEmpty then [] else [lineText line]
  | .enter :: keys => lineText line :: linesFrom [] keys
  | .erase :: keys => linesFrom (line.drop 1) keys
  | .clear :: keys => linesFrom [] keys
  | .idle :: keys => linesFrom line keys
  | .finish :: keys => if line.isEmpty then [] else linesFrom line keys
  | .enterOrFinish :: keys => if line.isEmpty then [] else lineText line :: linesFrom [] keys
  | .interrupt :: _ => []
  | .write c :: keys => linesFrom (c :: line) keys

/-- The lines that are typed. -/
def typedLines (input : Text) : List Text :=
  linesFrom [] (Key.ofChars .outside ((Utf8.glyphs input).map (·.char)))

end Derivations
