import Derivations.Text.Utf8
import Derivations.Text.Printable

/-!
# Quoted Text

Texts in messages stand between double quotes, so that blanks at their ends
and characters without a shape of their own can be seen. A quote and a
backslash are preceded by a backslash; the seven control characters with a
letter of their own are written with it; other characters that cannot be
printed are written by their number; all else is left as it is. Malformed
bytes are written by their value, so the quoted form is always well-formed.

## Main definitions

* `Quoted.text`: A text between double quotes.
* `Quoted.char`: A character between single quotes.
-/

namespace Derivations

namespace Quoted

/-- The letter that names a control character behind a backslash. -/
def letter? (c : Char) : Option Text :=
  match c.toNat with
  | 0x07 => some "a"
  | 0x08 => some "b"
  | 0x0C => some "f"
  | 0x0A => some "n"
  | 0x0D => some "r"
  | 0x09 => some "t"
  | 0x0B => some "v"
  | _ => none

/-- A character that cannot be printed, written by its number. -/
def numbered (c : Char) : Text :=
  let n := c.toNat
  if n < 0x80 then "\\x" ++ Text.hex 2 n
  else if n < 0x10000 then "\\u" ++ Text.hex 4 n
  else "\\U" ++ Text.hex 8 n

/-- A character within quotes of the given kind. -/
def escaped (quote c : Char) : Text :=
  if c = quote || c = '\\' then "\\" ++ Utf8.encode c
  else if isPrintable c then Utf8.encode c
  else
    match letter? c with
    | some l => "\\" ++ l
    | none => numbered c

/-- A glyph within double quotes. A malformed byte is told from a genuine
    U+FFFD by its being a single byte. -/
def glyph (g : Glyph) : Text :=
  match g.bytes with
  | [b] => if b < 0x80 then escaped '"' g.char else "\\x" ++ Text.hex 2 b.toNat
  | _ => escaped '"' g.char

/-- A text between double quotes. -/
def text (t : Text) : Text :=
  "\"" ++ (Utf8.glyphs t).flatMap glyph ++ "\""

/-- A character between single quotes. -/
def char (c : Char) : Text :=
  "'" ++ escaped '\'' c ++ "'"

end Quoted

end Derivations
