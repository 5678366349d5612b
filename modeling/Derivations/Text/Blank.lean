import Derivations.Text.Utf8

/-!
# White Space

The characters that separate words, and what is cut along them: a text
stripped of white space at both ends, and the fields between runs of it.

## Main definitions

* `isBlank`: Whether a character is white space.
* `Text.trim`: A text without white space at either end.
* `Text.fields`: The maximal runs of other characters.
-/

namespace Derivations

/-- Whether a character is white space: the control characters from tab to
    carriage return, the next-line control, and every character of a
    space-separator, line-separator or paragraph-separator category. -/
def isBlank (c : Char) : Bool :=
  let n := c.toNat
  (0x09 ≤ n && n ≤ 0x0D) || n == 0x20 || n == 0x85 || n == 0xA0 || n == 0x1680 ||
    (0x2000 ≤ n && n ≤ 0x200A) || n == 0x2028 || n == 0x2029 || n == 0x202F ||
    n == 0x205F || n == 0x3000

namespace Text

/-- The bytes of a run of glyphs. -/
def ofGlyphs (gs : List Glyph) : Text :=
  gs.flatMap (·.bytes)

/-- A text without white space at either end. -/
def trim (t : Text) : Text :=
  let unblanked := (Utf8.glyphs t).dropWhile (isBlank ·.char)
  ofGlyphs (unblanked.reverse.dropWhile (isBlank ·.char)).reverse

/-- Groups glyphs into the runs between white space, `run` being the part of
    the current run read so far, last glyph first. -/
def fieldsFrom (run : List Glyph) : List Glyph → List Text
  | [] => if run.isEmpty then [] else [ofGlyphs run.reverse]
  | g :: rest =>
    if isBlank g.char then
      if run.isEmpty then fieldsFrom [] rest else ofGlyphs run.reverse :: fieldsFrom [] rest
    else
      fieldsFrom (g :: run) rest

/-- The maximal runs of characters that are not white space. -/
def fields (t : Text) : List Text :=
  fieldsFrom [] (Utf8.glyphs t)

end Text

end Derivations
