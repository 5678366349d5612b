import Derivations.Text.Blank

/-!
# Symbols

Grammars and their input are made of symbols. A symbol is any text; whether it
is a terminal or a non-terminal is a matter of the grammar it is used with.
Words and the right-hand sides in a grammar file are written without
separators, one character for each symbol. White space between symbols means
nothing, and neither does `ε`, which makes the empty word visible.

## Main definitions

* `Symbol`: A terminal or non-terminal.
* `symbols`: The symbols of a word.
* `sentence`: Symbols written one behind the other.
-/

namespace Derivations

/-- A terminal or non-terminal of some grammar. -/
abbrev Symbol := Text

/-- The character that makes the empty word visible. -/
def epsilon : Char := 'ε'

/-- The symbols of a word, one for each character that is neither white space
    nor `ε`. A malformed byte becomes the symbol U+FFFD. -/
def symbols (word : Text) : List Symbol :=
  ((Utf8.glyphs word).filter fun g => !(isBlank g.char || g.char = epsilon)).map
    fun g => Utf8.encode g.char

/-- Symbols written one behind the other. -/
def sentence (syms : List Symbol) : Text :=
  syms.flatten

end Derivations
