import Derivations.Text.Cut
import Derivations.Text.Quoted

/-!
# Tokens of a Grammar File

A grammar file is read as a sequence of tokens: words, white space, bars and
line ends. Every byte belongs to one of them, so reading tokens cannot fail.
Words and white space extend as far as they can. A carriage return is white
space, unless a token begins with it and a line feed follows; then the two of
them are a line end.

Positions count lines from one. Within a line they count bytes, and a token is
placed where its first byte ends, so the first byte of a line is at column one
and a line feed is at column zero of the line it begins.

## Main definitions

* `TokenKind`, `Token`: A token with its position.
* `Token.measure`: Which token begins at a byte, and how far it extends.
* `Token.scan`: The tokens of a text.
* `Token.text`: A token in messages.
-/

namespace Derivations

/-- The kinds of tokens. -/
inductive TokenKind where
  | word
  | space
  | bar
  | newline
deriving DecidableEq, Repr

/-- The name of a kind in messages. -/
def TokenKind.text : TokenKind → Text
  | word => "word"
  | space => "space"
  | bar => "'|'"
  | newline => "newline"

/-- A place in a text: a line, counted from one, and a column. -/
structure Location where
  line : Nat
  column : Nat
deriving DecidableEq, Repr

namespace Location

/-- The place in front of the first byte. -/
def start : Location := ⟨1, 0⟩

/-- The place behind one more byte. -/
def past (l : Location) (b : UInt8) : Location :=
  if b = '\n'.toUInt8 then ⟨l.line + 1, 0⟩ else ⟨l.line, l.column + 1⟩

/-- The place behind several more bytes. -/
def pastAll (l : Location) (t : Text) : Location :=
  t.foldl past l

end Location

/-- A token: its kind, its bytes, and the place behind its first byte. -/
structure Token where
  kind : TokenKind
  lexeme : Text
  location : Location
deriving DecidableEq, Repr

namespace Token

/-- Whether a byte is a blank, a tab or a carriage return. -/
def isSpace (b : UInt8) : Bool :=
  b = ' '.toUInt8 || b = '\t'.toUInt8 || b = '\r'.toUInt8

/-- Whether a byte separates productions or alternatives. -/
def isMark (b : UInt8) : Bool :=
  b = '\n'.toUInt8 || b = '|'.toUInt8

/-- Whether a byte can be part of a word. -/
def isWord (b : UInt8) : Bool :=
  !(isSpace b || isMark b)

/-- The kind of the token that begins with a byte, and how many of the bytes
    behind it belong to the token. -/
def measure (first : UInt8) (rest : Text) : TokenKind × Nat :=
  if first = '\n'.toUInt8 then (.newline, 0)
  else if first = '\r'.toUInt8 && rest.head? == some '\n'.toUInt8 then (.newline, 1)
  else if isSpace first then (.space, (rest.takeWhile isSpace).length)
  else if first = '|'.toUInt8 then (.bar, 0)
  else (.word, (rest.takeWhile isWord).length)

/-- Gives pieces of text their places, the first of them beginning behind the
    given place. -/
def locate (l : Location) : List (TokenKind × Text) → List Token
  | [] => []
  | (kind, lexeme) :: rest =>
    ⟨kind, lexeme, l.pastAll (lexeme.take 1)⟩ :: locate (l.pastAll lexeme) rest

/-- The tokens of a text. -/
def scan (t : Text) : List Token :=
  locate Location.start (t.cut measure)

/-- A token in messages: its kind, its bytes in quotes and its place. -/
def text (t : Token) : Text :=
  t.kind.text ++ " " ++ Quoted.text t.lexeme ++ " @" ++ Text.decimal t.location.line ++ ":" ++
    Text.decimal t.location.column

end Token

end Derivations
