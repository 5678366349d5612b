import Derivations.Grammar.File.Token
import Derivations.Symbol

/-!
# Lines of a Grammar File

Every line of a grammar file holds the alternatives for one symbol: the symbol,
white space, and the alternatives separated by bars. White space around the
line, around bars and between the symbols of an alternative means nothing, so
an alternative may well be empty. Empty lines mean nothing either, and a symbol
without alternatives is passed over. What is left are two ways to get a line
wrong: not to begin with a symbol, and to put a bar right behind it.

## Main definitions

* `Line`: What a well-formed line says.
* `LineFault`: What is wrong with a malformed line.
* `Line.split`: The lines of a sequence of tokens.
* `Line.read`: Reads the tokens of a line.
* `Line.productions`: The productions on a line.
-/

namespace Derivations

/-- What a well-formed line says. -/
inductive Line where
  /-- Nothing. -/
  | blank
  /-- A symbol, but no alternatives for it. -/
  | bare (lhs : Token)
  /-- Alternatives for a symbol. -/
  | rule (lhs : Symbol) (alternatives : List (List Symbol))
deriving DecidableEq, Repr

/-- What is wrong with a malformed line. -/
inductive LineFault where
  /-- The line begins with a token that is no word. -/
  | leftHandSideExpected (found : Token)
  /-- The word at the beginning of the line is not followed by white space. -/
  | whitespaceExpected (lhs : Token)
deriving DecidableEq, Repr

namespace LineFault

/-- The token that shows where the line is. -/
def token : LineFault → Token
  | leftHandSideExpected found => found
  | whitespaceExpected lhs => lhs

/-- The number of the malformed line. -/
def line (f : LineFault) : Nat :=
  f.token.location.line

/-- The fault in words. -/
def text (f : LineFault) : Text :=
  "line " ++ Text.decimal f.line ++ ": " ++
    match f with
    | leftHandSideExpected found => "left-hand side expected, found " ++ found.text
    | whitespaceExpected lhs => "whitespace expected after " ++ Quoted.text lhs.lexeme

end LineFault

namespace Line

/-- The parts of a sequence of tokens between the tokens of a kind. -/
def splitAt (kind : TokenKind) : List Token → List (List Token)
  | [] => [[]]
  | t :: ts =>
    if t.kind = kind then
      [] :: splitAt kind ts
    else
      match splitAt kind ts with
      | [] => [[t]]
      | part :: parts => (t :: part) :: parts

/-- The lines of a sequence of tokens, without their line ends. -/
def split (ts : List Token) : List (List Token) :=
  splitAt .newline ts

/-- A line without white space at either end. -/
def trim (ts : List Token) : List Token :=
  ((ts.dropWhile (·.kind = .space)).reverse.dropWhile (·.kind = .space)).reverse

/-- The alternatives in a sequence of tokens. -/
def alternatives (ts : List Token) : List (List Symbol) :=
  (splitAt .bar ts).map fun part => symbols (part.flatMap (·.lexeme))

/-- The productions on a line, in order. -/
def productions : Line → List (Symbol × List Symbol)
  | rule lhs alternatives => alternatives.map (lhs, ·)
  | _ => []

/-- Reads the tokens of a line. -/
def read (ts : List Token) : Except LineFault Line :=
  match trim ts with
  | [] => .ok .blank
  | lhs :: rest =>
    if lhs.kind ≠ .word then .error (.leftHandSideExpected lhs)
    else
      match rest with
      | [] => .ok (.bare lhs)
      | gap :: body =>
        if gap.kind ≠ .space then .error (.whitespaceExpected lhs)
        else .ok (.rule lhs.lexeme (alternatives body))

end Line

end Derivations
