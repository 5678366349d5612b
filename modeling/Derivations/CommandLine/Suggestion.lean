import Derivations.Text.Lower

/-!
# Suggestions

A command that does not exist may be a command misspelt. Suggested are the
commands that begin with what was typed, and those which can be made out of it
by inserting, deleting or replacing at most two bytes.

## Main definitions

* `editDistance`: How many bytes have to be changed.
* `suggestions`: The commands that may have been meant.
-/

namespace Derivations

/-- The next row of distances: given the distances of the prefixes of a word to
    some text, `above`, those to the text with one more byte. `left` is the
    distance of the prefix in front of the ones still to be looked at, and
    `corner` the distance it had before. -/
def distanceRow (b : UInt8) (left corner : Nat) : Text → List Nat → List Nat
  | c :: word, above :: row =>
    let d := if b = c then corner else 1 + min corner (min left above)
    d :: distanceRow b d above word row
  | _, _ => []

/-- The distances of all prefixes of a word to a text, the empty prefix first. -/
def distances (word : Text) : Text → List Nat
  | [] => List.range (word.length + 1)
  | b :: rest =>
    match distances word rest with
    | [] => []
    | first :: row => (first + 1) :: distanceRow b (first + 1) first word row

/-- The least number of bytes to insert, delete or replace to turn one text into
    another. -/
def editDistance (a b : Text) : Nat :=
  (distances a.reverse b).getLastD 0

/-- The commands that may have been meant by a name, whatever the case of its
    letters. -/
def suggestions (commands : List Text) (name : Text) : List Text :=
  let typed := name.lower
  commands.filter fun c => editDistance typed c ≤ 2 || typed.isPrefixOf c

end Derivations
