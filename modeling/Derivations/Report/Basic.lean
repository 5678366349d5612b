import Derivations.Analysis.Basic
import Derivations.Drawing.Svg
import Derivations.Text.Quoted

/-!
# Reports

A report gathers what is shown about a parse: the grammar and what is wrong
with it, and the trees of a sentence under a heading that says how many there
are and whether there may be more.

## Main definitions

* `Report`: A parse and what it was made with.
* `Report.heading`: The heading of the trees.
* `Report.problems`: What is wrong with the grammar.
* `Report.drawings`: The trees as drawings, in presentation order.
-/

namespace Derivations

/-- A parse and what it was made with. -/
structure Report where
  grammar? : Option Grammar
  analysis? : Option Analysis
  sentence : Text
  trees : List MeasuredTree
  /-- Whether there are no trees beside those which were found. -/
  full : Bool

/-- A sentence that says of non-terminals what they are. There is nothing to
    say of none. -/
def findingText (syms : List Symbol) (finding : Text) : List Text :=
  match syms with
  | [] => []
  | [sym] => ["Non-terminal " ++ sym ++ " is " ++ finding ++ "."]
  | syms => ["Non-terminals " ++ List.intercalate ", " syms ++ " are " ++ finding ++ "."]

/-- What is wrong with a grammar, as sentences. -/
def Analysis.problems (a : Analysis) : List Text :=
  findingText a.unreachable ("unreachable from the start symbol " ++ a.start) ++
    findingText a.unrealizable "unrealizable, i.e. generate no strings" ++
    findingText a.cyclic (if a.infinitelyAmbiguous then
      "cyclic, so some strings have infinitely many derivations" else "cyclic")

namespace Report

/-- What the heading calls the trees. -/
def caption (r : Report) : Text :=
  if !r.full then "Some derivations"
  else
    match r.trees with
    | [] => "No derivations"
    | [_] => "Derivation tree"
    | _ => "Derivation trees"

/-- The heading of the trees. -/
def heading (r : Report) : Text :=
  r.caption ++ " for '" ++ r.sentence ++ "'"

/-- What is wrong with the grammar, as sentences. -/
def problems (r : Report) : List Text :=
  match r.analysis? with
  | some a => a.problems
  | none => []

/-- The rules of the grammar. -/
def productions (r : Report) : List Text :=
  match r.grammar? with
  | some g => g.listing
  | none => []

/-- The trees as drawings, in presentation order. -/
def drawings (r : Report) : List Text :=
  (MeasuredTree.sorted r.trees).map Svg.text

end Report

end Derivations
