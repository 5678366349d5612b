import Derivations.Console.Style
import Derivations.Report.Basic
import Derivations.Grammar.Fingerprint

/-!
# Tables of Properties

The analysis of a grammar as a table with one row for each non-terminal and a
mark for each property it has. Columns are as wide as their widest cell,
measured in bytes, and cells are filled up with blanks; so a row whose marks
take several bytes each looks narrower than it counts.

## Main definitions

* `Table`: A header and rows.
* `Table.text`: A table with its columns aligned.
* `Analysis.tableChunks`, `Analysis.tableStages`: The table of properties.
* `Analysis.console`: All that is shown about an analysis.
-/

namespace Derivations

/-- A header and rows with as many cells. -/
structure Table where
  header : List Text
  rows : List (List Text)

namespace Table

/-- How wide a cell is: the number of bytes that remain of it without colours. -/
def cellWidth (cell : Text) : Nat :=
  (Style.withoutCodes (Style.withoutTags cell)).length

/-- The widths of columns, given a further row. -/
def widen (widths : List Nat) (row : List Text) : List Nat :=
  (widths.zip (row.map cellWidth)).map fun (a, b) => max a b

/-- The widths of the columns. -/
def widths (t : Table) : List Nat :=
  t.rows.foldl widen (t.header.map cellWidth)

/-- A cell filled up with blanks to the width of its column. -/
def padCell (width : Nat) (cell : Text) : Text :=
  cell ++ List.replicate (width - cellWidth cell) ' '.toUInt8

/-- A row, given how its cells are shown. -/
def rowText (d : Display) (form : Text → Text) (widths : List Nat) (row : List Text) : Text :=
  List.intercalate (d.style "39" (d.style "90" " | "))
    ((widths.zip row).map fun (width, cell) => form (padCell width cell))

/-- A table with its columns aligned, without a line end behind the last row. -/
def text (d : Display) (t : Table) : Text :=
  List.intercalate "\n"
    (rowText d (fun cell => d.style "39" (d.style "96" cell)) t.widths t.header ::
      t.rows.map (rowText d (d.style "39") t.widths))

end Table

namespace Analysis

/-- A check mark, or nothing. -/
def checkMark (b : Bool) : Text :=
  if b then "✓" else []

/-- The properties of all non-terminals. -/
def table (a : Analysis) : Table where
  header := ["Non-terminal", "reachable", "productive", "nullable", "cyclic"]
  rows := a.grammar.nonTerminals.map fun sym =>
    [sym, checkMark (a.reachable.contains sym), checkMark (a.productive.contains sym),
      checkMark (a.nullable.contains sym), checkMark (a.cyclic.contains sym)]

/-- The table of properties and a line about infinite ambiguity. -/
def tableChunks (d : Display) (a : Analysis) : List Text :=
  [a.table.text d ++ "\n",
    "infinitely ambiguous: " ++ Text.truth a.infinitelyAmbiguous ++ "\n"]

/-- The table of properties as a stage of output. -/
def tableStages (d : Display) (a : Analysis) : List Stage :=
  [{ chunks := Supply.ofList (a.tableChunks d) }]

/-- All that is shown about an analysis: the name and fingerprint of the
    grammar, its rules, the table of properties, and the problems. -/
def console (d : Display) (a : Analysis) : Text :=
  d.info ("grammar " ++ a.grammar.name ++ ", fingerprint " ++ a.grammar.fingerprint) ++
    d.line a.grammar.text ++
    (a.tableChunks d).flatten ++
    a.problems.flatMap d.error

end Analysis

end Derivations
