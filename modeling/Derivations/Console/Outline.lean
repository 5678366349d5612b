import Derivations.Console.Style
import Derivations.Tree.Measured
import Derivations.Output.Stage
import Derivations.Span

/-!
# Trees on the Console

A tree is shown as an outline, one line for each node, with strokes that lead
from a node to its children. A leaf shows its symbol, an inner node its symbol
and the part of the input it covers, and a node without children an `ε`.

## Main definitions

* `Tree.outline`: The texts of the lines with their levels.
* `Tree.consoleLines`: The lines with their strokes, made one at a time.
* `Tree.console`: The outline with its strokes.
* `Tree.consoleLog`: The message left behind by showing a tree.
* `consoleStages`: Trees as stages of output, in presentation order.
* `bracketStages`: Trees in bracket notation, one on each line.

## Theorems

* `Tree.length_outline`: An outline has a line for every node.
* `text_bracketStages`: Lines in bracket notation, written piece by piece, are
  the trees in bracket notation.
-/

namespace Derivations

namespace Tree

/-- The text of an inner node whose leftmost leaf is at input position
    `start`. -/
def nodeLabel (sym : Symbol) (children : List Tree) (start : UInt64) : Text :=
  if children.isEmpty then sym ++ " → ε"
  else sym ++ " " ++ Span.text ⟨start, start + UInt64.ofNat (leafCountAll children)⟩

mutual

/-- The texts of the lines of a tree with their levels, every node in front of
    its children. The leftmost leaf is at input position `start`. -/
def outlineFrom (level : Nat) (start : UInt64) : Tree → List (Nat × Text)
  | leaf sym => [(level, sym)]
  | node sym children =>
    (level, nodeLabel sym children start) :: outlineAllFrom (level + 1) start children

/-- The texts of the lines of siblings with their levels. -/
def outlineAllFrom (level : Nat) (start : UInt64) : List Tree → List (Nat × Text)
  | [] => []
  | t :: ts =>
    t.outlineFrom level start ++ outlineAllFrom level (start + UInt64.ofNat t.leafCount) ts

end

/-- The texts of the lines with their levels. -/
def outline (t : Tree) : List (Nat × Text) :=
  t.outlineFrom 0 0

mutual

/-- How many leaves and inner nodes there are. -/
def size : Tree → Nat
  | leaf _ => 1
  | node _ children => sizeAll children + 1

/-- How many leaves and inner nodes several trees have. -/
def sizeAll : List Tree → Nat
  | [] => 0
  | t :: ts => t.size + sizeAll ts

end

mutual

/-- A tree has a line for every node. -/
theorem length_outlineFrom (level : Nat) (start : UInt64) (t : Tree) :
    (t.outlineFrom level start).length = t.size := by
  match t with
  | leaf _ => simp [outlineFrom, size]
  | node _ children => simp [outlineFrom, size, length_outlineAllFrom]

/-- Siblings have a line for every node. -/
theorem length_outlineAllFrom (level : Nat) (start : UInt64) (ts : List Tree) :
    (outlineAllFrom level start ts).length = sizeAll ts := by
  match ts with
  | [] => simp [outlineAllFrom, sizeAll]
  | t :: ts => simp [outlineAllFrom, sizeAll, length_outlineFrom, length_outlineAllFrom]

end

/-- An outline has a line for every node. -/
theorem length_outline (t : Tree) : t.outline.length = t.size :=
  length_outlineFrom 0 0 t

/-- A stroke, in the style of strokes. -/
def stroke (d : Display) (t : Text) : Text :=
  d.style "90" t

/-- The strokes in front of the text of a node. -/
def branch (d : Display) (last inner : Bool) : Text :=
  stroke d (if last then "└" else "├") ++ stroke d "─" ++ stroke d (if inner then "┬" else "─")

/-- What the lines below a node are indented by, in addition to the node
    itself. -/
def indentation (d : Display) (last : Bool) : Text :=
  if last then "  " else stroke d "│" ++ " "

/-- The line of a node: what it is indented by, the strokes that lead to it and
    its text. -/
def consoleLine (d : Display) (indent : Text) (last inner : Bool) (label : Text) : Text :=
  indent ++ (branch d last inner ++ (d.style "39" label ++ "\n"))

mutual

/-- The lines of a tree, made one at a time, in front of what comes after
    them. -/
def consoleLines (d : Display) (indent : Text) (last : Bool) (start : UInt64) :
    Tree → (Unit → Supply Text) → Supply Text
  | leaf sym, after => .more (consoleLine d indent last false sym) after
  | node sym children, after =>
    .more (consoleLine d indent last (!children.isEmpty) (nodeLabel sym children start)) fun _ =>
      consoleLinesAll d (indent ++ indentation d last) start children after

/-- The lines of siblings, in front of what comes after them. -/
def consoleLinesAll (d : Display) (indent : Text) (start : UInt64) :
    List Tree → (Unit → Supply Text) → Supply Text
  | [], after => after ()
  | t :: ts, after =>
    consoleLines d indent ts.isEmpty start t fun _ =>
      consoleLinesAll d indent (start + UInt64.ofNat t.leafCount) ts after

end

/-- The outline of a tree with its strokes, line by line. -/
def consoleChunks (d : Display) (t : Tree) : Supply Text :=
  consoleLines d [] true 0 t fun _ => .empty

/-- The outline of a tree with its strokes. -/
def console (d : Display) (t : Tree) : Text :=
  (t.consoleChunks d).toList.flatten

/-- The message left behind by showing a tree: how many lines it takes. -/
def consoleLog (t : Tree) : Log :=
  Log.debug ("|ll| = " ++ Text.decimal t.size)

/-- A tree on the console as a stage of output. -/
def consoleStage (d : Display) (t : Tree) : Stage :=
  { before := t.consoleLog, chunks := t.consoleChunks d }

mutual

/-- A tree in bracket notation, made piece by piece, in front of what comes
    after it. -/
def bracketChunks : Tree → (Unit → Supply Text) → Supply Text
  | leaf sym, after => .more sym after
  | node sym children, after =>
    .more ("(" ++ sym) fun _ => bracketChunksAll children fun _ => .more ")" after

/-- Children in bracket notation, a blank in front of each, in front of what
    comes after them. -/
def bracketChunksAll : List Tree → (Unit → Supply Text) → Supply Text
  | [], after => after ()
  | t :: ts, after =>
    .more " " fun _ => bracketChunks t fun _ => bracketChunksAll ts after

end

mutual

/-- The pieces of a tree make up its bracket notation. -/
theorem flatten_bracketChunks (t : Tree) (after : Unit → Supply Text) :
    (t.bracketChunks after).toList.flatten = t.bracketed ++ (after ()).toList.flatten := by
  match t with
  | leaf sym => simp [bracketChunks]
  | node sym children => simp [bracketChunks, flatten_bracketChunksAll]

/-- The pieces of children make up their bracket notation. -/
theorem flatten_bracketChunksAll (ts : List Tree) (after : Unit → Supply Text) :
    (bracketChunksAll ts after).toList.flatten =
      bracketedAll ts ++ (after ()).toList.flatten := by
  match ts with
  | [] => simp [bracketChunksAll]
  | t :: ts => simp [bracketChunksAll, flatten_bracketChunks, flatten_bracketChunksAll]

end

/-- Trees in bracket notation, one on each line. -/
def bracketLines : List Tree → Supply Text
  | [] => .empty
  | t :: ts => t.bracketChunks fun _ => .more "\n" fun _ => bracketLines ts

end Tree

/-- Trees on the console, in presentation order. -/
def consoleStages (d : Display) (ts : List MeasuredTree) : List Stage :=
  (MeasuredTree.sorted ts).map (Tree.consoleStage d)

/-- Trees in bracket notation as a stage of output, in presentation order.
    Something is sent even if there is no tree. -/
def bracketStages (ts : List MeasuredTree) : List Stage :=
  [{ chunks := Supply.more [] fun _ => Tree.bracketLines (MeasuredTree.sorted ts) }]

/-- Lines of bracket notation, written piece by piece, are the trees in bracket
    notation, each with a line end behind it. -/
theorem text_bracketStages (ts : List MeasuredTree) :
    Stage.text (bracketStages ts) =
      (Tree.sort (ts.map (·.tree))).flatMap fun t => t.bracketed ++ Text.ofString "\n" := by
  have h (us : List Tree) :
      (Tree.bracketLines us).toList.flatten =
        us.flatMap fun t => t.bracketed ++ Text.ofString "\n" := by
    induction us with
    | nil => rfl
    | cons u us ih => simp [Tree.bracketLines, Tree.flatten_bracketChunks, ih]
  simp [Stage.text, bracketStages, Thunk.get, h, MeasuredTree.sorted_eq_sort]

end Derivations
