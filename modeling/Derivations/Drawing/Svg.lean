import Derivations.Drawing.Layout
import Derivations.Output.Stage
import Derivations.Text.Escape
import Derivations.Tree.Measured

/-!
# SVG

Drawings as SVG elements. Symbols are escaped, so whatever they consist of,
the markup is that of the drawing alone.

## Main definitions

* `Svg.pieces`: The drawing of a tree, as a list of pieces.
* `Svg.chunks`: The same pieces, made one at a time.
* `Svg.text`: The drawing of a tree.
* `Svg.stages`: Drawings as stages of output, in presentation order.

## Theorems

* `Svg.toList_chunks`: The pieces that are made one at a time are all pieces.
-/

namespace Derivations

namespace Svg

/-- The colour of symbols. -/
def colour : Ink → Text
  | .nonTerminal => "#cc0000"
  | .terminal => "#0000cc"
  | .empty => "#aaaaaa"

/-- The colour of lines. -/
def strokeColour : Ink → Text
  | .nonTerminal => "black"
  | .terminal => "#dddddd"
  | .empty => "#aaaaaa"

/-- The colour behind the tree. -/
def background : Text := "#fff7db"

/-- The colour behind the sentence. -/
def stripBackground : Text := "#f0e6bc"

/-- An attribute with a blank in front of it. -/
def property (name value : Text) : Text :=
  " " ++ name ++ "=\"" ++ value ++ "\""

/-- An attribute whose value is a number. -/
def number (name : Text) (value : Nat) : Text :=
  property name (Text.decimal value)

/-- An opening tag with its attributes. -/
def opening (tag : Text) (attributes : List Text) : List Text :=
  ("<" ++ tag) :: attributes ++ [Text.ofString ">"]

/-- A closing tag. -/
def closing (tag : Text) : Text :=
  "</" ++ tag ++ ">"

/-- An element without content. -/
def emptyElement (tag : Text) (attributes : List Text) : List Text :=
  ("<" ++ tag) :: attributes ++ [Text.ofString "/>"]

/-- A text element with content that is markup already. -/
def label (x y : Nat) (ink : Ink) (content : Text) : List Text :=
  opening "text" [number "x" x, number "y" y, property "text-anchor" "middle",
      property "fill" (colour ink)] ++
    [content, closing "text"]

/-- A line. -/
def stroke (s : Stroke) : List Text :=
  emptyElement "line" [number "x1" s.x₁, number "y1" s.y₁, number "x2" s.x₂, number "y2" s.y₂]

/-- A mark. -/
def mark : Mark → List Text
  | .symbol x y ink sym => label x y ink (Escape.markup sym)
  | .epsilon x y => label x y .empty "&#x03B5;"
  | .strokes ink strokes =>
    opening "g" [property "stroke" (strokeColour ink), property "stroke-width" "1",
        property "stroke-linecap" "round"] ++
      strokes.flatMap stroke ++ [closing "g"]

/-- What is drawn before any mark: the opening tag and the background. -/
def canvas (t : Tree) : List Text :=
  let height := t.rows * Layout.rowHeight
  let width := t.width * Layout.leafDistance
  opening "svg" [number "width" width, number "height" (height + Layout.stripHeight),
      property "xmlns" "http://www.w3.org/2000/svg", property "version" "1.1",
      property "font-family" "sans-serif", property "font-size" "15"] ++
    emptyElement "rect" [number "width" width, number "height" height,
      property "fill" background] ++
    emptyElement "rect" [number "y" height, number "width" width,
      number "height" Layout.stripHeight, property "fill" stripBackground]

/-- What is drawn after all marks. -/
def ending : List Text :=
  [closing "svg", Text.ofString "\n"]

/-- The drawing of a tree, as a list of pieces. -/
def pieces (t : Tree) : List Text :=
  canvas t ++ t.marks.flatMap mark ++ ending

/-- The drawing of a tree, made piece by piece. -/
def chunks (t : Tree) : Supply Text :=
  .prepend (canvas t) fun _ => t.painting.flatMap mark fun _ => .ofList ending

/-- The drawing that is made piece by piece is the drawing of the tree. -/
theorem toList_chunks (t : Tree) : (chunks t).toList = pieces t := by
  simp [chunks, pieces, Tree.toList_painting]

/-- The drawing of a tree. -/
def text (t : Tree) : Text :=
  (chunks t).toList.flatten

/-- The drawing of a tree as a stage of output. -/
def stage (t : Tree) : Stage :=
  { chunks := chunks t, complaint? := some "cannot write SVG" }

/-- The drawings of trees, in presentation order. -/
def stages (ts : List MeasuredTree) : List Stage :=
  (MeasuredTree.sorted ts).map stage

end Svg

end Derivations
