import Derivations.Proofs.Drawing.Markup

/-!
# Symbols are Content

A grammar may have any symbols, brackets and whole tags among them, and drawings become part
of a page as they are. What a reader finds in a drawing is therefore a question of safety. The
tags it finds are those of the drawing: they are determined by the shape of the tree, whatever
the symbols are, and they are well nested. The symbols it finds as content, every one of them,
in the order in which they are painted.

The reader goes through the drawing mark by mark. The pieces of a mark do not depend on what
follows it, since no mark ends within a tag.

## Main definitions

* `Tree.shape`: A tree without its symbols.
* `Tree.written`: The symbols in the order in which they are painted.
* `Svg.markPieces`: What the reader finds in a mark.
* `Svg.legible`: The contents that a reader finds, apart from those in the colour of `ε`.

## Theorems

* `Svg.read_text`: What the reader finds in a drawing.
* `Svg.tags_shape`: The tags are those of the shape.
* `Svg.wellNested_text`: The tags are well nested.
* `Svg.legible_text`: The symbols can be read.
* `Svg.symbols_stay_content`: All of this together.
-/

namespace Derivations

namespace Tree

mutual

/-- A tree without its symbols: which nodes are leaves, and how many children the others
    have. -/
def shape : Tree → Tree
  | leaf _ => leaf []
  | node _ children => node [] (shapeAll children)

/-- Several trees without their symbols. -/
def shapeAll : List Tree → List Tree
  | [] => []
  | t :: ts => t.shape :: shapeAll ts

end

mutual

/-- The symbols in the order in which they are painted: a leaf twice, once more in the strip,
    and a node after everything below it. -/
def written : Tree → List Symbol
  | leaf sym => [sym, sym]
  | node sym children => writtenAll children ++ [sym]

/-- The symbols of several trees. -/
def writtenAll : List Tree → List Symbol
  | [] => []
  | t :: ts => t.written ++ writtenAll ts

end

end Tree

namespace Mark

/-- A mark without its symbol. -/
def blank : Mark → Mark
  | symbol x y ink _ => symbol x y ink []
  | epsilon x y => epsilon x y
  | strokes ink lines => strokes ink lines

/-- The symbol of a mark, if it is not in the colour of `ε`. -/
def symbol? : Mark → Option Symbol
  | symbol _ _ ink sym => if ink = .empty then none else some sym
  | epsilon _ _ => none
  | strokes _ _ => none

end Mark

namespace Tree

mutual

theorem width_shape (t : Tree) : t.shape.width = t.width := by
  match t with
  | leaf sym => rw [shape, width, width]
  | node sym children => rw [shape, width, width, widthAll_shapeAll]

theorem widthAll_shapeAll (ts : List Tree) : widthAll (shapeAll ts) = widthAll ts := by
  match ts with
  | [] => rw [shapeAll]
  | t :: ts => rw [shapeAll, widthAll, widthAll, width_shape, widthAll_shapeAll]

end

mutual

theorem rows_shape (t : Tree) : t.shape.rows = t.rows := by
  match t with
  | leaf sym => rw [shape, rows, rows]
  | node sym children => rw [shape, rows, rows, rowsAll_shapeAll]

theorem rowsAll_shapeAll (ts : List Tree) : rowsAll (shapeAll ts) = rowsAll ts := by
  match ts with
  | [] => rw [shapeAll]
  | t :: ts => rw [shapeAll, rowsAll, rowsAll, rows_shape, rowsAll_shapeAll]

end

theorem map_blank_drawNode (sym : Symbol) (x y : Nat) (places : List Nat) :
    (drawNode sym x y places).map Mark.blank = drawNode [] x y places := by
  rw [drawNode, drawNode]
  split <;> rfl

mutual

/-- Where the marks of a tree go has nothing to do with its symbols. -/
theorem draw_shape (x y levels : Nat) (t : Tree) :
    draw x y levels t.shape =
      ((draw x y levels t).1, (draw x y levels t).2.map Mark.blank) := by
  match t with
  | leaf sym =>
    rw [shape, draw, draw]
    rfl
  | node sym children =>
    rw [shape, draw, draw, drawAll_shapeAll]
    simp only [List.map_append, map_blank_drawNode]

theorem drawAll_shapeAll (x y levels : Nat) (ts : List Tree) :
    drawAll x y levels (shapeAll ts) =
      ((drawAll x y levels ts).1, (drawAll x y levels ts).2.map Mark.blank) := by
  match ts with
  | [] =>
    rw [shapeAll, drawAll]
    rfl
  | t :: ts =>
    rw [shapeAll, drawAll, drawAll, draw_shape, drawAll_shapeAll, width_shape]
    simp only [List.map_append]

end

theorem marks_shape (t : Tree) : t.shape.marks = t.marks.map Mark.blank := by
  rw [marks, marks, rows_shape, draw_shape]

theorem filterMap_symbol?_drawNode (sym : Symbol) (x y : Nat) (places : List Nat) :
    (drawNode sym x y places).filterMap Mark.symbol? = [sym] := by
  rw [drawNode]
  split <;> rfl

mutual

/-- Symbols are painted in the order of the tree. -/
theorem filterMap_symbol?_draw (x y levels : Nat) (t : Tree) :
    (draw x y levels t).2.filterMap Mark.symbol? = t.written := by
  match t with
  | leaf sym =>
    rw [draw, written]
    rfl
  | node sym children =>
    rw [draw, written, List.filterMap_append, filterMap_symbol?_drawAll,
      filterMap_symbol?_drawNode]

theorem filterMap_symbol?_drawAll (x y levels : Nat) (ts : List Tree) :
    (drawAll x y levels ts).2.filterMap Mark.symbol? = writtenAll ts := by
  match ts with
  | [] =>
    rw [drawAll, writtenAll]
    rfl
  | t :: ts =>
    rw [drawAll, writtenAll, List.filterMap_append, filterMap_symbol?_draw,
      filterMap_symbol?_drawAll]

end

end Tree

namespace Svg

open Markup (Piece Element Proper proper_cons proper_nil isName isPlain isPlain_decimal tagged
  closingTag)

section Elements

variable {label : Text} {given : List (Text × Text)}

theorem read_opening (hlabel : isName label = true) (hgiven : Proper given) (rest : Text) :
    Markup.read ((opening label (given.map fun p => property p.1 p.2)).flatten ++ rest) =
      .tag (tagged label given) :: Markup.read rest := by
  have htext : (opening label (given.map fun p => property p.1 p.2)).flatten ++ rest =
      '<'.toUInt8 :: (tagged label given ++ '>'.toUInt8 :: rest) := by
    simp [opening, tagged, List.flatMap]
    rfl
  rw [htext, Markup.read_tag _ _ (Markup.ne_of_mem_tagged hlabel hgiven)]

theorem read_emptyElement (hlabel : isName label = true) (hgiven : Proper given) (rest : Text) :
    Markup.read ((emptyElement label (given.map fun p => property p.1 p.2)).flatten ++ rest) =
      .tag (tagged label given ++ "/") :: Markup.read rest := by
  have htext : (emptyElement label (given.map fun p => property p.1 p.2)).flatten ++ rest =
      '<'.toUInt8 :: ((tagged label given ++ "/") ++ '>'.toUInt8 :: rest) := by
    simp [emptyElement, tagged, List.flatMap]
    rfl
  have hbody : ∀ b ∈ tagged label given ++ "/", b ≠ '>'.toUInt8 := by
    intro b hb
    rcases List.mem_append.1 hb with hb | hb
    · exact Markup.ne_of_mem_tagged hlabel hgiven b hb
    · exact ne_of_mem_of_not_mem hb (by decide)
  rw [htext, Markup.read_tag _ _ hbody]

theorem read_closing (hlabel : isName label = true) (rest : Text) :
    Markup.read (closing label ++ rest) = .tag (closingTag label) :: Markup.read rest := by
  have htext : closing label ++ rest =
      '<'.toUInt8 :: (closingTag label ++ '>'.toUInt8 :: rest) := by
    simp [closing, closingTag]
    rfl
  have hbody : ∀ b ∈ closingTag label, b ≠ '>'.toUInt8 := by
    intro b hb
    rcases List.mem_append.1 hb with hb | hb
    · exact ne_of_mem_of_not_mem hb (by decide)
    · exact (Markup.ne_of_isPlain (Markup.isPlain_of_isName hlabel) b hb).2.1
  rw [htext, Markup.read_tag _ _ hbody]

end Elements

/-- The attributes of a label. -/
def labelAttributes (x y : Nat) (ink : Ink) : List (Text × Text) :=
  [("x", Text.decimal x), ("y", Text.decimal y), ("text-anchor", "middle"), ("fill", colour ink)]

/-- The attributes of a line. -/
def strokeAttributes (s : Stroke) : List (Text × Text) :=
  [("x1", Text.decimal s.x₁), ("y1", Text.decimal s.y₁), ("x2", Text.decimal s.x₂),
    ("y2", Text.decimal s.y₂)]

/-- The attributes of a group of lines. -/
def groupAttributes (ink : Ink) : List (Text × Text) :=
  [("stroke", strokeColour ink), ("stroke-width", "1"), ("stroke-linecap", "round")]

/-- The attributes of a whole drawing. -/
def canvasAttributes (t : Tree) : List (Text × Text) :=
  [("width", Text.decimal (t.width * Layout.leafDistance)),
    ("height", Text.decimal (t.rows * Layout.rowHeight + Layout.stripHeight)),
    ("xmlns", "http://www.w3.org/2000/svg"), ("version", "1.1"), ("font-family", "sans-serif"),
    ("font-size", "15")]

/-- The attributes of the background. -/
def backgroundAttributes (t : Tree) : List (Text × Text) :=
  [("width", Text.decimal (t.width * Layout.leafDistance)),
    ("height", Text.decimal (t.rows * Layout.rowHeight)), ("fill", background)]

/-- The attributes of the strip. -/
def stripAttributes (t : Tree) : List (Text × Text) :=
  [("y", Text.decimal (t.rows * Layout.rowHeight)),
    ("width", Text.decimal (t.width * Layout.leafDistance)),
    ("height", Text.decimal Layout.stripHeight), ("fill", stripBackground)]

/-- What the reader finds in a label. -/
def labelPieces (x y : Nat) (ink : Ink) (content : Text) : List Piece :=
  .tag (tagged "text" (labelAttributes x y ink)) ::
    (content.map .byte ++ [.tag (closingTag "text")])

/-- What the reader finds in a line. -/
def strokePiece (s : Stroke) : Piece :=
  .tag (tagged "line" (strokeAttributes s) ++ "/")

/-- What the reader finds in a mark. -/
def markPieces : Mark → List Piece
  | .symbol x y ink sym => labelPieces x y ink (Escape.markup sym)
  | .epsilon x y => labelPieces x y .empty "&#x03B5;"
  | .strokes ink strokes =>
    .tag (tagged "g" (groupAttributes ink)) ::
      (strokes.map strokePiece ++ [.tag (closingTag "g")])

/-- What the reader finds in front of the marks. -/
def canvasPieces (t : Tree) : List Piece :=
  [.tag (tagged "svg" (canvasAttributes t)), .tag (tagged "rect" (backgroundAttributes t) ++ "/"),
    .tag (tagged "rect" (stripAttributes t) ++ "/")]

section Attributes

theorem proper_labelAttributes (x y : Nat) (ink : Ink) : Proper (labelAttributes x y ink) :=
  proper_cons (by decide) (isPlain_decimal x) <| proper_cons (by decide) (isPlain_decimal y) <|
    proper_cons (by decide) (by decide) <|
      proper_cons (by decide) (by cases ink <;> decide) proper_nil

theorem proper_strokeAttributes (s : Stroke) : Proper (strokeAttributes s) :=
  proper_cons (by decide) (isPlain_decimal _) <| proper_cons (by decide) (isPlain_decimal _) <|
    proper_cons (by decide) (isPlain_decimal _) <|
      proper_cons (by decide) (isPlain_decimal _) proper_nil

theorem proper_groupAttributes (ink : Ink) : Proper (groupAttributes ink) :=
  proper_cons (by decide) (by cases ink <;> decide) <| proper_cons (by decide) (by decide) <|
    proper_cons (by decide) (by decide) proper_nil

theorem proper_canvasAttributes (t : Tree) : Proper (canvasAttributes t) :=
  proper_cons (by decide) (isPlain_decimal _) <| proper_cons (by decide) (isPlain_decimal _) <|
    proper_cons (by decide) (by decide) <| proper_cons (by decide) (by decide) <|
      proper_cons (by decide) (by decide) <| proper_cons (by decide) (by decide) proper_nil

theorem proper_backgroundAttributes (t : Tree) : Proper (backgroundAttributes t) :=
  proper_cons (by decide) (isPlain_decimal _) <| proper_cons (by decide) (isPlain_decimal _) <|
    proper_cons (by decide) (by decide) proper_nil

theorem proper_stripAttributes (t : Tree) : Proper (stripAttributes t) :=
  proper_cons (by decide) (isPlain_decimal _) <| proper_cons (by decide) (isPlain_decimal _) <|
    proper_cons (by decide) (isPlain_decimal _) <| proper_cons (by decide) (by decide) proper_nil

end Attributes

section Reading

/-- The content of a label is what has been put there, if it is plain. -/
theorem read_label (x y : Nat) (ink : Ink) {content : Text} (h : isPlain content = true)
    (rest : Text) :
    Markup.read ((label x y ink content).flatten ++ rest) =
      labelPieces x y ink content ++ Markup.read rest := by
  have htext : (label x y ink content).flatten ++ rest =
      (opening "text" ((labelAttributes x y ink).map fun p => property p.1 p.2)).flatten ++
        (content ++ (closing "text" ++ rest)) := by
    simp [label, labelAttributes, number]
  -- Plain content does not begin a tag, so the next tag is the closing one.
  rw [htext, read_opening (by decide) (proper_labelAttributes x y ink),
    Markup.read_append _ _ fun b hb => (Markup.ne_of_isPlain h b hb).1,
    read_closing (by decide)]
  simp [labelPieces]

theorem read_strokes (strokes : List Stroke) (rest : Text) :
    Markup.read ((strokes.flatMap stroke).flatten ++ rest) =
      strokes.map strokePiece ++ Markup.read rest := by
  induction strokes with
  | nil => rfl
  | cons s strokes ih =>
    rw [List.flatMap_cons, List.flatten_append, List.append_assoc, List.map_cons,
      List.cons_append, ← ih]
    have hline : isName "line" = true := by decide
    exact read_emptyElement hline (proper_strokeAttributes s) _

/-- The pieces of a mark do not depend on what follows. -/
theorem read_mark (m : Mark) (rest : Text) :
    Markup.read ((mark m).flatten ++ rest) = markPieces m ++ Markup.read rest := by
  cases m with
  | symbol x y ink sym => exact read_label x y ink (Markup.isPlain_escaped sym) rest
  | epsilon x y => exact read_label x y .empty (by decide) rest
  | strokes ink strokes =>
    have htext : (mark (.strokes ink strokes)).flatten ++ rest =
        (opening "g" ((groupAttributes ink).map fun p => property p.1 p.2)).flatten ++
          ((strokes.flatMap stroke).flatten ++ (closing "g" ++ rest)) := by
      simp [mark, groupAttributes]
    rw [htext, read_opening (by decide) (proper_groupAttributes ink), read_strokes,
      read_closing (by decide)]
    simp [markPieces]

theorem read_marks (ms : List Mark) (rest : Text) :
    Markup.read ((ms.flatMap mark).flatten ++ rest) =
      ms.flatMap markPieces ++ Markup.read rest := by
  induction ms with
  | nil => rfl
  | cons m ms ih =>
    rw [List.flatMap_cons, List.flatten_append, List.append_assoc, read_mark, ih,
      List.flatMap_cons, List.append_assoc]

theorem read_canvas (t : Tree) (rest : Text) :
    Markup.read ((canvas t).flatten ++ rest) = canvasPieces t ++ Markup.read rest := by
  have htext : (canvas t).flatten ++ rest =
      (opening "svg" ((canvasAttributes t).map fun p => property p.1 p.2)).flatten ++
        ((emptyElement "rect" ((backgroundAttributes t).map fun p => property p.1 p.2)).flatten ++
          ((emptyElement "rect" ((stripAttributes t).map fun p => property p.1 p.2)).flatten ++
            rest)) := by
    simp only [canvas, List.flatten_append, List.append_assoc]
    rfl
  rw [htext, read_opening (by decide) (proper_canvasAttributes t),
    read_emptyElement (by decide) (proper_backgroundAttributes t),
    read_emptyElement (by decide) (proper_stripAttributes t)]
  rfl

/-- What the reader finds in a drawing. -/
theorem read_text (t : Tree) :
    Markup.read (text t) =
      canvasPieces t ++
        (t.marks.flatMap markPieces ++ [.tag (closingTag "svg"), .byte '\n'.toUInt8]) := by
  have htext : text t = (canvas t).flatten ++ ((t.marks.flatMap mark).flatten ++
      (closing "svg" ++ "\n")) := by
    simp [text, toList_chunks, pieces, ending]
  rw [htext, read_canvas, read_marks, read_closing (by decide)]
  rfl

end Reading

section Tags

theorem tags_markPieces_blank (m : Mark) :
    Markup.tags (markPieces m.blank) = Markup.tags (markPieces m) := by
  cases m with
  | symbol x y ink sym =>
    simp only [Mark.blank, markPieces, labelPieces, Markup.tags, Markup.tags_append,
      Markup.tags_map_byte]
  | epsilon x y => rfl
  | strokes ink strokes => rfl

theorem tags_flatMap_blank (ms : List Mark) :
    Markup.tags ((ms.map Mark.blank).flatMap markPieces) =
      Markup.tags (ms.flatMap markPieces) := by
  induction ms with
  | nil => rfl
  | cons m ms ih =>
    rw [List.map_cons, List.flatMap_cons, List.flatMap_cons, Markup.tags_append,
      Markup.tags_append, tags_markPieces_blank, ih]

theorem canvasPieces_shape (t : Tree) : canvasPieces t.shape = canvasPieces t := by
  simp only [canvasPieces, canvasAttributes, backgroundAttributes, stripAttributes,
    Tree.rows_shape, Tree.width_shape]

/-- The tags in a drawing are those in a drawing of the shape. -/
theorem tags_shape (t : Tree) :
    Markup.tags (Markup.read (text t.shape)) = Markup.tags (Markup.read (text t)) := by
  rw [read_text, read_text, canvasPieces_shape, Tree.marks_shape]
  simp only [Markup.tags_append, tags_flatMap_blank]

theorem nestedIn_strokes (pending rest : List Text) (strokes : List Stroke) :
    Markup.nestedIn pending (Markup.tags (strokes.map strokePiece) ++ rest) =
      Markup.nestedIn pending rest := by
  induction strokes with
  | nil => rfl
  | cons s strokes ih =>
    have hline : isName "line" = true := by decide
    exact (Markup.nestedIn_tagged_slash hline _ _).trans ih

/-- Whatever a mark opens it closes. -/
theorem nestedIn_markPieces (pending rest : List Text) (m : Mark) :
    Markup.nestedIn pending (Markup.tags (markPieces m) ++ rest) =
      Markup.nestedIn pending rest := by
  have hlabel (x y : Nat) (ink : Ink) (content : Text) :
      Markup.nestedIn pending (Markup.tags (labelPieces x y ink content) ++ rest) =
        Markup.nestedIn pending rest := by
    rw [labelPieces, Markup.tags, Markup.tags_append, Markup.tags_map_byte, List.nil_append,
      List.cons_append, Markup.nestedIn_tagged (by decide)]
    exact Markup.nestedIn_closingTag (by decide) _ _
  cases m with
  | symbol x y ink sym => exact hlabel x y ink _
  | epsilon x y => exact hlabel x y .empty _
  | strokes ink strokes =>
    rw [markPieces, Markup.tags, Markup.tags_append, List.cons_append, List.append_assoc,
      Markup.nestedIn_tagged (by decide), nestedIn_strokes]
    exact Markup.nestedIn_closingTag (by decide) _ _

theorem nestedIn_marks (pending rest : List Text) (ms : List Mark) :
    Markup.nestedIn pending (Markup.tags (ms.flatMap markPieces) ++ rest) =
      Markup.nestedIn pending rest := by
  induction ms with
  | nil => rfl
  | cons m ms ih =>
    rw [List.flatMap_cons, Markup.tags_append, List.append_assoc, nestedIn_markPieces, ih]

/-- The tags in a drawing are well nested. -/
theorem wellNested_text (t : Tree) :
    Markup.wellNested (Markup.tags (Markup.read (text t))) = true := by
  rw [Markup.wellNested, read_text, Markup.tags_append, Markup.tags_append]
  change Markup.nestedIn [] (_ :: _ :: _ :: (Markup.tags (t.marks.flatMap markPieces) ++
    [closingTag "svg"])) = true
  -- The outermost element stays open while the marks go by.
  rw [Markup.nestedIn_tagged (by decide), Markup.nestedIn_tagged_slash (by decide),
    Markup.nestedIn_tagged_slash (by decide), nestedIn_marks,
    Markup.nestedIn_closingTag (by decide)]
  rfl

end Tags

section Contents

/-- The element a mark puts a symbol or an `ε` into. -/
def markElement? : Mark → Option Element
  | .symbol x y ink sym =>
    some ⟨tagged "text" (labelAttributes x y ink), Escape.markup sym, some (closingTag "text")⟩
  | .epsilon x y =>
    some ⟨tagged "text" (labelAttributes x y .empty), "&#x03B5;", some (closingTag "text")⟩
  | .strokes _ _ => none

theorem elements_strokes (strokes : List Stroke) (rest : List Piece) :
    Markup.elements "text" (strokes.map strokePiece ++ rest) = Markup.elements "text" rest := by
  induction strokes with
  | nil => rfl
  | cons s strokes ih =>
    rw [List.map_cons, List.cons_append, strokePiece, Markup.elements_cons_of_ne, ih]
    rw [Markup.name_tagged_slash (by decide)]
    decide

theorem elements_markPieces (m : Mark) (rest : List Piece) :
    Markup.elements "text" (markPieces m ++ rest) =
      (markElement? m).toList ++ Markup.elements "text" rest := by
  have hlabel (x y : Nat) (ink : Ink) (content : Text) :
      Markup.elements "text" (labelPieces x y ink content ++ rest) =
        ⟨tagged "text" (labelAttributes x y ink), content, some (closingTag "text")⟩ ::
          Markup.elements "text" rest := by
    rw [labelPieces, List.cons_append, List.append_assoc]
    exact Markup.elements_tagged (by decide) _ _
  cases m with
  | symbol x y ink sym => exact hlabel x y ink _
  | epsilon x y => exact hlabel x y .empty _
  | strokes ink strokes =>
    rw [markPieces, List.cons_append, List.append_assoc, Markup.elements_cons_of_ne,
      elements_strokes, List.cons_append, Markup.elements_cons_of_ne]
    · rfl
    · rw [Markup.name_closingTag (by decide)]
      decide
    · rw [Markup.name_tagged (by decide)]
      decide

theorem elements_marks (ms : List Mark) (rest : List Piece) :
    Markup.elements "text" (ms.flatMap markPieces ++ rest) =
      ms.filterMap markElement? ++ Markup.elements "text" rest := by
  induction ms with
  | nil => rfl
  | cons m ms ih =>
    rw [List.flatMap_cons, List.append_assoc, elements_markPieces, ih, ← List.append_assoc]
    cases h : markElement? m with
    | none => rw [List.filterMap_cons_none h]; rfl
    | some e => rw [List.filterMap_cons_some h]; rfl

/-- The text elements of a drawing are those of its marks. -/
theorem elements_text (t : Tree) :
    Markup.elements "text" (Markup.read (text t)) = t.marks.filterMap markElement? := by
  have hrest : Markup.elements "text" [.tag (closingTag "svg"), .byte '\n'.toUInt8] = [] := by
    decide
  rw [read_text, canvasPieces, List.cons_append, List.cons_append, List.cons_append,
    List.nil_append, Markup.elements_cons_of_ne, Markup.elements_cons_of_ne,
    Markup.elements_cons_of_ne, elements_marks, hrest, List.append_nil]
  · rw [Markup.name_tagged_slash (by decide)]
    decide
  · rw [Markup.name_tagged_slash (by decide)]
    decide
  · rw [Markup.name_tagged (by decide)]
    decide

/-- The text elements of a drawing hold nothing but content. -/
theorem next?_of_mem_elements {t : Tree} {e : Element}
    (h : e ∈ Markup.elements "text" (Markup.read (text t))) :
    e.next? = some (closingTag "text") := by
  rw [elements_text] at h
  rcases List.mem_filterMap.1 h with ⟨m, -, hm⟩
  cases m with
  | symbol x y ink sym => cases hm; rfl
  | epsilon x y => cases hm; rfl
  | strokes ink strokes => cases hm

/-- The content of an element, as it can be read, if the element is not in the colour of `ε`. -/
def elementText? (e : Element) : Option Text :=
  if Markup.attribute? "fill" e.tag = some (colour .empty) then none
  else some (Markup.unescape e.content)

/-- The contents that a reader finds in the text elements of a drawing, apart from those in the
    colour of `ε`. -/
def legible (drawing : Text) : List Text :=
  (Markup.elements "text" (Markup.read drawing)).filterMap elementText?

theorem attribute?_fill (x y : Nat) (ink : Ink) :
    Markup.attribute? "fill" (tagged "text" (labelAttributes x y ink)) = some (colour ink) := by
  rw [Markup.attribute?, Markup.attributes_tagged (by decide) (proper_labelAttributes x y ink)]
  rfl

theorem colour_eq_empty_iff (ink : Ink) : colour ink = colour .empty ↔ ink = .empty := by
  cases ink <;> decide

-- What has been escaped is unescaped.
theorem bind_markElement? (m : Mark) : (markElement? m).bind elementText? = m.symbol? := by
  cases m with
  | symbol x y ink sym =>
    rw [markElement?, Option.bind_some, elementText?, attribute?_fill, Markup.unescape_escaped,
      Mark.symbol?]
    simp only [Option.some_inj, colour_eq_empty_iff]
  | epsilon x y =>
    rw [markElement?, Option.bind_some, elementText?, attribute?_fill, if_pos rfl, Mark.symbol?]
  | strokes ink strokes => rfl

/-- The symbols in a drawing can be read, in the order in which they are painted. -/
theorem legible_text (t : Tree) : legible (text t) = t.written := by
  rw [legible, elements_text, List.filterMap_filterMap]
  simp only [bind_markElement?]
  rw [Tree.marks, Tree.filterMap_symbol?_draw]

end Contents

/-- Whatever the symbols of a tree are, they do not become markup. The tags in a drawing depend
    on the shape of the tree alone, and they are well nested. Text elements hold nothing but
    content, and what can be read in them, apart from the `ε`s, are the symbols, those of leaves
    twice and that of a node after those of its descendants. -/
theorem symbols_stay_content (s t : Tree) (h : s.shape = t.shape) :
    Markup.tags (Markup.read (text s)) = Markup.tags (Markup.read (text t)) ∧
      Markup.wellNested (Markup.tags (Markup.read (text s))) = true ∧
      (∀ e ∈ Markup.elements "text" (Markup.read (text s)),
        e.next? = some (closingTag "text")) ∧
      legible (text s) = s.written := by
  refine ⟨?_, wellNested_text s, fun e he => next?_of_mem_elements he, legible_text s⟩
  rw [← tags_shape s, ← tags_shape t, h]

/-- A tree with brackets, quotes, entities and whole tags for symbols. -/
def hostile : Tree :=
  .node "</text><script>" [.leaf "\"/>", .node "" [], .leaf "&lt;'&", .leaf "<!--"]

/-- A tree of the same shape without them. -/
def harmless : Tree :=
  .node "S" [.leaf "a", .node "B" [], .leaf "c", .leaf "d"]

/-- The symbols can be told apart from the tags. -/
theorem symbols_stay_content_hostile :
    hostile.shape = harmless.shape ∧
      Markup.tags (Markup.read (text hostile)) = Markup.tags (Markup.read (text harmless)) ∧
      legible (text hostile) =
        (["\"/>", "\"/>", "", "&lt;'&", "&lt;'&", "<!--", "<!--", "</text><script>"] :
          List Symbol) := by
  have hshape : hostile.shape = harmless.shape := rfl
  rcases symbols_stay_content hostile harmless hshape with ⟨htags, -, -, hlegible⟩
  exact ⟨hshape, htags, hlegible⟩

end Svg

end Derivations
