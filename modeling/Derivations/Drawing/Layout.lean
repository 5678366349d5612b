import Derivations.Tree.Basic
import Derivations.Collection.Supply

/-!
# Layout of Drawings

Where the symbols and lines of a drawn tree go. The leaves of a tree stand side
by side at a fixed distance, each node is centered above its children, and each
level takes a fixed height. Below the tree there is a strip in which the
sentence can be read from left to right, and every leaf is drawn a second time
there. A node without children gets an `ε` below it.

A drawing is a sequence of marks, in the order in which they are painted:
children come before their parents. The marks can be had as a supply, so that
a drawing which nobody wants to the end is not painted to the end.

## Main definitions

* `Ink`: What a label or a line belongs to.
* `Mark`: A label or a group of lines.
* `Tree.rows`: The number of rows a tree needs.
* `Tree.draw`, `Tree.marks`: The marks of a tree and the place of its root.
* `Tree.paint`, `Tree.painting`: The marks, made one at a time.

## Theorems

* `Tree.toList_painting`: A supply of marks holds the marks of the tree.
-/

namespace Derivations

namespace Layout

/-- The distance of neighbouring leaves. -/
def leafDistance : Nat := 30

/-- The distance of neighbouring rows. -/
def rowHeight : Nat := 45

/-- The height of the strip with the sentence. -/
def stripHeight : Nat := 30

/-- The gap between a line and the symbol below it. -/
def gapAbove : Nat := 15

/-- The gap between a symbol and the lines below it. -/
def gapBelow : Nat := 5

/-- The place of the leftmost leaf. -/
def leftMargin : Nat := leafDistance / 2

/-- The place of the root below the upper edge. -/
def topMargin : Nat := 30

end Layout

/-- What a label or a line belongs to, which decides about its colour. -/
inductive Ink where
  | nonTerminal
  | terminal
  | empty
deriving DecidableEq, Repr

/-- A line from one point to another. -/
structure Stroke where
  x₁ : Nat
  y₁ : Nat
  x₂ : Nat
  y₂ : Nat
deriving DecidableEq, Repr

/-- A part of a drawing. -/
inductive Mark where
  /-- A symbol, centered at a point. -/
  | symbol (x y : Nat) (ink : Ink) (sym : Symbol)
  /-- The `ε` below a node without children. -/
  | epsilon (x y : Nat)
  /-- Lines of one kind. -/
  | strokes (ink : Ink) (strokes : List Stroke)
deriving DecidableEq, Repr

namespace Tree

open Layout

mutual

/-- The number of rows a tree needs. A node without children needs two, one of
    them for the `ε` below it. -/
def rows : Tree → Nat
  | leaf _ => 1
  | node _ children => max 1 (rowsAll children) + 1

/-- The number of rows several trees need side by side. -/
def rowsAll : List Tree → Nat
  | [] => 0
  | t :: ts => max t.rows (rowsAll ts)

end

/-- The middle of the places of children: that of the one in the middle, or
    halfway between the two in the middle. -/
def middle (xs : List Nat) : Nat :=
  (xs.getD ((xs.length - 1) / 2) 0 + xs.getD (xs.length / 2) 0) / 2

/-- The marks of a leaf at a point: the symbol, the symbol in the strip, and a
    line between them. -/
def drawLeaf (sym : Symbol) (x y levels : Nat) : List Mark :=
  let stripY := y + levels * rowHeight - 10
  [.symbol x y .terminal sym, .symbol x stripY .terminal sym,
    .strokes .terminal [⟨x, y + gapBelow, x, stripY - gapAbove⟩]]

/-- The marks of a node without its children: the symbol, and lines to the
    children or to the `ε` that stands in for them. -/
def drawNode (sym : Symbol) (x y : Nat) (children : List Nat) : List Mark :=
  let below := y + rowHeight
  if children.isEmpty then
    [.symbol x y .nonTerminal sym, .epsilon x below,
      .strokes .empty [⟨x, y + gapBelow, x, below - gapAbove⟩]]
  else
    [.symbol x y .nonTerminal sym,
      .strokes .nonTerminal (children.map fun cx => ⟨x, y + gapBelow, cx, below - gapAbove⟩)]

mutual

/-- The marks of a tree, and where its root is placed, if its leftmost leaf is
    to be at `x`, its root at height `y`, and there are `levels` rows down to
    the strip. -/
def draw (x y levels : Nat) : Tree → Nat × List Mark
  | leaf sym => (x, drawLeaf sym x y levels)
  | node sym children =>
    let (places, marks) := drawAll x (y + rowHeight) (levels - 1) children
    let root := if places.isEmpty then x else middle places
    (root, marks ++ drawNode sym root y places)

/-- The marks of several trees side by side, and where their roots are placed. -/
def drawAll (x y levels : Nat) : List Tree → List Nat × List Mark
  | [] => ([], [])
  | t :: ts =>
    let (place, marks) := draw x y levels t
    let (places, others) := drawAll (x + t.width * leafDistance) y levels ts
    (place :: places, marks ++ others)

end

/-- The marks of a drawing of a tree. -/
def marks (t : Tree) : List Mark :=
  (t.draw leftMargin topMargin t.rows).2

mutual

/-- The marks of a tree, made one at a time, and what comes after them. This is
    told where the root is placed, and where the next leaf would be. -/
def paint (x y levels : Nat) : Tree → (Nat → Nat → Supply Mark) → Supply Mark
  | leaf sym, after => .prepend (drawLeaf sym x y levels) fun _ => after x (x + leafDistance)
  | node sym children, after =>
    paintAll x (y + rowHeight) (levels - 1) children fun places stop =>
      let root := if places.isEmpty then x else middle places
      .prepend (drawNode sym root y places) fun _ =>
        after root (if places.isEmpty then x + leafDistance else stop)

/-- The marks of several trees side by side, made one at a time, and what comes
    after them. -/
def paintAll (x y levels : Nat) : List Tree → (List Nat → Nat → Supply Mark) → Supply Mark
  | [], after => after [] x
  | t :: ts, after =>
    paint x y levels t fun place next =>
      paintAll next y levels ts fun places stop => after (place :: places) stop

end

/-- The marks of a drawing of a tree, made one at a time. -/
def painting (t : Tree) : Supply Mark :=
  t.paint leftMargin topMargin t.rows fun _ _ => .empty

/-- Every tree takes some room. -/
theorem one_le_width (t : Tree) : 1 ≤ t.width := by
  cases t with
  | leaf _ => exact Nat.le_refl 1
  | node _ _ => exact Nat.le_max_left 1 _

mutual

/-- Making the marks one at a time makes the marks of the tree, and the next
    leaf would be behind all of it. -/
theorem toList_paint (x y levels : Nat) (t : Tree) (after : Nat → Nat → Supply Mark) :
    (paint x y levels t after).toList =
      (draw x y levels t).2 ++
        (after (draw x y levels t).1 (x + t.width * leafDistance)).toList := by
  match t with
  | leaf sym => simp [paint, draw, width]
  | node sym children =>
    rw [paint, toList_paintAll, draw, width]
    cases children with
    | nil => simp [drawAll, widthAll]
    | cons t ts =>
      have hw : 1 ≤ widthAll (t :: ts) :=
        Nat.le_trans (one_le_width t) (by rw [widthAll]; exact Nat.le_add_right _ _)
      have hp : (drawAll x (y + rowHeight) (levels - 1) (t :: ts)).1.isEmpty = false := by
        simp [drawAll]
      simp [hp, Nat.max_eq_right hw]

/-- The same of several trees. -/
theorem toList_paintAll (x y levels : Nat) (ts : List Tree)
    (after : List Nat → Nat → Supply Mark) :
    (paintAll x y levels ts after).toList =
      (drawAll x y levels ts).2 ++
        (after (drawAll x y levels ts).1 (x + widthAll ts * leafDistance)).toList := by
  match ts with
  | [] => simp [paintAll, drawAll, widthAll]
  | t :: ts =>
    rw [paintAll, toList_paint, toList_paintAll]
    simp [drawAll, widthAll, Nat.add_mul, Nat.add_assoc]

end

/-- The supply of marks holds the marks of the tree. -/
theorem toList_painting (t : Tree) : t.painting.toList = t.marks := by
  simp [painting, marks, toList_paint]

end Tree

end Derivations
