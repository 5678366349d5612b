import Derivations.Proofs.Drawing.Content

/-!
# Where Labels Stand

A tree is drawn in one pass over it. What lies below a node is drawn first, in a strip of the
drawing as wide as the node has leaves, and the node is centered above its children when it is
known where they have been placed. Nothing is moved afterwards, so labels in the same row must
not get too close to each other in the first place, even if they belong to parts of the tree
that have been drawn far apart in time.

What keeps them apart is the room of a tree, which is that of its leaves. In every row, what is
drawn of a tree stays within its room, half a leaf away from the borders, and the rooms of
siblings do not overlap. The middle of the places of children is between the first and the last
of them, so a node does not leave the room either.

A drawing has as many rows as the tree needs. That is not its height, since an `ε` takes a row
of its own. The strip with the sentence comes below the last row.

## Main definitions

* `Label`, `Tree.labels`: The labels in a drawing.
* `Placed`: A tree with a place for every symbol.
* `Placed.row`, `Placed.leaves`: What there is to be read in a row, and in the strip.
* `Placed.Centered`: Nodes stand above their children.
* `Spread`: Places are within a room, and apart from each other.
* `Tree.Arranged`: Labels stand where they should.

## Theorems

* `Tree.readAt_row_drawn`: What is drawn in a row.
* `Tree.readAt_strip_drawn`: What is drawn in the strip.
* `Tree.spread_row`, `Tree.spread_leaves`: Rows and the strip keep within the room of the tree.
* `Tree.centered_place`: Nodes are placed above their children.
* `Tree.labels_arranged`: Labels stand where they should.
-/

namespace Derivations

open Layout

/-- A label in a drawing: a symbol or, if there is none, an `ε`. -/
structure Label where
  x : Nat
  y : Nat
  sym? : Option Symbol
deriving DecidableEq, Repr

/-- The label that a mark is. -/
def Mark.label? : Mark → Option Label
  | symbol x y _ sym => some ⟨x, y, some sym⟩
  | epsilon x y => some ⟨x, y, none⟩
  | strokes _ _ => none

namespace Label

/-- A label, apart from the row in which it stands. -/
def spot (l : Label) : Nat × Option Symbol :=
  (l.x, l.sym?)

/-- The label as markup. -/
def content (l : Label) : Text :=
  match l.sym? with
  | some sym => Escape.markup sym
  | none => "&#x03B5;"

end Label

/-- The labels in a drawing of a tree. -/
def Tree.labels (t : Tree) : List Label :=
  t.marks.filterMap Mark.label?

/-- A tree with a place for every symbol. -/
inductive Placed where
  | leaf (x : Nat) (sym : Symbol)
  | node (x : Nat) (sym : Symbol) (children : List Placed)

namespace Placed

/-- The place of the root. -/
def x : Placed → Nat
  | leaf x _ => x
  | node x _ _ => x

mutual

/-- The tree without the places. -/
def tree : Placed → Tree
  | leaf _ sym => .leaf sym
  | node _ sym children => .node sym (treeAll children)

/-- Several trees without the places. -/
def treeAll : List Placed → List Tree
  | [] => []
  | p :: ps => p.tree :: treeAll ps

end

mutual

/-- What there is in a row, from left to right: the symbols at that depth, and an `ε` below
    every node without children. -/
def row : Nat → Placed → List (Nat × Option Symbol)
  | 0, leaf x sym => [(x, some sym)]
  | 0, node x sym _ => [(x, some sym)]
  | _ + 1, leaf _ _ => []
  | r + 1, node x _ children =>
    if children.isEmpty && r == 0 then [(x, none)] else rowAll r children

/-- What there is of several trees in a row. -/
def rowAll : Nat → List Placed → List (Nat × Option Symbol)
  | _, [] => []
  | r, p :: ps => p.row r ++ rowAll r ps

end

mutual

/-- The leaves, from left to right. -/
def leaves : Placed → List (Nat × Option Symbol)
  | leaf x sym => [(x, some sym)]
  | node _ _ children => leavesAll children

/-- The leaves of several trees. -/
def leavesAll : List Placed → List (Nat × Option Symbol)
  | [] => []
  | p :: ps => p.leaves ++ leavesAll ps

end

/-- Nodes do not stand to the left of their first child or to the right of the last one. -/
inductive Centered : Placed → Prop where
  | leaf (x : Nat) (sym : Symbol) : Centered (leaf x sym)
  | node (x : Nat) (sym : Symbol) (children : List Placed)
      (below : ∀ p ∈ children, Centered p)
      (between : ∀ first ∈ children.head?, ∀ last ∈ children.getLast?,
        first.x ≤ x ∧ x ≤ last.x) :
    Centered (node x sym children)

end Placed

namespace Tree

mutual

/-- A tree with the places that its symbols are given if the leftmost leaf is at `x`. -/
def place (x : Nat) : Tree → Placed
  | leaf sym => .leaf x sym
  | node sym children =>
    .node (if children.isEmpty then x else middle ((placeAll x children).map Placed.x)) sym
      (placeAll x children)

/-- Several trees side by side, with the places of their symbols. -/
def placeAll (x : Nat) : List Tree → List Placed
  | [] => []
  | t :: ts => t.place x :: placeAll (x + t.width * leafDistance) ts

end

mutual

/-- Placing symbols does not change the tree. -/
theorem tree_place (x : Nat) (t : Tree) : (t.place x).tree = t := by
  match t with
  | leaf sym => rw [place, Placed.tree]
  | node sym children => rw [place, Placed.tree, treeAll_placeAll]

theorem treeAll_placeAll (x : Nat) (ts : List Tree) : Placed.treeAll (placeAll x ts) = ts := by
  match ts with
  | [] => rw [placeAll, Placed.treeAll]
  | t :: ts => rw [placeAll, Placed.treeAll, tree_place, treeAll_placeAll]

end

theorem isEmpty_placeAll (x : Nat) (ts : List Tree) : (placeAll x ts).isEmpty = ts.isEmpty := by
  cases ts with
  | nil =>
    rw [placeAll]
    rfl
  | cons t ts =>
    rw [placeAll]
    rfl

mutual

/-- Symbols are drawn at their places. -/
theorem draw_fst (x y levels : Nat) (t : Tree) : (t.draw x y levels).1 = (t.place x).x := by
  match t with
  | leaf sym => rw [draw, place, Placed.x]
  | node sym children =>
    rw [draw, place, Placed.x]
    simp only [drawAll_fst, List.isEmpty_map, isEmpty_placeAll]

theorem drawAll_fst (x y levels : Nat) (ts : List Tree) :
    (drawAll x y levels ts).1 = (placeAll x ts).map Placed.x := by
  match ts with
  | [] => rw [drawAll, placeAll, List.map_nil]
  | t :: ts =>
    rw [drawAll, placeAll, List.map_cons, ← draw_fst x y levels t,
      ← drawAll_fst (x + t.width * leafDistance) y levels ts]

end

/-- The labels among the marks of a tree. -/
def drawn (x y levels : Nat) (t : Tree) : List Label :=
  (t.draw x y levels).2.filterMap Mark.label?

/-- The labels among the marks of several trees. -/
def drawnAll (x y levels : Nat) (ts : List Tree) : List Label :=
  (drawAll x y levels ts).2.filterMap Mark.label?

section Drawn

variable (x y levels : Nat)

theorem drawn_leaf (sym : Symbol) :
    drawn x y levels (leaf sym) =
      [⟨x, y, some sym⟩, ⟨x, y + levels * rowHeight - 10, some sym⟩] := by
  rw [drawn, draw]
  rfl

theorem drawn_node (sym : Symbol) (children : List Tree) :
    drawn x y levels (node sym children) =
      drawnAll x (y + rowHeight) (levels - 1) children ++
        ⟨((node sym children).place x).x, y, some sym⟩ ::
          if children.isEmpty then [⟨((node sym children).place x).x, y + rowHeight, none⟩]
          else [] := by
  have hroot := draw_fst x y levels (node sym children)
  rw [draw] at hroot
  rw [drawn, draw, List.filterMap_append, drawnAll, ← hroot, drawNode]
  simp only [drawAll_fst, List.isEmpty_map, isEmpty_placeAll]
  split <;> rfl

theorem drawnAll_nil : drawnAll x y levels [] = [] := by
  rw [drawnAll, drawAll]
  rfl

theorem drawnAll_cons (t : Tree) (ts : List Tree) :
    drawnAll x y levels (t :: ts) =
      drawn x y levels t ++ drawnAll (x + t.width * leafDistance) y levels ts := by
  rw [drawnAll, drawAll, List.filterMap_append, drawn, drawnAll]

end Drawn

section Heights

variable (y : Nat) {levels : Nat}

-- A row of a child is the next row of its parent, and the strip is the same.
theorem row_below (r : Nat) : y + rowHeight + r * rowHeight = y + (r + 1) * rowHeight := by
  simp only [rowHeight]
  omega

theorem strip_below (h : 1 ≤ levels) :
    y + rowHeight + (levels - 1) * rowHeight - 10 = y + levels * rowHeight - 10 := by
  simp only [rowHeight]
  omega

theorem row_ne_strip (r : Nat) (h : 1 ≤ levels) :
    y + r * rowHeight ≠ y + levels * rowHeight - 10 := by
  simp only [rowHeight]
  omega

theorem top_ne_row (r : Nat) : y ≠ y + (r + 1) * rowHeight := by
  simp only [rowHeight]
  omega

theorem top_ne_strip (h : 1 ≤ levels) : y ≠ y + levels * rowHeight - 10 := by
  simp only [rowHeight]
  omega

end Heights

/-- Every tree needs a row. -/
theorem one_le_rows (t : Tree) : 1 ≤ t.rows := by
  cases t with
  | leaf sym => rw [rows]
  | node sym children => rw [rows]; omega

mutual

/-- Labels stand in the rows that the tree needs, or in the strip. -/
theorem y_of_mem_drawn (x y levels : Nat) (t : Tree) (h : t.rows ≤ levels) :
    ∀ l ∈ drawn x y levels t,
      (∃ r < t.rows, l.y = y + r * rowHeight) ∨ l.y = y + levels * rowHeight - 10 := by
  match t with
  | leaf sym =>
    rw [drawn_leaf]
    intro l hl
    rw [List.mem_cons, List.mem_singleton] at hl
    rcases hl with rfl | rfl
    · exact .inl ⟨0, one_le_rows _, by simp⟩
    · exact .inr rfl
  | node sym children =>
    rw [rows] at h
    rw [drawn_node, rows]
    intro l hl
    rcases List.mem_append.1 hl with hl | hl
    · rcases y_of_mem_drawnAll x (y + rowHeight) (levels - 1) children (by omega) l hl with
        ⟨r, hr, hy⟩ | hy
      · exact .inl ⟨r + 1, by omega, hy.trans (row_below y r)⟩
      · exact .inr (hy.trans (strip_below y (by omega)))
    · rcases List.mem_cons.1 hl with rfl | hl
      · exact .inl ⟨0, by omega, by simp⟩
      · split at hl
        · rw [List.mem_singleton.1 hl]
          exact .inl ⟨1, by omega, by simp⟩
        · exact absurd hl List.not_mem_nil

theorem y_of_mem_drawnAll (x y levels : Nat) (ts : List Tree) (h : rowsAll ts ≤ levels) :
    ∀ l ∈ drawnAll x y levels ts,
      (∃ r < rowsAll ts, l.y = y + r * rowHeight) ∨ l.y = y + levels * rowHeight - 10 := by
  match ts with
  | [] =>
    rw [drawnAll_nil]
    exact fun l hl => absurd hl List.not_mem_nil
  | t :: ts =>
    rw [rowsAll] at h
    rw [drawnAll_cons, rowsAll]
    intro l hl
    rcases List.mem_append.1 hl with hl | hl
    · rcases y_of_mem_drawn x y levels t (by omega) l hl with ⟨r, hr, hy⟩ | hy
      · exact .inl ⟨r, by omega, hy⟩
      · exact .inr hy
    · rcases y_of_mem_drawnAll _ y levels ts (by omega) l hl with ⟨r, hr, hy⟩ | hy
      · exact .inl ⟨r, by omega, hy⟩
      · exact .inr hy

end

/-- What can be read at a given height. -/
def readAt (y : Nat) (labels : List Label) : List (Nat × Option Symbol) :=
  (labels.filter fun l => decide (l.y = y)).map Label.spot

section ReadAt

variable (y : Nat)

theorem readAt_append (ls ms : List Label) :
    readAt y (ls ++ ms) = readAt y ls ++ readAt y ms := by
  rw [readAt, List.filter_append, List.map_append, readAt, readAt]

theorem readAt_nil : readAt y [] = [] :=
  rfl

theorem readAt_cons_self (x : Nat) (sym? : Option Symbol) (ls : List Label) :
    readAt y (⟨x, y, sym?⟩ :: ls) = (x, sym?) :: readAt y ls := by
  rw [readAt, List.filter_cons_of_pos (by simp), List.map_cons, readAt]
  rfl

theorem readAt_cons_of_ne {l : Label} (h : l.y ≠ y) (ls : List Label) :
    readAt y (l :: ls) = readAt y ls := by
  rw [readAt, List.filter_cons_of_neg (by simpa using h), readAt]

theorem readAt_eq_nil {ls : List Label} (h : ∀ l ∈ ls, l.y ≠ y) : readAt y ls = [] := by
  rw [readAt, List.filter_eq_nil_iff.2 fun l hl => by simpa using h l hl, List.map_nil]

end ReadAt

mutual

/-- What can be read in a row is what is placed there. -/
theorem readAt_row_drawn (x y levels r : Nat) (t : Tree) (h : t.rows ≤ levels) :
    readAt (y + r * rowHeight) (drawn x y levels t) = (t.place x).row r := by
  match t with
  | leaf sym =>
    rw [rows] at h
    rw [drawn_leaf, place]
    cases r with
    | zero =>
      have hstrip := (row_ne_strip y 0 h).symm
      rw [Nat.zero_mul, Nat.add_zero] at hstrip ⊢
      rw [readAt_cons_self, readAt_cons_of_ne y hstrip, readAt_nil, Placed.row]
    | succ r =>
      rw [readAt_cons_of_ne _ (top_ne_row y r), readAt_cons_of_ne _ (row_ne_strip y (r + 1) h).symm,
        readAt_nil, Placed.row]
  | node sym children =>
    rw [rows] at h
    rw [drawn_node, readAt_append]
    cases r with
    | zero =>
      -- Whatever is below the node stands in other rows.
      have hbelow : readAt y (drawnAll x (y + rowHeight) (levels - 1) children) = [] := by
        refine readAt_eq_nil _ fun l hl => ?_
        rcases y_of_mem_drawnAll x (y + rowHeight) (levels - 1) children (by omega) l hl with
          ⟨r, _, hy⟩ | hy
        · rw [hy, row_below]
          exact (top_ne_row y r).symm
        · rw [hy, strip_below y (by omega)]
          exact (top_ne_strip y (by omega)).symm
      have hepsilon := (top_ne_row y 0).symm
      rw [Nat.zero_mul, Nat.add_zero, hbelow, List.nil_append, readAt_cons_self, place, Placed.row,
        Placed.x]
      rw [Nat.zero_add, Nat.one_mul] at hepsilon
      split
      · rw [readAt_cons_of_ne y hepsilon, readAt_nil]
      · rw [readAt_nil]
    | succ r =>
      rw [readAt_cons_of_ne _ (top_ne_row y r), ← row_below,
        readAt_row_drawnAll x (y + rowHeight) (levels - 1) r children (by omega), place, Placed.row,
        isEmpty_placeAll, Placed.x]
      -- If there are no children, the next row has the `ε` and those below it nothing.
      cases children with
      | nil =>
        rw [placeAll, Placed.rowAll, List.nil_append]
        cases r with
        | zero =>
          rw [Nat.zero_mul, Nat.add_zero]
          exact readAt_cons_self _ _ _ _
        | succ r => exact readAt_cons_of_ne _ (top_ne_row (y + rowHeight) r) _
      | cons t ts => exact List.append_nil _

theorem readAt_row_drawnAll (x y levels r : Nat) (ts : List Tree) (h : rowsAll ts ≤ levels) :
    readAt (y + r * rowHeight) (drawnAll x y levels ts) = Placed.rowAll r (placeAll x ts) := by
  match ts with
  | [] => rw [drawnAll_nil, readAt_nil, placeAll, Placed.rowAll]
  | t :: ts =>
    rw [rowsAll] at h
    rw [drawnAll_cons, readAt_append, readAt_row_drawn x y levels r t (by omega),
      readAt_row_drawnAll _ y levels r ts (by omega), placeAll, Placed.rowAll]

end

mutual

/-- What can be read in the strip are the leaves. -/
theorem readAt_strip_drawn (x y levels : Nat) (t : Tree) (h : t.rows ≤ levels) :
    readAt (y + levels * rowHeight - 10) (drawn x y levels t) = (t.place x).leaves := by
  match t with
  | leaf sym =>
    rw [rows] at h
    rw [drawn_leaf, readAt_cons_of_ne _ (top_ne_strip y h), readAt_cons_self, readAt_nil, place,
      Placed.leaves]
  | node sym children =>
    rw [rows] at h
    -- Neither the node nor its `ε` is in the strip.
    have hepsilon : y + 1 * rowHeight ≠ y + levels * rowHeight - 10 :=
      row_ne_strip y 1 (by omega)
    rw [Nat.one_mul] at hepsilon
    rw [drawn_node, readAt_append, readAt_cons_of_ne _ (top_ne_strip y (by omega)),
      ← strip_below y (by omega),
      readAt_strip_drawnAll x (y + rowHeight) (levels - 1) children (by omega), place,
      Placed.leaves, strip_below y (by omega)]
    split
    · rw [readAt_cons_of_ne _ hepsilon, readAt_nil, List.append_nil]
    · rw [readAt_nil, List.append_nil]

theorem readAt_strip_drawnAll (x y levels : Nat) (ts : List Tree) (h : rowsAll ts ≤ levels) :
    readAt (y + levels * rowHeight - 10) (drawnAll x y levels ts) =
      Placed.leavesAll (placeAll x ts) := by
  match ts with
  | [] => rw [drawnAll_nil, readAt_nil, placeAll, Placed.leavesAll]
  | t :: ts =>
    rw [rowsAll] at h
    rw [drawnAll_cons, readAt_append, readAt_strip_drawn x y levels t (by omega),
      readAt_strip_drawnAll _ y levels ts (by omega), placeAll, Placed.leavesAll]

end

end Tree

/-- Places are within a room that is a number of leaves wide, and a leaf apart from each
    other. -/
structure Spread (x width : Nat) (places : List Nat) : Prop where
  within : ∀ a ∈ places, x ≤ a ∧ a + leafDistance ≤ x + width * leafDistance
  apart : places.Pairwise fun a b => a + leafDistance ≤ b

namespace Spread

variable {x a width : Nat} {places : List Nat}

theorem nil (x width : Nat) : Spread x width [] :=
  ⟨fun _ h => absurd h List.not_mem_nil, List.Pairwise.nil⟩

theorem singleton (h : x ≤ a ∧ a + leafDistance ≤ x + width * leafDistance) :
    Spread x width [a] :=
  ⟨fun b hb => by rw [List.mem_singleton.1 hb]; exact h, List.pairwise_singleton _ _⟩

theorem mono {wider : Nat} (h : Spread x width places) (hw : width ≤ wider) :
    Spread x wider places := by
  have hroom := Nat.mul_le_mul_right leafDistance hw
  exact ⟨fun a ha => ⟨(h.within a ha).1, by have := (h.within a ha).2; omega⟩, h.apart⟩

/-- Rooms side by side make up one room. -/
theorem append {width' : Nat} {others : List Nat} (h : Spread x width places)
    (h' : Spread (x + width * leafDistance) width' others) :
    Spread x (width + width') (places ++ others) where
  within a ha := by
    rw [Nat.add_mul]
    rcases List.mem_append.1 ha with ha | ha
    · have := h.within a ha
      omega
    · have := h'.within a ha
      omega
  apart := by
    refine List.pairwise_append.2 ⟨h.apart, h'.apart, fun a ha b hb => ?_⟩
    exact Nat.le_trans (h.within a ha).2 (h'.within b hb).1

theorem ascending (h : Spread x width places) : places.Pairwise (· < ·) :=
  h.apart.imp fun hab => Nat.lt_of_lt_of_le (Nat.lt_add_of_pos_right (by decide)) hab

end Spread

namespace Tree

-- Places in ascending order are ordered as they are numbered.
theorem getElem_le_getElem {xs : List Nat} (h : xs.Pairwise (· ≤ ·)) {i j : Nat} (hij : i ≤ j)
    (hj : j < xs.length) : xs[i] ≤ xs[j] := by
  rcases Nat.lt_or_eq_of_le hij with hlt | rfl
  · exact List.pairwise_iff_getElem.1 h i j (by omega) hj hlt
  · exact Nat.le_refl _

/-- The middle of places is between the first and the last of them. -/
theorem middle_between {xs : List Nat} (h : xs.Pairwise (· ≤ ·)) :
    ∀ first ∈ xs.head?, ∀ last ∈ xs.getLast?, first ≤ middle xs ∧ middle xs ≤ last := by
  intro first hfirst last hlast
  have hpos : 0 < xs.length := by
    cases xs with
    | nil => cases hfirst
    | cons => exact Nat.succ_pos _
  rw [List.head?_eq_getElem?, List.getElem?_eq_getElem hpos] at hfirst
  rw [List.getLast?_eq_getElem?, List.getElem?_eq_getElem (by omega)] at hlast
  cases hfirst
  cases hlast
  have hleft : (xs.length - 1) / 2 < xs.length := by omega
  have hright : xs.length / 2 < xs.length := by omega
  rw [middle, ← List.getElem_eq_getD (h := hleft) 0, ← List.getElem_eq_getD (h := hright) 0]
  -- Both of the places in the middle come between the first and the last.
  have hfl := getElem_le_getElem h (Nat.zero_le ((xs.length - 1) / 2)) hleft
  have hfr := getElem_le_getElem h (Nat.zero_le (xs.length / 2)) hright
  have hll := getElem_le_getElem h (i := (xs.length - 1) / 2) (j := xs.length - 1) (by omega)
    (by omega)
  have hlr := getElem_le_getElem h (i := xs.length / 2) (j := xs.length - 1) (by omega) (by omega)
  omega

theorem row_zero (p : Placed) : (p.row 0).map Prod.fst = [p.x] := by
  cases p with
  | leaf x sym => rw [Placed.row]; rfl
  | node x sym children => rw [Placed.row]; rfl

theorem rowAll_zero (ps : List Placed) : (Placed.rowAll 0 ps).map Prod.fst = ps.map Placed.x := by
  induction ps with
  | nil => rw [Placed.rowAll]; rfl
  | cons p ps ih => rw [Placed.rowAll, List.map_append, row_zero, ih]; rfl

/-- If the children of a node are within their rooms, the node is between the first and the last
    of them. -/
theorem place_between {x : Nat} {ts : List Tree}
    (h : Spread x (widthAll ts) ((Placed.rowAll 0 (placeAll x ts)).map Prod.fst)) (sym : Symbol) :
    ∀ first ∈ (placeAll x ts).head?, ∀ last ∈ (placeAll x ts).getLast?,
      first.x ≤ ((node sym ts).place x).x ∧ ((node sym ts).place x).x ≤ last.x := by
  intro first hfirst last hlast
  rw [rowAll_zero] at h
  rw [place, Placed.x]
  cases ts with
  | nil =>
    rw [placeAll] at hfirst
    cases hfirst
  | cons t ts =>
    rw [if_neg (by simp)]
    exact middle_between (h.ascending.imp Nat.le_of_lt) _ (by rw [List.head?_map, hfirst]; rfl) _
      (by rw [List.getLast?_map, hlast]; rfl)

/-- The root of a tree is within the room of the tree. -/
theorem place_within {x : Nat} {ts : List Tree}
    (h : Spread x (widthAll ts) ((Placed.rowAll 0 (placeAll x ts)).map Prod.fst)) (sym : Symbol) :
    x ≤ ((node sym ts).place x).x ∧
      ((node sym ts).place x).x + leafDistance ≤ x + (node sym ts).width * leafDistance := by
  have hwidth := Nat.mul_le_mul_right leafDistance (Nat.le_max_left 1 (widthAll ts))
  have hwidthAll := Nat.mul_le_mul_right leafDistance (Nat.le_max_right 1 (widthAll ts))
  cases hplaces : placeAll x ts with
  | nil =>
    -- A node without children has the room of a leaf and stands in the middle of it.
    have hempty := isEmpty_placeAll x ts
    rw [hplaces] at hempty
    rw [place, Placed.x, width, ← hempty]
    simp only [List.isEmpty_nil, if_true]
    omega
  | cons first places =>
    -- The node is between its first and its last child, and these are within the room.
    have hlast : (placeAll x ts).getLast? = some ((first :: places).getLast (by simp)) := by
      rw [hplaces, List.getLast?_eq_some_getLast]
    have hbetween := place_between h sym first (by rw [hplaces]; rfl) _ hlast
    rw [rowAll_zero, hplaces] at h
    have hf := h.within first.x (List.mem_map_of_mem List.mem_cons_self)
    have hl := h.within _ (List.mem_map_of_mem (List.getLast_mem (by simp)))
    rw [width]
    omega

mutual

/-- What is drawn of a tree in any row is within the room of the tree. -/
theorem spread_row (x r : Nat) (t : Tree) :
    Spread x t.width (((t.place x).row r).map Prod.fst) := by
  match r, t with
  | 0, leaf sym =>
    rw [row_zero, place, Placed.x, width]
    exact .singleton ⟨Nat.le_refl _, by omega⟩
  | r + 1, leaf sym =>
    rw [place, Placed.row]
    exact .nil _ _
  | 0, node sym children =>
    rw [row_zero]
    exact .singleton (place_within (spread_rowAll x 0 children) sym)
  | r + 1, node sym children =>
    have hroot := place_within (spread_rowAll x 0 children) sym
    rw [place, Placed.x] at hroot
    rw [place, Placed.row]
    split
    -- An `ε` stands below its node.
    · exact .singleton hroot
    · rw [width]
      exact (spread_rowAll x r children).mono (Nat.le_max_right _ _)

theorem spread_rowAll (x r : Nat) (ts : List Tree) :
    Spread x (widthAll ts) ((Placed.rowAll r (placeAll x ts)).map Prod.fst) := by
  match ts with
  | [] =>
    rw [placeAll, Placed.rowAll]
    exact .nil _ _
  | t :: ts =>
    rw [placeAll, Placed.rowAll, List.map_append, widthAll]
    exact (spread_row x r t).append (spread_rowAll _ r ts)

end

mutual

/-- The leaves of a tree are within the room of the tree. -/
theorem spread_leaves (x : Nat) (t : Tree) :
    Spread x t.width ((t.place x).leaves.map Prod.fst) := by
  match t with
  | leaf sym =>
    rw [place, Placed.leaves, width]
    exact .singleton ⟨Nat.le_refl _, by simp⟩
  | node sym children =>
    rw [place, Placed.leaves, width]
    exact (spread_leavesAll x children).mono (Nat.le_max_right _ _)

theorem spread_leavesAll (x : Nat) (ts : List Tree) :
    Spread x (widthAll ts) ((Placed.leavesAll (placeAll x ts)).map Prod.fst) := by
  match ts with
  | [] =>
    rw [placeAll, Placed.leavesAll]
    exact .nil _ _
  | t :: ts =>
    rw [placeAll, Placed.leavesAll, List.map_append, widthAll]
    exact (spread_leaves x t).append (spread_leavesAll _ ts)

end

mutual

/-- The leaves are those of the tree. -/
theorem map_snd_leaves (x : Nat) (t : Tree) :
    (t.place x).leaves.map Prod.snd = t.frontier.map some := by
  match t with
  | leaf sym =>
    rw [place, Placed.leaves, frontier]
    rfl
  | node sym children => rw [place, Placed.leaves, frontier, map_snd_leavesAll]

theorem map_snd_leavesAll (x : Nat) (ts : List Tree) :
    (Placed.leavesAll (placeAll x ts)).map Prod.snd = (frontierAll ts).map some := by
  match ts with
  | [] => rw [placeAll, Placed.leavesAll, frontierAll, List.map_nil, List.map_nil]
  | t :: ts =>
    rw [placeAll, Placed.leavesAll, frontierAll, List.map_append, List.map_append,
      map_snd_leaves, map_snd_leavesAll]

end

mutual

/-- Nodes are placed above their children. -/
theorem centered_place (x : Nat) (t : Tree) : (t.place x).Centered := by
  match t with
  | leaf sym =>
    rw [place]
    exact .leaf x sym
  | node sym children =>
    have hbetween := place_between (spread_rowAll x 0 children) sym
    rw [place, Placed.x] at hbetween
    rw [place]
    exact .node _ sym _ (centered_placeAll x children) hbetween

theorem centered_placeAll (x : Nat) (ts : List Tree) : ∀ p ∈ placeAll x ts, p.Centered := by
  match ts with
  | [] =>
    rw [placeAll]
    exact fun p hp => absurd hp List.not_mem_nil
  | t :: ts =>
    rw [placeAll]
    intro p hp
    rcases List.mem_cons.1 hp with rfl | hp
    · exact centered_place x t
    · exact centered_placeAll _ ts p hp

end

/-- Labels stand where they should: within the drawing; at the height of a row or of the strip;
    in a row at least a leaf apart and in the order of the tree; and in the strip in the order of
    the sentence. A node is not to the left or to the right of all of its children. -/
structure Arranged (t : Tree) (labels : List Label) (p : Placed) : Prop where
  tree : p.tree = t
  centered : p.Centered
  within : ∀ l ∈ labels, leftMargin ≤ l.x ∧ l.x + leftMargin ≤ t.width * leafDistance
  height : ∀ l ∈ labels,
    (∃ r < t.rows, l.y = topMargin + r * rowHeight ∧ l.y < t.rows * rowHeight) ∨
      l.y = t.rows * rowHeight + 20
  row : ∀ r, readAt (topMargin + r * rowHeight) labels = p.row r
  apart : ∀ r, ((p.row r).map Prod.fst).Pairwise fun a b => a + leafDistance ≤ b
  strip : (readAt (t.rows * rowHeight + 20) labels).map Prod.snd = t.frontier.map some
  ascending : ((readAt (t.rows * rowHeight + 20) labels).map Prod.fst).Pairwise (· < ·)

theorem mem_readAt {l : Label} {labels : List Label} (h : l ∈ labels) :
    l.x ∈ (readAt l.y labels).map Prod.fst :=
  List.mem_map.2 ⟨l.spot, List.mem_map_of_mem (List.mem_filter.2 ⟨h, decide_eq_true rfl⟩), rfl⟩

-- The strip, seen from the top of the drawing.
theorem strip_eq (t : Tree) :
    topMargin + t.rows * rowHeight - 10 = t.rows * rowHeight + 20 := by
  simp only [topMargin]
  omega

theorem arranged_place (t : Tree) : t.Arranged t.labels (t.place leftMargin) := by
  have hrow (r : Nat) : readAt (topMargin + r * rowHeight) t.labels =
      (t.place leftMargin).row r :=
    readAt_row_drawn leftMargin topMargin t.rows r t (Nat.le_refl _)
  have hstrip : readAt (t.rows * rowHeight + 20) t.labels = (t.place leftMargin).leaves := by
    rw [← strip_eq]
    exact readAt_strip_drawn leftMargin topMargin t.rows t (Nat.le_refl _)
  have hheight : ∀ l ∈ t.labels, (∃ r < t.rows, l.y = topMargin + r * rowHeight) ∨
      l.y = t.rows * rowHeight + 20 := by
    rw [← strip_eq]
    exact y_of_mem_drawn leftMargin topMargin t.rows t (Nat.le_refl _)
  refine ⟨tree_place _ t, centered_place _ t, fun l hl => ?_, fun l hl => ?_, hrow,
    fun r => (spread_row _ r t).apart, ?_, ?_⟩
  -- The room of the tree begins half a leaf from the border.
  · have hroom : leftMargin ≤ l.x ∧ l.x + leafDistance ≤ leftMargin + t.width * leafDistance := by
      have hx := mem_readAt hl
      rcases hheight l hl with ⟨r, -, hy⟩ | hy
      · rw [hy, hrow] at hx
        exact (spread_row _ r t).within l.x hx
      · rw [hy, hstrip] at hx
        exact (spread_leaves _ t).within l.x hx
    simp only [leftMargin, leafDistance] at hroom ⊢
    omega
  · rcases hheight l hl with ⟨r, hr, hy⟩ | hy
    · refine .inl ⟨r, hr, hy, ?_⟩
      simp only [hy, topMargin, rowHeight]
      omega
    · exact .inr hy
  · rw [hstrip, map_snd_leaves]
  · rw [hstrip]
    exact (spread_leaves _ t).ascending

end Tree

/-- Where an element stands, as its attributes tell, and what it holds. -/
def Markup.Element.seen (e : Markup.Element) : Option Text × Option Text × Text :=
  (Markup.attribute? "x" e.tag, Markup.attribute? "y" e.tag, e.content)

/-- What a reader should see of a label. -/
def Label.seen (l : Label) : Option Text × Option Text × Text :=
  (some (Text.decimal l.x), some (Text.decimal l.y), l.content)

theorem seen_tagged (x y : Nat) (ink : Ink) (content : Text) (next? : Option Text) :
    Markup.Element.seen ⟨Markup.tagged "text" (Svg.labelAttributes x y ink), content, next?⟩ =
      (some (Text.decimal x), some (Text.decimal y), content) := by
  rw [Markup.Element.seen, Markup.attribute?, Markup.attribute?,
    Markup.attributes_tagged (by decide) (Svg.proper_labelAttributes x y ink)]
  rfl

-- A label is seen as what it is.
theorem map_seen_mark (m : Mark) :
    (Svg.markElement? m).map Markup.Element.seen = m.label?.map Label.seen := by
  cases m with
  | symbol x y ink sym => exact congrArg some (seen_tagged x y ink _ _)
  | epsilon x y => exact congrArg some (seen_tagged x y .empty _ _)
  | strokes ink strokes => rfl

namespace Tree

/-- A reader of a drawing sees its labels. -/
theorem map_seen_elements (t : Tree) :
    (Markup.elements "text" (Markup.read (Svg.text t))).map Markup.Element.seen =
      t.labels.map Label.seen := by
  rw [Svg.elements_text, labels, List.map_filterMap, List.map_filterMap]
  simp only [map_seen_mark]

/-- The labels in a drawing stand where they should, whatever the shape of the tree, and they
    are what a reader of the drawing sees. -/
theorem labels_arranged (t : Tree) :
    (∃ p : Placed, t.Arranged t.labels p) ∧
      (Markup.elements "text" (Markup.read (Svg.text t))).map Markup.Element.seen =
        t.labels.map Label.seen :=
  ⟨⟨_, arranged_place t⟩, map_seen_elements t⟩

-- The node in the middle is centered above leaves of different depth, and the `ε` below the
-- last node has a row that no leaf reaches.
example :
    (node "S" [leaf "a", node "S" [leaf "b", node "T" []]]).labels =
      [⟨15, 75, some "a"⟩, ⟨15, 200, some "a"⟩, ⟨45, 120, some "b"⟩, ⟨45, 200, some "b"⟩,
        ⟨75, 120, some "T"⟩, ⟨75, 165, none⟩, ⟨60, 75, some "S"⟩, ⟨37, 30, some "S"⟩] := by
  decide +kernel

end Tree

end Derivations
