import Derivations.Tree.Basic
import Derivations.Span

/-!
# Walking a Tree

A walk visits the nodes of a tree from the root down and tells a listener
about them: when a node is entered, when it is left, and when a leaf is met.
The listener decides on entering whether the walk goes on to the children, and
computes a value for every node from the values of the children, so that a
walk from the root down evaluates the tree from the leaves up.

With every node comes its context: which part of the input it covers, how deep
it lies and which child it is. The spans follow from the number of leaves of
the siblings in front, so they do not depend on the order of the visit and not
on which subtrees are skipped.

Children are visited from left to right or from right to left; their values
are handed over from left to right in either case.

## Main definitions

* `Context`: Where a node lies.
* `Direction`: The order in which children are visited.
* `Listener`: What is told about nodes, with a state of its own.
* `Tree.walk`: The walk.
-/

namespace Derivations

/-- Where a node lies: the part of the input it covers, its depth below the
    root, and its place among the children of its parent. The root, having no
    parent, has no place. -/
structure Context where
  span : Span
  level : Nat
  place : Option Nat
deriving DecidableEq, Repr

/-- The order in which children are visited. -/
inductive Direction where
  | leftToRight
  | rightToLeft
deriving DecidableEq, Repr

/-- Directions are given as numbers: minus one is right to left, and every
    other number is left to right. -/
def Direction.ofInt (n : Int) : Direction :=
  if n = -1 then .rightToLeft else .leftToRight

/-- What a walk tells about nodes. A listener has a state of type `σ` and
    computes values of type `α`. -/
structure Listener (σ α : Type) where
  /-- A node is entered; the answer tells whether to visit its children. -/
  enter : Symbol → List Tree → Context → StateM σ Bool
  /-- A node is left, with the values of its children, or with none if they
      have not been visited. -/
  exit : Symbol → List Tree → Option (List α) → Context → StateM σ α
  /-- A leaf is met. -/
  terminal : Symbol → Context → StateM σ α

namespace Tree

mutual

/-- Visits a tree in a given context. -/
def walkIn (l : Listener σ α) (dir : Direction) (c : Context) : Tree → StateM σ α
  | leaf sym => l.terminal sym c
  | node sym children => do
    if ← l.enter sym children c then
      let values ← walkAll l dir (c.level + 1) c.span.start 0 children
      l.exit sym children (some values) c
    else
      l.exit sym children none c

/-- Visits siblings, the first of which is child number `i` and starts at input
    position `start`. -/
def walkAll (l : Listener σ α) (dir : Direction) (level : Nat) (start : UInt64) (i : Nat) :
    List Tree → StateM σ (List α)
  | [] => pure []
  | t :: ts => do
    let stop := start + UInt64.ofNat t.leafCount
    let here := walkIn l dir ⟨⟨start, stop⟩, level, some i⟩ t
    let there := walkAll l dir level stop (i + 1) ts
    match dir with
    | .leftToRight =>
      let v ← here
      let vs ← there
      return v :: vs
    | .rightToLeft =>
      let vs ← there
      let v ← here
      return v :: vs

end

/-- The context of the root of a tree. -/
def rootContext (t : Tree) : Context :=
  ⟨⟨0, UInt64.ofNat t.leafCount⟩, 0, none⟩

/-- Visits a tree, telling the listener about its nodes. -/
def walk (t : Tree) (l : Listener σ α) (dir : Direction) : StateM σ α :=
  walkIn l dir t.rootContext t

end Tree

end Derivations
