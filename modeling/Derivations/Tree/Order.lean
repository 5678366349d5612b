import Derivations.Tree.Basic

/-!
# Presentation Order

Trees are presented in an order that depends on what they look like and not on
how they were found: shorter yields first, yields of equal length in byte
order, and lower trees before higher ones. Different derivations of a sentence
may compare as equal, so the order serves to arrange trees, not to tell them
apart; trees that compare as equal stay in the order they came in.

## Main definitions

* `Tree.rank`: What the place of a tree depends on.
* `Tree.ascending`: Compares two trees; negative if the first comes first.
* `Tree.sort`: Trees in presentation order.
-/

namespace Derivations

namespace Tree

/-- Byte order of texts as a number: negative, zero or positive. -/
def compareTexts (a b : Text) : Int :=
  if a = b then 0 else if a < b then -1 else 1

/-- What the place of a tree depends on. -/
structure Rank where
  yield : Text
  /-- How many characters the yield has. -/
  length : Nat
  height : Nat

/-- What the place of the tree depends on. -/
def rank (t : Tree) : Rank :=
  ⟨t.yield, t.yieldLength, t.height⟩

/-- Compares by the length of the yields, then by the yields, then by the
    heights. The result is negative if the first comes first, positive if the
    second does, and zero if neither takes precedence. -/
def Rank.ascending (r s : Rank) : Int :=
  if r.length ≠ s.length then (r.length : Int) - s.length
  else if r.yield ≠ s.yield then compareTexts r.yield s.yield
  else (r.height : Int) - s.height

/-- Compares two trees by their ranks. -/
def ascending (s t : Tree) : Int :=
  s.rank.ascending t.rank

/-- Trees in presentation order, by a stable sort. -/
def sort (ts : List Tree) : List Tree :=
  ts.mergeSort fun s t => decide (ascending s t ≤ 0)

end Tree

end Derivations
