import Derivations.Symbol
import Derivations.Collection.Chain
import Derivations.Digest.Fnv

/-!
# Derivation Trees

A derivation tree is a leaf, which carries an input symbol, or a node, which
carries the left-hand side of a production and one child for every symbol of
its right-hand side. A node without children applies an ε-production.

The attributes of a tree are given by recursion on it, each by a pair of
functions: one for trees, and one for the children of a node taken together.

## Main definitions

* `Tree`: A leaf or a node.
* `Tree.frontier`: The symbols of the leaves, from left to right.
* `Tree.leafCount`: How many leaves there are.
* `Tree.height`: How many nodes the longest path from the root has.
* `Tree.width`: How many leaves wide a drawing is.
* `Tree.counts`: Both numbers as they are kept with a tree, in words.
* `Tree.yield`: The frontier as a text.
* `Tree.hash`: A hash that equal trees share.
* `Tree.same`: Comparison guided by the hash.
* `Tree.bracketed`: The tree in bracket notation.
-/

namespace Derivations

/-- A derivation tree. -/
inductive Tree where
  /-- An input symbol. -/
  | leaf (sym : Symbol)
  /-- A production applied to the symbol on its left-hand side. -/
  | node (sym : Symbol) (children : List Tree)
deriving Repr, Inhabited

namespace Tree

/-- The symbol at the root. -/
def symbol : Tree → Symbol
  | leaf sym => sym
  | node sym _ => sym

/-- The children of the root. A leaf has none. -/
def children : Tree → List Tree
  | leaf _ => []
  | node _ children => children

/-- Whether the tree is a leaf. -/
def isLeaf : Tree → Bool
  | leaf _ => true
  | node _ _ => false

/-- Whether the root applies an ε-production. -/
def isEmptyNode : Tree → Bool
  | node _ [] => true
  | _ => false

mutual

/-- Equality of trees is decided node by node. Trees are often made of the same
    parts, so children that are one and the same object are not looked into. -/
def decEq : (s t : Tree) → Decidable (s = t)
  | leaf a, leaf b =>
    if h : a = b then isTrue (by rw [h]) else isFalse fun e => h (Tree.leaf.inj e)
  | leaf _, node _ _ => isFalse fun e => nomatch e
  | node _ _, leaf _ => isFalse fun e => nomatch e
  | node a xs, node b ys =>
    if h : a = b then
      match decEqAll xs ys with
      | isTrue hc => isTrue (by rw [h, hc])
      | isFalse hc => isFalse fun e => hc (Tree.node.inj e).2
    else
      isFalse fun e => h (Tree.node.inj e).1

/-- Equality of lists of trees is decided tree by tree. -/
def decEqAll : (xs ys : List Tree) → Decidable (xs = ys)
  | [], [] => isTrue rfl
  | [], _ :: _ => isFalse fun e => nomatch e
  | _ :: _, [] => isFalse fun e => nomatch e
  | x :: xs, y :: ys =>
    match withPtrEqDecEq x y fun _ => decEq x y with
    | isTrue h =>
      match decEqAll xs ys with
      | isTrue hs => isTrue (by rw [h, hs])
      | isFalse hs => isFalse fun e => hs (List.cons.inj e).2
    | isFalse h => isFalse fun e => h (List.cons.inj e).1

end

instance : DecidableEq Tree := fun s t => withPtrEqDecEq s t fun _ => decEq s t

mutual

/-- The symbols of the leaves, from left to right. -/
def frontier : Tree → List Symbol
  | leaf sym => [sym]
  | node _ children => frontierAll children

/-- The symbols of the leaves of several trees. -/
def frontierAll : List Tree → List Symbol
  | [] => []
  | t :: ts => t.frontier ++ frontierAll ts

end

mutual

/-- How many leaves there are. -/
def leafCount : Tree → Nat
  | leaf _ => 1
  | node _ children => leafCountAll children

/-- How many leaves several trees have. -/
def leafCountAll : List Tree → Nat
  | [] => 0
  | t :: ts => t.leafCount + leafCountAll ts

end

mutual

/-- How many nodes the longest path from the root to a leaf has. -/
def height : Tree → Nat
  | leaf _ => 1
  | node _ children => 1 + heightAll children

/-- The height of the highest of several trees, zero if there is none. -/
def heightAll : List Tree → Nat
  | [] => 0
  | t :: ts => max t.height (heightAll ts)

end

mutual

/-- How many leaves wide a drawing is. A node without children takes the room
    of a leaf. -/
def width : Tree → Nat
  | leaf _ => 1
  | node _ children => max 1 (widthAll children)

/-- How wide several trees are side by side. -/
def widthAll : List Tree → Nat
  | [] => 0
  | t :: ts => t.width + widthAll ts

end

/-- The numbers that are kept with a tree: how many leaves there are, and how wide it is. They
    are words of 64 bits. Trees share their parts, so a few dozen nodes may make up a tree with
    more leaves than a word can tell, and then the numbers wrap around. -/
structure Counts where
  leaves : Int64
  width : Int64
deriving DecidableEq, Repr

mutual

/-- The numbers kept with a tree. -/
def counts : Tree → Counts
  | leaf _ => ⟨1, 1⟩
  | node _ children =>
    let sums := countsAll children
    ⟨sums.leaves, max 1 sums.width⟩

/-- The sums of the numbers kept with several trees. -/
def countsAll : List Tree → Counts
  | [] => ⟨0, 0⟩
  | t :: ts =>
    let first := t.counts
    let rest := countsAll ts
    ⟨first.leaves + rest.leaves, first.width + rest.width⟩

end

mutual

/-- The symbols of the leaves, separated by blanks. A part that derives
    nothing visible leaves no blank behind. -/
def yield : Tree → Text
  | leaf sym => sym
  | node _ children => Text.words (yieldAll children)

/-- What several trees yield, leaving out those which yield nothing. -/
def yieldAll : List Tree → List Text
  | [] => []
  | t :: ts =>
    match t.yield with
    | [] => yieldAll ts
    | b :: rest => (b :: rest) :: yieldAll ts

end

/-- How many characters the yield has. -/
def yieldLength (t : Tree) : Nat :=
  Utf8.count t.yield

mutual

/-- A hash that depends on the symbol at every node and on the order of the
    children. -/
protected def hash : Tree → UInt64
  | leaf sym => Fnv.hash sym
  | node sym children => Fnv.hash sym * 7 + hashAll children

/-- The hash of several trees, computed like that of a chain. -/
def hashAll : List Tree → UInt64
  | [] => Chain.emptyHash
  | t :: ts => t.hash + 31 * hashAll ts

end

instance : Hashable Tree := ⟨Tree.hash⟩

/-- Comparison of trees that looks at their hashes first: most trees that
    differ are told apart by them, and only those which agree are compared
    node by node. -/
def same (s t : Tree) : Bool :=
  s.hash == t.hash && decide (s = t)

mutual

/-- The tree in bracket notation, followed by a text. Writing in front of what
    follows touches every byte once, however deep the tree is. -/
def bracketedBefore : Tree → Text → Text
  | leaf sym, rest => sym ++ rest
  | node sym children, rest => "(" ++ (sym ++ bracketedAllBefore children (")" ++ rest))

/-- Children in bracket notation, a blank in front of each, followed by a
    text. -/
def bracketedAllBefore : List Tree → Text → Text
  | [], rest => rest
  | t :: ts, rest => " " ++ t.bracketedBefore (bracketedAllBefore ts rest)

end

/-- Bracket notation: a leaf is its symbol, a node stands in parentheses with
    its symbol in front of its children, and blanks separate them. -/
def bracketed (t : Tree) : Text :=
  t.bracketedBefore []

/-- Children in bracket notation, a blank in front of each. -/
def bracketedAll (ts : List Tree) : Text :=
  bracketedAllBefore ts []

mutual

/-- What follows a tree has no part in how it is written. -/
theorem bracketedBefore_eq_append (t : Tree) (rest : Text) :
    t.bracketedBefore rest = t.bracketed ++ rest := by
  match t with
  | leaf sym => simp [bracketed, bracketedBefore]
  | node sym children =>
    simp only [bracketed, bracketedBefore]
    rw [bracketedAllBefore_eq_append children (")" ++ rest),
      bracketedAllBefore_eq_append children (")" ++ ([] : Text))]
    simp

/-- What follows the children has no part in how they are written. -/
theorem bracketedAllBefore_eq_append (ts : List Tree) (rest : Text) :
    bracketedAllBefore ts rest = bracketedAll ts ++ rest := by
  match ts with
  | [] => simp [bracketedAll, bracketedAllBefore]
  | t :: ts =>
    simp only [bracketedAll, bracketedAllBefore]
    rw [bracketedBefore_eq_append t (bracketedAllBefore ts rest),
      bracketedBefore_eq_append t (bracketedAllBefore ts []),
      bracketedAllBefore_eq_append ts rest, bracketedAllBefore_eq_append ts []]
    simp

end

@[simp]
theorem bracketed_leaf (sym : Symbol) : (leaf sym).bracketed = sym := by
  simp [bracketed, bracketedBefore]

@[simp]
theorem bracketed_node (sym : Symbol) (children : List Tree) :
    (node sym children).bracketed = "(" ++ sym ++ bracketedAll children ++ ")" := by
  rw [bracketed, bracketedBefore, bracketedAllBefore_eq_append]
  simp

@[simp]
theorem bracketedAll_nil : bracketedAll [] = [] :=
  rfl

@[simp]
theorem bracketedAll_cons (t : Tree) (ts : List Tree) :
    bracketedAll (t :: ts) = " " ++ t.bracketed ++ bracketedAll ts := by
  rw [bracketedAll, bracketedAllBefore, bracketedBefore_eq_append, bracketedAllBefore_eq_append]
  simp

mutual

/-- The tree and all trees within it, every tree in front of its children. -/
def subtrees : Tree → List Tree
  | leaf sym => [leaf sym]
  | node sym children => node sym children :: subtreesAll children

/-- Several trees and all trees within them. -/
def subtreesAll : List Tree → List Tree
  | [] => []
  | t :: ts => t.subtrees ++ subtreesAll ts

end

end Tree

end Derivations
