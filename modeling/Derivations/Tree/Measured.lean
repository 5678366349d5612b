import Derivations.Collection.Rope
import Derivations.Tree.Order
import Derivations.Tree.Yield

/-!
# Trees with their Measures

The chart compares trees often and builds new ones from old ones, so it keeps
every tree together with its hash and with what its place among other trees
depends on: its height and the symbols it shows. All of this is determined by
the tree, and the type says so; what holds for a node follows in one step from
what holds for its children. Trees share their parts, and a tree of few parts
may have more nodes than could ever be counted, yet it is compared and put in
its place without a look at them.

## Main definitions

* `MeasuredTree`: A tree with its measures.
* `MeasuredTree.ofTree`: A tree, measured.
* `MeasuredTree.node`: A node over a chain of children.
* `MeasuredTree.rank`: What the place of the tree depends on.
* `MeasuredTree.sorted`: Trees in presentation order.

## Theorems

* `MeasuredTree.rank_eq_rank`: The measures tell the rank of the tree.
* `MeasuredTree.sorted_eq_sort`: Sorting by ranks that are known is sorting the
  trees.
-/

namespace Derivations

/-- A tree with its hash, its height and the symbols it shows. -/
structure MeasuredTree where
  tree : Tree
  hash : UInt64
  height : Nat
  visible : Rope Symbol
  hash_eq : hash = tree.hash
  height_eq : height = tree.height
  visible_eq : visible.toList = tree.visible

namespace MeasuredTree

/-- A tree, measured. -/
def ofTree (t : Tree) : MeasuredTree :=
  ⟨t, t.hash, t.height, .ofList t.visible, rfl, rfl, Rope.toList_ofList _⟩

instance : Inhabited MeasuredTree := ⟨ofTree default⟩

instance : Hashable MeasuredTree := ⟨MeasuredTree.hash⟩

/-- Comparison that looks at the hashes first. -/
def same (s t : MeasuredTree) : Bool :=
  s.hash == t.hash && decide (s.tree = t.tree)

instance : BEq MeasuredTree := ⟨same⟩

/-- A leaf with its measures. -/
def leaf (sym : Symbol) : MeasuredTree :=
  ofTree (.leaf sym)

/-- The hash of a chain of measured trees is the hash of the trees. -/
theorem listHash_eq_hashAll (ts : List MeasuredTree) :
    Chain.listHash ts = Tree.hashAll (ts.map (·.tree)) := by
  induction ts with
  | nil => rfl
  | cons t ts ih =>
    simp only [Chain.listHash, List.map_cons, Tree.hashAll, ih]
    rw [← t.hash_eq]
    rfl

/-- The greatest height of measured trees is that of the trees. -/
theorem foldr_height_eq_heightAll (ts : List MeasuredTree) :
    ts.foldr (fun t h => max t.height h) 0 = Tree.heightAll (ts.map (·.tree)) := by
  induction ts with
  | nil => rfl
  | cons t ts ih => rw [List.foldr_cons, List.map_cons, Tree.heightAll, ih, t.height_eq]

/-- What measured trees show side by side is what the trees show. -/
theorem toList_concat_visible (ts : List MeasuredTree) :
    (Rope.concat (ts.map (·.visible))).toList = Tree.visibleAll (ts.map (·.tree)) := by
  induction ts with
  | nil => rfl
  | cons t ts ih =>
    rw [List.map_cons, List.map_cons, Tree.visibleAll_cons, ← ih, ← t.visible_eq]
    simp

/-- A node over a chain of children. -/
def node (sym : Symbol) (children : Chain MeasuredTree) : MeasuredTree where
  tree := .node sym (children.items.map (·.tree))
  hash := Fnv.hash sym * 7 + children.hash
  height := 1 + children.items.foldr (fun t h => max t.height h) 0
  visible := .concat (children.items.map (·.visible))
  hash_eq := by rw [Tree.hash, children.hash_eq, listHash_eq_hashAll]
  height_eq := by rw [Tree.height, foldr_height_eq_heightAll]
  visible_eq := toList_concat_visible children.items

/-- The symbol at the root. -/
def symbol (t : MeasuredTree) : Symbol :=
  t.tree.symbol

/-- What the place of the tree depends on. -/
def rank (t : MeasuredTree) : Tree.Rank :=
  let yield := Text.words t.visible.toList
  ⟨yield, Utf8.count yield, t.height⟩

/-- The measures tell the rank of the tree. -/
theorem rank_eq_rank (t : MeasuredTree) : t.rank = t.tree.rank := by
  rw [rank, Tree.rank, Tree.yieldLength, t.visible_eq, t.height_eq, Tree.yield_eq_words]

/-- Trees in presentation order. Every tree is ranked once, before the sort. -/
def sorted (ts : List MeasuredTree) : List Tree :=
  ((ts.map fun t => (t.rank, t.tree)).mergeSort fun r s =>
    decide (r.1.ascending s.1 ≤ 0)).map (·.2)

/-- Sorting by ranks that are known is sorting by comparison of the trees. -/
theorem sorted_eq_sort (ts : List MeasuredTree) :
    sorted ts = Tree.sort (ts.map (·.tree)) := by
  have hr : (ts.map fun t => (t.rank, t.tree)) =
      (ts.map (·.tree)).map fun t => (t.rank, t) := by
    simp [rank_eq_rank]
  have hs : ((ts.map (·.tree)).mergeSort fun s t => decide (s.ascending t ≤ 0)).map
        (fun t => (t.rank, t)) =
      ((ts.map (·.tree)).map fun t => (t.rank, t)).mergeSort fun r s =>
        decide (r.1.ascending s.1 ≤ 0) :=
    List.map_mergeSort fun _ _ _ _ => rfl
  rw [sorted, hr, ← hs, List.map_map]
  exact List.map_id _

end MeasuredTree

end Derivations
