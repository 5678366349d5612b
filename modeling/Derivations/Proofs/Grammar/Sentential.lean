import Derivations.Proofs.Grammar.Derivation
import Mathlib.Logic.Relation

/-!
# Sentential Forms

A derivation can be written down as a tree or as a sequence of steps. A step replaces
one symbol by one of its alternatives and does not look at the symbols around it, so
it can be taken in any context, and two derivations can go on side by side. A
derivation tree therefore derives its frontier from the symbol at its root: the first
step applies the production at the root, and then the children go on side by side.

Conversely, a derivation of a word of terminals can be read backwards. Each of the
terminals is a leaf, and taking back a step puts the trees for an alternative below a node
for its symbol.

## Main definitions

* `Grammar.Derives`: A sequence of symbols becomes another by any number of steps.

## Theorems

* `Grammar.Derives.within`: Derivations go on in any context.
* `Grammar.Derives.append`: Derivations go on side by side.
* `Grammar.derives_frontierAll`: Derivation trees side by side derive their frontiers.
* `Grammar.IsDerivation.derives`: A derivation tree derives its frontier.
* `Grammar.Derives.exists_trees`: Derivations of words of terminals come from trees.
* `Grammar.derives_iff_exists_tree`: Steps and trees derive the same words.
-/

namespace Derivations

namespace Grammar

/-- A sequence of symbols becomes another by replacing symbols by alternatives, any
    number of times. -/
def Derives (g : Grammar) : List Symbol → List Symbol → Prop :=
  Relation.ReflTransGen g.Step

variable {g : Grammar}

theorem Step.within {u v : List Symbol} (h : g.Step u v) (before after : List Symbol) :
    g.Step (before ++ u ++ after) (before ++ v ++ after) := by
  cases h with
  | replace front back applied =>
    have hstep := Step.replace (before ++ front) (back ++ after) applied
    simpa only [List.append_assoc, List.cons_append] using hstep

theorem Derives.within {u v : List Symbol} (h : g.Derives u v) (before after : List Symbol) :
    g.Derives (before ++ u ++ after) (before ++ v ++ after) := by
  induction h with
  | refl => exact .refl
  | tail _ hstep ih => exact ih.tail (hstep.within before after)

theorem Derives.append {u v u' v' : List Symbol} (h : g.Derives u v) (h' : g.Derives u' v') :
    g.Derives (u ++ u') (v ++ v') := by
  -- The left part comes first, with the right part as it was, and then the right part.
  have hleft : g.Derives (u ++ u') (v ++ u') := h.within [] u'
  have hright : g.Derives (v ++ u') (v ++ v') := by
    have hw := h'.within v []
    rwa [List.append_nil, List.append_nil] at hw
  exact hleft.trans hright

/-- Symbols that derive the frontiers of trees do so side by side. -/
theorem derives_frontierAll {ts : List Tree} (h : ∀ t ∈ ts, g.Derives [t.symbol] t.frontier) :
    g.Derives (ts.map Tree.symbol) (Tree.frontierAll ts) := by
  induction ts with
  | nil => exact .refl
  | cons t ts ih =>
    have hhead : g.Derives [t.symbol] t.frontier := h t List.mem_cons_self
    have htail := ih fun s hs => h s (List.mem_cons_of_mem t hs)
    exact hhead.append htail

/-- A derivation tree derives its frontier from the symbol at its root. -/
theorem IsDerivation.derives {t : Tree} (h : g.IsDerivation t) :
    g.Derives [t.symbol] t.frontier := by
  induction h with
  | leaf terminal => exact .refl
  | @node sym children applied derived ih =>
    have hroot : g.Step [sym] (children.map Tree.symbol) := by
      simpa using Step.replace [] [] applied
    exact .head hroot (derives_frontierAll ih)

-- A step taken back: the trees for the alternative become the children of one node.
theorem Step.exists_trees {u v : List Symbol} (h : g.Step u v) {ts : List Tree}
    (hts : ts.map Tree.symbol = v) (hd : ∀ t ∈ ts, g.IsDerivation t) :
    ∃ ts' : List Tree, ts'.map Tree.symbol = u ∧ (∀ t ∈ ts', g.IsDerivation t) ∧
      Tree.frontierAll ts' = Tree.frontierAll ts := by
  cases h with
  | @replace before after sym rhs applied =>
    rcases List.map_eq_append_iff.1 hts with ⟨front, back, rfl, hfront, hback⟩
    rcases List.map_eq_append_iff.1 hfront with ⟨left, children, rfl, hleft, hchildren⟩
    refine ⟨left ++ .node sym children :: back, ?_, ?_, ?_⟩
    · rw [List.map_append, List.map_cons, hleft, hback, Tree.symbol]
    · intro t ht
      rcases List.mem_append.1 ht with ht | ht
      · exact hd t (List.mem_append_left _ (List.mem_append_left _ ht))
      · rcases List.mem_cons.1 ht with rfl | ht
        · refine .node (by rw [hchildren]; exact applied) fun c hc => ?_
          exact hd c (List.mem_append_left _ (List.mem_append_right _ hc))
        · exact hd t (List.mem_append_right _ ht)
    · simp only [Tree.frontierAll_append, Tree.frontierAll, Tree.frontier, List.append_assoc]

/-- Symbols that derive a word of terminals have derivation trees which spell it side by
    side. -/
theorem Derives.exists_trees {u word : List Symbol} (h : g.Derives u word)
    (hword : ∀ s ∈ word, g.isNonTerminal s = false) :
    ∃ ts : List Tree, ts.map Tree.symbol = u ∧ (∀ t ∈ ts, g.IsDerivation t) ∧
      Tree.frontierAll ts = word := by
  -- Induction from the end of the derivation, where all trees are leaves.
  induction h using Relation.ReflTransGen.head_induction_on with
  | refl =>
    refine ⟨word.map Tree.leaf, by simp [Function.comp_def, Tree.symbol], fun t ht => ?_,
      Tree.frontierAll_map_leaf word⟩
    rcases List.mem_map.1 ht with ⟨s, hs, rfl⟩
    exact .leaf (hword s hs)
  | head hstep _ ih =>
    rcases ih with ⟨ts, hts, hd, hspelled⟩
    rcases hstep.exists_trees hts hd with ⟨ts', hts', hd', hsame⟩
    exact ⟨ts', hts', hd', hsame.trans hspelled⟩

/-- A symbol derives a word of terminals step by step if and only if it has a derivation
    tree for it. -/
theorem derives_iff_exists_tree {sym : Symbol} {word : List Symbol}
    (hword : ∀ s ∈ word, g.isNonTerminal s = false) :
    g.Derives [sym] word ↔ ∃ t, g.IsDerivation t ∧ t.symbol = sym ∧ t.frontier = word := by
  constructor
  · intro h
    rcases h.exists_trees hword with ⟨ts, hts, hd, hspelled⟩
    rcases List.map_eq_singleton_iff.1 hts with ⟨t, rfl, hsym⟩
    rw [Tree.frontierAll, Tree.frontierAll, List.append_nil] at hspelled
    exact ⟨t, hd t (List.mem_singleton_self t), hsym, hspelled⟩
  · rintro ⟨t, ht, rfl, rfl⟩
    exact ht.derives

end Grammar

end Derivations
