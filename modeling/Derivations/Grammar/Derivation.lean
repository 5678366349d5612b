import Derivations.Grammar.Basic
import Derivations.Tree.Basic

/-!
# Derivations

What it means for a tree to be a derivation tree of a grammar, and for one
sequence of symbols to become another by applying a production. Both notions
refer to the productions alone; how derivations are found is no concern of
theirs.

## Main definitions

* `Grammar.IsDerivation`: A tree all of whose nodes apply productions and whose
  leaves are terminals.
* `Grammar.Step`: One symbol of a sequence is replaced by an alternative.

## Theorems

* `Grammar.isDerivation_leaf_iff`, `Grammar.isDerivation_node_iff`: What makes
  a leaf and a node a derivation tree.
-/

namespace Derivations

namespace Grammar

/-- A derivation tree of a grammar: leaves are terminals, and the children of
    every node spell an alternative of its symbol. The root may be any symbol. -/
inductive IsDerivation (g : Grammar) : Tree → Prop where
  | leaf {sym : Symbol} (terminal : g.isNonTerminal sym = false) : IsDerivation g (.leaf sym)
  | node {sym : Symbol} {children : List Tree}
      (applied : children.map Tree.symbol ∈ g.expansions sym)
      (derived : ∀ c ∈ children, IsDerivation g c) : IsDerivation g (.node sym children)

/-- One symbol of a sequence is replaced by one of its alternatives. -/
inductive Step (g : Grammar) : List Symbol → List Symbol → Prop where
  | replace (before after : List Symbol) {sym : Symbol} {rhs : List Symbol}
      (applied : rhs ∈ g.expansions sym) :
      Step g (before ++ sym :: after) (before ++ rhs ++ after)

/-- A leaf is a derivation tree if and only if its symbol is a terminal. -/
theorem isDerivation_leaf_iff (g : Grammar) (sym : Symbol) :
    g.IsDerivation (.leaf sym) ↔ g.isNonTerminal sym = false := by
  constructor
  · intro h
    cases h with
    | leaf terminal => exact terminal
  · exact IsDerivation.leaf

/-- A node is a derivation tree if and only if it applies a production and its
    children are derivation trees. -/
theorem isDerivation_node_iff (g : Grammar) (sym : Symbol) (children : List Tree) :
    g.IsDerivation (.node sym children) ↔
      children.map Tree.symbol ∈ g.expansions sym ∧ ∀ c ∈ children, g.IsDerivation c := by
  constructor
  · intro h
    cases h with
    | node applied derived => exact ⟨applied, derived⟩
  · rintro ⟨applied, derived⟩
    exact .node applied derived

end Grammar

end Derivations
