import Derivations.Grammar.Derivation

/-!
# Non-Terminals and Derivation Trees

Whether a symbol is a non-terminal can be told in three ways: it has a rule, it is
on the left of one, or it has alternatives. They agree because no rule is without
alternatives.

A derivation tree shows at its root what it is. If the symbol there is a
non-terminal, the tree is a node, and otherwise it is a leaf. Whether a tree is a
derivation tree can be decided by going through its nodes.

## Main definitions

* `Grammar.decIsDerivation`: Decides whether a tree is a derivation tree.

## Theorems

* `Grammar.isNonTerminal_iff_mem_nonTerminals`: Non-terminals are on the left of
  rules.
* `Grammar.isNonTerminal_iff_expansions_ne_nil`: Non-terminals have alternatives.
* `Grammar.mem_terminals_iff`: Terminals occur in alternatives.
* `Grammar.isNonTerminal_of_start?_eq`: The start symbol is a non-terminal.
* `Grammar.IsDerivation.isLeaf_eq`: Leaves are the derivation trees of terminals.
* `Tree.frontierAll_append`, `Tree.frontierAll_eq_nil_iff`, `Tree.frontierAll_map_leaf`: The
  frontier of trees side by side.
* `Tree.exists_trees_of_symbols`: Trees for the symbols of a sequence.
* `Tree.height_le_heightAll`: The height of trees side by side.
-/

namespace Derivations

namespace Grammar

/-- Non-terminals are the symbols on the left of rules. -/
theorem isNonTerminal_iff_mem_nonTerminals (g : Grammar) (sym : Symbol) :
    g.isNonTerminal sym = true ↔ sym ∈ g.nonTerminals := by
  rw [isNonTerminal, rule?, List.find?_isSome, nonTerminals, List.mem_map]
  simp only [decide_eq_true_eq]

/-- Non-terminals are the symbols with alternatives. -/
theorem isNonTerminal_iff_expansions_ne_nil (g : Grammar) (sym : Symbol) :
    g.isNonTerminal sym = true ↔ g.expansions sym ≠ [] := by
  rw [isNonTerminal, expansions]
  cases h : g.rule? sym with
  | none => simp
  | some r => simp [r.nonempty]

/-- A symbol with an alternative is a non-terminal. -/
theorem isNonTerminal_of_mem_expansions {g : Grammar} {sym : Symbol} {rhs : List Symbol}
    (h : rhs ∈ g.expansions sym) : g.isNonTerminal sym = true :=
  (isNonTerminal_iff_expansions_ne_nil g sym).2 (List.ne_nil_of_mem h)

/-- An alternative of a symbol stands in a rule for it. -/
theorem exists_rule_of_mem_expansions {g : Grammar} {sym : Symbol} {rhs : List Symbol}
    (h : rhs ∈ g.expansions sym) : ∃ r ∈ g.rules, r.lhs = sym ∧ rhs ∈ r.alternatives := by
  rw [expansions] at h
  cases hr : g.rule? sym with
  | none =>
    rw [hr] at h
    exact absurd h List.not_mem_nil
  | some r =>
    rw [hr] at h
    have hl := List.find?_some (p := fun r : Rule => decide (r.lhs = sym)) hr
    exact ⟨r, List.mem_of_find?_eq_some hr, of_decide_eq_true hl, h⟩

-- No symbol has two rules, so the rule found for a symbol is the one at hand.
theorem expansions_eq_of_mem_rules {g : Grammar} {r : Rule} (h : r ∈ g.rules) :
    g.expansions r.lhs = r.alternatives := by
  have hfind : g.rule? r.lhs = some r := by
    unfold rule?
    rw [List.find?_eq_some_iff_append]
    refine ⟨decide_eq_true rfl, ?_⟩
    rcases List.append_of_mem h with ⟨before, after, hsplit⟩
    refine ⟨before, after, hsplit, fun r' hr' => ?_⟩
    have hd := g.distinct
    rw [hsplit, List.map_append, List.nodup_append] at hd
    have hne : r'.lhs ≠ r.lhs :=
      hd.2.2 r'.lhs (List.mem_map_of_mem hr') r.lhs (List.mem_map_of_mem List.mem_cons_self)
    simpa using hne
  unfold expansions
  rw [hfind]

/-- The terminals are the symbols in alternatives that are no non-terminals. -/
theorem mem_terminals_iff (g : Grammar) (sym : Symbol) :
    sym ∈ g.terminals ↔
      (∃ r ∈ g.rules, ∃ rhs ∈ r.alternatives, sym ∈ rhs) ∧ g.isNonTerminal sym = false := by
  rw [terminals, List.mem_eraseDups, List.mem_filter, Bool.not_eq_true']
  refine and_congr_left' ?_
  simp only [productions, Rule.productions, List.mem_flatMap, List.mem_map]
  constructor
  · rintro ⟨p, ⟨r, hr, ⟨rhs, i⟩, hrhs, rfl⟩, hsym⟩
    exact ⟨r, hr, rhs, List.fst_mem_of_mem_zipIdx hrhs, hsym⟩
  · rintro ⟨r, hr, rhs, hrhs, hsym⟩
    rcases List.getElem?_of_mem hrhs with ⟨i, hi⟩
    exact ⟨_, ⟨r, hr, (rhs, i), List.mk_mem_zipIdx_iff_getElem?.2 hi, rfl⟩, hsym⟩

/-- The start symbol is a non-terminal. -/
theorem isNonTerminal_of_start?_eq {g : Grammar} {start : Symbol} (h : g.start? = some start) :
    g.isNonTerminal start = true := by
  rw [isNonTerminal_iff_mem_nonTerminals, nonTerminals]
  rw [start?, ← List.head?_map] at h
  exact List.mem_of_mem_head? h

mutual

/-- Whether a tree is a derivation tree is decided node by node. -/
def decIsDerivation (g : Grammar) : (t : Tree) → Decidable (g.IsDerivation t)
  | .leaf sym => decidable_of_iff _ (g.isDerivation_leaf_iff sym).symm
  | .node sym children =>
    have := decIsDerivationAll g children
    decidable_of_iff _ (g.isDerivation_node_iff sym children).symm

/-- Whether all trees of a list are derivation trees is decided tree by tree. -/
def decIsDerivationAll (g : Grammar) : (ts : List Tree) → Decidable (∀ t ∈ ts, g.IsDerivation t)
  | [] => isTrue fun _ h => absurd h List.not_mem_nil
  | t :: ts =>
    have := decIsDerivation g t
    have := decIsDerivationAll g ts
    decidable_of_iff _ List.forall_mem_cons.symm

end

instance (g : Grammar) : DecidablePred g.IsDerivation := decIsDerivation g

namespace IsDerivation

variable {g : Grammar}

/-- The derivation trees of terminals are leaves, and those of non-terminals are
    nodes. -/
theorem isLeaf_eq {t : Tree} (h : g.IsDerivation t) : t.isLeaf = !g.isNonTerminal t.symbol := by
  cases h with
  | leaf terminal => rw [Tree.isLeaf, Tree.symbol, terminal]; rfl
  | node applied derived =>
    rw [Tree.isLeaf, Tree.symbol, isNonTerminal_of_mem_expansions applied]
    rfl

end IsDerivation

end Grammar

namespace Tree

/-- The frontier of trees side by side. -/
theorem frontierAll_append (ss ts : List Tree) :
    frontierAll (ss ++ ts) = frontierAll ss ++ frontierAll ts := by
  induction ss with
  | nil => rfl
  | cons s ss ih => rw [List.cons_append, frontierAll, frontierAll, ih, List.append_assoc]

/-- The frontier of trees side by side is empty if all their frontiers are. -/
theorem frontierAll_eq_nil_iff (ts : List Tree) :
    frontierAll ts = [] ↔ ∀ t ∈ ts, t.frontier = [] := by
  induction ts with
  | nil => simp [frontierAll]
  | cons t ts ih => rw [frontierAll, List.append_eq_nil_iff, ih, List.forall_mem_cons]

theorem frontierAll_map_leaf (word : List Symbol) : frontierAll (word.map leaf) = word := by
  induction word with
  | nil => rfl
  | cons sym word ih =>
    rw [List.map_cons, frontierAll, ih, frontier, List.singleton_append]

/-- If there is a tree of some kind for every symbol of a sequence, there are trees of
    that kind side by side for the sequence. -/
theorem exists_trees_of_symbols {kind : Tree → Prop} {rhs : List Symbol}
    (h : ∀ sym ∈ rhs, ∃ t : Tree, kind t ∧ t.symbol = sym) :
    ∃ ts : List Tree, ts.map symbol = rhs ∧ ∀ t ∈ ts, kind t := by
  induction rhs with
  | nil => exact ⟨[], rfl, fun t ht => absurd ht List.not_mem_nil⟩
  | cons sym rhs ih =>
    rcases h sym List.mem_cons_self with ⟨t, ht, hsym⟩
    rcases ih fun s hs => h s (List.mem_cons_of_mem sym hs) with ⟨ts, hts, hall⟩
    exact ⟨t :: ts, by rw [List.map_cons, hsym, hts], List.forall_mem_cons.2 ⟨ht, hall⟩⟩

/-- None of several trees is higher than the highest of them. -/
theorem height_le_heightAll {c : Tree} {children : List Tree} (h : c ∈ children) :
    c.height ≤ heightAll children := by
  induction children with
  | nil => exact absurd h List.not_mem_nil
  | cons d children ih =>
    rw [heightAll]
    rcases List.mem_cons.1 h with rfl | h
    · exact Nat.le_max_left _ _
    · exact Nat.le_trans (ih h) (Nat.le_max_right _ _)

end Tree

end Derivations
