import Derivations.Proofs.Analysis.Cyclic
import Derivations.Proofs.Analysis.Reachable
import Derivations.Proofs.Analysis.Settled
import Mathlib.Data.Set.Finite.List
import Mathlib.Order.WellFoundedSet

/-!
# Finitely Many Derivation Trees

Why a grammar that is not reported as infinitely ambiguous has finitely many
derivation trees for every word. A child of a derivation tree either covers less than
the whole frontier, or else everything beside it vanishes. In the second case the
child is a leaf, or its symbol is a successor of the symbol above. So the trees for a
symbol and a word are made of trees for shorter words and of trees for successors of
the symbol, and the only way to go on forever without ever getting to a shorter word
is by a cycle of successors.

A cycle of that kind may well be there. It does no harm as long as nothing asks for the
trees of its symbols, or its symbols are not productive and have none. What is asked
for may be any set of symbols which, together with a symbol, holds the non-terminals
below it in derivation trees. The reachable symbols are such a set.

## Main definitions

* `Grammar.derivations`: The derivation trees for a symbol and a word.
* `Grammar.HarmlessCycles`: No cyclic symbol is both reachable and productive.
* `Grammar.Involves`: One symbol occurs right below another in derivation trees.
* `Grammar.Harmless`: A set of symbols to ask for that has no productive cycle.
* `Grammar.Replaces`: One symbol that is asked for and productive is replaced by
  another.

## Theorems

* `Grammar.mem_successors_of_length_le`: A child that covers the whole frontier is
  for a successor.
* `Grammar.finite_derivations_of_harmless`: There are finitely many derivation trees
  for a symbol that is asked for and a word.
* `Grammar.finite_derivations`: In particular for a reachable symbol.
* `Analysis.infinitelyAmbiguous_eq_false_iff`: What the report on a grammar says
  about its cycles.
-/

namespace Derivations

/-- There are finitely many lists of bounded length over a finite set. -/
theorem finite_lists {α : Type} {s : Set α} (hs : s.Finite) (n : Nat) :
    {l : List α | l.length ≤ n ∧ ∀ a ∈ l, a ∈ s}.Finite := by
  have := hs.to_subtype
  refine ((List.finite_length_le s n).image (List.map Subtype.val)).subset ?_
  rintro l ⟨hlen, hmem⟩
  exact ⟨l.attachWith (· ∈ s) hmem, by simpa using hlen, by simp⟩

/-- The frontier of a tree is part of that of trees side by side. -/
theorem Tree.frontier_sublist_frontierAll {c : Tree} {children : List Tree} (h : c ∈ children) :
    c.frontier.Sublist (frontierAll children) := by
  rcases List.append_of_mem h with ⟨before, after, rfl⟩
  rw [frontierAll_append, frontierAll]
  exact ((List.sublist_append_left _ _).trans (List.sublist_append_right _ _))

namespace Grammar

/-- The derivation trees for a symbol and a word. -/
def derivations (g : Grammar) (sym : Symbol) (word : List Symbol) : Set Tree :=
  {t | g.IsDerivation t ∧ t.symbol = sym ∧ t.frontier = word}

/-- No cyclic symbol is both reachable and productive. -/
def HarmlessCycles (g : Grammar) (start : Symbol) : Prop :=
  ∀ sym ∈ g.cyclic, sym ∈ g.reachable start → sym ∉ g.productive

variable {g : Grammar} {start : Symbol}

/-- A symbol can be left of an alternative if everything beside it vanishes. -/
theorem mem_remnants {nullable before after : List Symbol} {sym : Symbol}
    (hn : g.isNonTerminal sym = true) (hbefore : ∀ s ∈ before, s ∈ nullable)
    (hafter : ∀ s ∈ after, s ∈ nullable) :
    sym ∈ g.remnants nullable (before ++ sym :: after) := by
  have hgone : ∀ {syms : List Symbol}, (∀ s ∈ syms, s ∈ nullable) →
      syms.filter (!nullable.contains ·) = [] := fun h =>
    List.filter_eq_nil_iff.2 fun s hs => by simp [h s hs]
  rw [remnants, List.filter_append, List.filter_cons, hgone hbefore, hgone hafter,
    List.nil_append]
  -- If the symbol can vanish as well, nothing is left that cannot, and any symbol will do.
  by_cases hsym : sym ∈ nullable
  · simp [hsym]
  · simp [hsym, hn]

/-- A child that covers the whole frontier is for a successor of the symbol at the
    root, unless it is a leaf. -/
theorem mem_successors_of_length_le {sym : Symbol} {children : List Tree} {c : Tree}
    (applied : children.map Tree.symbol ∈ g.expansions sym)
    (derived : ∀ c ∈ children, g.IsDerivation c) (hc : c ∈ children)
    (hn : g.isNonTerminal c.symbol = true)
    (hlen : (Tree.frontierAll children).length ≤ c.frontier.length) :
    c.symbol ∈ g.successors g.nullable sym := by
  rcases List.append_of_mem hc with ⟨before, after, rfl⟩
  simp only [Tree.frontierAll_append, Tree.frontierAll, List.length_append] at hlen
  -- Nothing is left for the trees beside the child.
  have hbefore : Tree.frontierAll before = [] := List.length_eq_zero_iff.1 (by omega)
  have hafter : Tree.frontierAll after = [] := List.length_eq_zero_iff.1 (by omega)
  rw [Tree.frontierAll_eq_nil_iff] at hbefore hafter
  rw [List.map_append, List.map_cons] at applied
  refine List.mem_flatMap.2 ⟨_, applied, mem_remnants hn ?_ ?_⟩
  · intro s hs
    rcases List.mem_map.1 hs with ⟨t, ht, rfl⟩
    exact mem_nullable_of_isDerivation (derived t (List.mem_append_left _ ht)) (hbefore t ht)
  · intro s hs
    rcases List.mem_map.1 hs with ⟨t, ht, rfl⟩
    exact mem_nullable_of_isDerivation
      (derived t (List.mem_append_right _ (List.mem_cons_of_mem c ht))) (hafter t ht)

/-- A terminal has at most one derivation tree. -/
theorem finite_derivations_of_terminal {sym : Symbol} (h : g.isNonTerminal sym = false)
    (word : List Symbol) : (g.derivations sym word).Finite := by
  refine (Set.finite_singleton (Tree.leaf sym)).subset ?_
  rintro t ⟨ht, rfl, _⟩
  cases ht with
  | leaf => rfl
  | node applied =>
    rw [Tree.symbol, isNonTerminal_of_mem_expansions applied] at h
    exact absurd h.symm Bool.false_ne_true

/-- Derivation trees are finitely many if their roots are, their frontiers are parts of
    one word, and each of them has finitely many with the same root and frontier. -/
theorem finite_of_symbols {trees : Set Tree} {symbols : Set Symbol} (hsymbols : symbols.Finite)
    (word : List Symbol) (hderived : ∀ t ∈ trees, g.IsDerivation t)
    (hsymbol : ∀ t ∈ trees, t.symbol ∈ symbols)
    (hfrontier : ∀ t ∈ trees, t.frontier.Sublist word)
    (hfinite : ∀ t ∈ trees, (g.derivations t.symbol t.frontier).Finite) : trees.Finite := by
  have hkinds : ((fun t : Tree => (t.symbol, t.frontier)) '' trees).Finite := by
    refine (hsymbols.prod (List.finite_toSet word.sublists)).subset ?_
    rintro _ ⟨t, ht, rfl⟩
    exact ⟨hsymbol t ht, List.mem_sublists.2 (hfrontier t ht)⟩
  refine (hkinds.biUnion (t := fun kind => g.derivations kind.1 kind.2) ?_).subset ?_
  · rintro _ ⟨t, ht, rfl⟩
    exact hfinite t ht
  · intro t ht
    exact Set.mem_biUnion (Set.mem_image_of_mem _ ht) ⟨hderived t ht, rfl, rfl⟩

/-- The trees for a symbol and a word are finitely many if this is so for the symbols
    and words of their children. -/
theorem finite_derivations_of_children {sym : Symbol} {word : List Symbol}
    (h : ∀ children, .node sym children ∈ g.derivations sym word → ∀ c ∈ children,
      (g.derivations c.symbol c.frontier).Finite) : (g.derivations sym word).Finite := by
  have hchildren : {c : Tree | ∃ children, .node sym children ∈ g.derivations sym word ∧
      c ∈ children}.Finite := by
    have hsymbols := List.finite_toSet (g.expansions sym).flatten
    refine finite_of_symbols (g := g) hsymbols word ?_ ?_ ?_ ?_
    · rintro c ⟨children, hnode, hc⟩
      exact ((g.isDerivation_node_iff sym children).1 hnode.1).2 c hc
    · rintro c ⟨children, hnode, hc⟩
      have applied := ((g.isDerivation_node_iff sym children).1 hnode.1).1
      exact List.mem_flatten.2 ⟨_, applied, List.mem_map_of_mem hc⟩
    · rintro c ⟨children, hnode, hc⟩
      rw [← hnode.2.2]
      exact Tree.frontier_sublist_frontierAll hc
    · rintro c ⟨children, hnode, hc⟩
      exact h children hnode c hc
  -- There are as many children as symbols in some alternative.
  have hlists := (List.finite_toSet (g.expansions sym)).biUnion fun rhs _ =>
    finite_lists hchildren rhs.length
  refine ((hlists.image (Tree.node sym)).union (Set.finite_singleton (Tree.leaf sym))).subset ?_
  rintro t ⟨ht, rfl, hword⟩
  cases ht with
  | leaf => exact Or.inr rfl
  | @node sym children applied derived =>
    refine Or.inl ⟨children, Set.mem_biUnion applied ⟨?_, fun c hc => ?_⟩, rfl⟩
    · rw [List.length_map]
    · exact ⟨children, ⟨.node applied derived, rfl, hword⟩, hc⟩

/-- A symbol has an alternative with another symbol in it, all non-terminals of which
    are productive. -/
def Involves (g : Grammar) (sym other : Symbol) : Prop :=
  ∃ rhs ∈ g.expansions sym, other ∈ rhs ∧ ∀ s ∈ rhs, g.isNonTerminal s = true → s ∈ g.productive

theorem involves_of_isDerivation {sym : Symbol} {children : List Tree} {c : Tree}
    (h : g.IsDerivation (.node sym children)) (hc : c ∈ children) : g.Involves sym c.symbol := by
  rcases (g.isDerivation_node_iff sym children).1 h with ⟨applied, derived⟩
  refine ⟨_, applied, List.mem_map_of_mem hc, fun s hs hn => ?_⟩
  rcases List.mem_map.1 hs with ⟨d, hd, rfl⟩
  exact mem_productive_of_isDerivation (derived d hd) hn

/-- A finite set of symbols which holds the non-terminals that its symbols involve, and
    none that is both cyclic and productive. -/
structure Harmless (g : Grammar) (asked : Set Symbol) : Prop where
  finite : asked.Finite
  closed : ∀ sym ∈ asked, ∀ other, g.Involves sym other → g.isNonTerminal other = true →
    other ∈ asked
  cycles : ∀ sym ∈ g.cyclic, sym ∈ asked → sym ∉ g.productive

/-- A symbol can be replaced by another without a trace, both of them asked for and
    productive. -/
structure Replaces (g : Grammar) (asked : Set Symbol) (sym other : Symbol) : Prop where
  asked : sym ∈ asked ∧ other ∈ asked
  productive : sym ∈ g.productive ∧ other ∈ g.productive
  successor : other ∈ g.successors g.nullable sym

variable {asked : Set Symbol}

/-- If cycles are harmless, replacing symbols never leads back. -/
theorem not_transGen_replaces (h : g.Harmless asked) (sym : Symbol) :
    ¬Relation.TransGen (g.Replaces asked) sym sym := by
  intro hpath
  -- The last step of the way tells that the symbol is asked for and productive.
  have hlast : ∃ s, g.Replaces asked s sym := by
    cases hpath with
    | single hs => exact ⟨_, hs⟩
    | tail _ hs => exact ⟨_, hs⟩
  rcases hlast with ⟨s, hs⟩
  have hcycle : Relation.TransGen (fun s other => other ∈ g.successors g.nullable s) sym sym :=
    Relation.TransGen.mono (fun _ _ hr => Replaces.successor hr) _ _ hpath
  exact h.cycles sym ((mem_cyclic_iff sym).2 hcycle) hs.asked.2 hs.productive.2

/-- If cycles are harmless, replacing symbols comes to an end. -/
theorem wellFounded_replaces (h : g.Harmless asked) :
    WellFounded fun other sym => g.Replaces asked sym other := by
  have hstrict : IsStrictOrder Symbol fun other sym =>
      Relation.TransGen (g.Replaces asked) sym other :=
    { irrefl := not_transGen_replaces h
      trans := fun _ _ _ hab hbc => hbc.trans hab }
  refine Subrelation.wf ?_ (Set.wellFoundedOn_iff.1 (h.finite.wellFoundedOn (r := fun other sym =>
    Relation.TransGen (g.Replaces asked) sym other)))
  intro other sym hr
  exact ⟨.single hr, hr.asked.2, hr.asked.1⟩

/-- If cycles are harmless, there are finitely many trees for a word and a symbol,
    provided that the symbol is asked for or a terminal. -/
theorem finite_derivations_of_harmless (h : g.Harmless asked) (sym : Symbol)
    (hsym : g.isNonTerminal sym = true → sym ∈ asked) (word : List Symbol) :
    (g.derivations sym word).Finite := by
  -- Induction on the word, and among trees for the same word on the symbol.
  induction hn : word.length using Nat.strong_induction_on generalizing sym word with
  | _ n ihword =>
    induction sym using (wellFounded_replaces h).induction with
    | _ sym ihsym =>
      cases hnt : g.isNonTerminal sym with
      | false => exact finite_derivations_of_terminal hnt word
      | true =>
        refine finite_derivations_of_children fun children hnode c hc => ?_
        rcases (g.isDerivation_node_iff sym children).1 hnode.1 with ⟨applied, derived⟩
        have hasked : g.isNonTerminal c.symbol = true → c.symbol ∈ asked :=
          h.closed sym (hsym hnt) _ (involves_of_isDerivation hnode.1 hc)
        have hword : Tree.frontierAll children = word := hnode.2.2
        have hsub : c.frontier.Sublist word := by
          rw [← hword]
          exact Tree.frontier_sublist_frontierAll hc
        by_cases hlt : c.frontier.length < n
        · exact ihword _ hlt c.symbol hasked c.frontier rfl
        · -- The child covers the whole word, so it is a leaf or for a successor.
          have hsame : c.frontier = word := hsub.eq_of_length_le (by omega)
          rw [hsame]
          by_cases hcn : g.isNonTerminal c.symbol = true
          · refine ihsym c.symbol ⟨⟨hsym hnt, hasked hcn⟩, ?_, ?_⟩ hasked
            · exact ⟨mem_productive_of_isDerivation hnode.1 hnt,
                mem_productive_of_isDerivation (derived c hc) hcn⟩
            · refine mem_successors_of_length_le applied derived hc hcn ?_
              rw [hword, hsame]
          · exact finite_derivations_of_terminal (Bool.eq_false_iff.2 hcn) word

/-- If no cyclic symbol is both reachable and productive, there are finitely many trees
    for a word and a symbol that is reachable or a terminal. -/
theorem finite_derivations (h : g.HarmlessCycles start) (hstart : g.isNonTerminal start = true)
    (sym : Symbol) (hsym : g.isNonTerminal sym = true → sym ∈ g.reachable start)
    (word : List Symbol) : (g.derivations sym word).Finite := by
  have hharmless : g.Harmless {s | s ∈ g.reachable start} := by
    refine ⟨List.finite_toSet (g.reachable start), ?_, h⟩
    rintro sym hreach other ⟨rhs, hrhs, hother, _⟩ hn
    exact mem_reachable_of_mem_expansions hstart hreach hrhs hother hn
  exact finite_derivations_of_harmless hharmless sym hsym word

end Grammar

/-- A grammar is reported as infinitely ambiguous unless its cycles are harmless. -/
theorem Analysis.infinitelyAmbiguous_eq_false_iff {g : Grammar} {a : Analysis}
    (ha : of? g = some a) : a.infinitelyAmbiguous = false ↔ g.HarmlessCycles a.start := by
  rw [of?, Option.map_eq_some_iff] at ha
  rcases ha with ⟨start, _, rfl⟩
  have hmem : ∀ {sym : Symbol} {listed : List Symbol}, sym ∈ Text.sort listed ↔ sym ∈ listed :=
    List.mem_mergeSort
  rw [infinitelyAmbiguous, List.any_eq_false]
  simp only [Bool.and_eq_true, List.contains_iff_mem, hmem, not_and]
  rfl

end Derivations
