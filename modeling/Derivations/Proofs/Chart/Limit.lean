import Derivations.Proofs.Analysis.Ambiguity
import Derivations.Proofs.Chart.Parse

/-!
# Limits That Are Never Exceeded

The link between the analysis of a grammar and its parsers. Edges are only ever
predicted for symbols that derivations from the start symbol can get to, and the trees
they take in are derivation trees for parts of the input. Unless the grammar is
reported as infinitely ambiguous, there are finitely many of these, and so finitely
many edges that can be deduced. State sets hold no edge twice, so a limit that is not
below the number of edges is never exceeded, and the parse is full.

How large a limit has to be depends on the input, but only grammars reported as
infinitely ambiguous can exceed every limit.

## Theorems

* `Deducible.mem_reachable`: Edges wait for reachable symbols only.
* `finite_deducible`: For an input, finitely many edges can be deduced.
* `Parser.exists_limit_full`: From some limit on, every parse of an input is full.
-/

namespace Derivations

variable {g : Grammar} {start : Symbol} {input : List Symbol}

/-- The non-terminals on the right-hand sides of edges are reachable. -/
theorem Deducible.mem_reachable (hstart : g.isNonTerminal start = true) {k : Nat} {e : Edge}
    (h : Deducible g start input k e) {sym : Symbol} (hsym : sym ∈ e.rhs)
    (hn : g.isNonTerminal sym = true) : sym ∈ g.reachable start := by
  induction h generalizing sym with
  | top =>
    rw [List.mem_singleton.1 hsym]
    exact Grammar.mem_reachable_start hstart
  | predict _ awaits alternative ih =>
    have hrhs := List.mem_of_getElem? alternative
    rcases (Edge.awaited?_eq_some_iff _ _).1 awaits with ⟨i, _, hi⟩
    have hlhs := ih (List.mem_of_getElem? hi) (Grammar.isNonTerminal_of_mem_expansions hrhs)
    exact Grammar.mem_reachable_of_mem_expansions hstart hlhs hrhs hsym hn
  | scan _ _ _ _ ih => exact ih hsym hn
  | complete _ _ _ _ _ _ ih => exact ih hsym hn

/-- There are finitely many productions for edges, the rule above the start symbol
    being one of them. -/
theorem Edge.finite_hasRule (g : Grammar) (start : Symbol) :
    {r : Symbol × Int × List Symbol |
      (predicted r.1 r.2.1 r.2.2 0).HasRule g start}.Finite := by
  have halternatives := (List.finite_toSet g.nonTerminals).biUnion fun lhs _ =>
    (List.finite_toSet (g.expansions lhs).zipIdx).image fun r => (lhs, (r.2 : Int), r.1)
  refine (halternatives.insert (Item.topSymbol, Item.topAlternative, [start])).subset ?_
  rintro ⟨lhs, alternative, rhs⟩ (⟨ha, hl, hr⟩ | ⟨i, hi, hrhs⟩)
  · change alternative = _ at ha
    change lhs = _ at hl
    change rhs = _ at hr
    rw [ha, hl, hr]
    exact Set.mem_insert _ _
  · change alternative = _ at hi
    change (g.expansions lhs)[i]? = some rhs at hrhs
    have hn := Grammar.isNonTerminal_of_mem_expansions (List.mem_of_getElem? hrhs)
    rw [hi]
    exact Or.inr (Set.mem_biUnion ((g.isNonTerminal_iff_mem_nonTerminals lhs).1 hn)
      ⟨(rhs, i), List.mk_mem_zipIdx_iff_getElem?.2 hrhs, rfl⟩)

/-- The trees of edges that can be deduced are finitely many. -/
theorem finite_found (h : g.HarmlessCycles start) (hstart : g.isNonTerminal start = true)
    (input : List Symbol) :
    {t : Tree | ∃ k e, Deducible g start input k e ∧ t ∈ e.found}.Finite := by
  have hsymbols := (Edge.finite_hasRule g start).biUnion fun r _ => List.finite_toSet r.2.2
  -- The trees of an edge are for symbols right of its dot.
  have hrhs : ∀ {k : Nat} {e : Edge} {t : Tree}, Deducible g start input k e → t ∈ e.found →
      t.symbol ∈ e.rhs := fun he ht => by
    have hmem := List.mem_map_of_mem (f := Tree.symbol) ht
    rw [he.valid.symbols] at hmem
    exact List.mem_of_mem_drop hmem
  refine Grammar.finite_of_symbols (g := g) hsymbols input ?_ ?_ ?_ ?_
  · rintro t ⟨k, e, he, ht⟩
    exact he.valid.derived t ht
  · rintro t ⟨k, e, he, ht⟩
    exact Set.mem_biUnion (x := (e.lhs, e.alternative, e.rhs)) he.valid.hasRule (hrhs he ht)
  · rintro t ⟨k, e, he, ht⟩
    refine (Tree.frontier_sublist_frontierAll ht).trans ?_
    refine List.Sublist.trans ?_ (List.drop_sublist k input)
    rw [he.valid.frontier]
    exact List.sublist_append_left _ _
  · rintro t ⟨k, e, he, ht⟩
    exact Grammar.finite_derivations h hstart t.symbol (he.mem_reachable hstart (hrhs he ht))
      t.frontier

/-- The edges that can be deduced for an input are finitely many. -/
theorem finite_deducible (h : g.HarmlessCycles start) (hstart : g.isNonTerminal start = true)
    (input : List Symbol) : {e : Edge | ∃ k, Deducible g start input k e}.Finite := by
  -- An edge is made of a production, a dot, an anchor and trees.
  have hfound := finite_found h hstart input
  have hedges := (Edge.finite_hasRule g start).biUnion fun r _ =>
    (((Set.finite_le_nat r.2.2.length).prod (Set.finite_le_nat input.length)).prod
      (finite_lists hfound r.2.2.length)).image fun p =>
        Edge.mk r.1 r.2.1 r.2.2 p.1.1 p.1.2 p.2
  refine hedges.subset ?_
  rintro e ⟨k, he⟩
  have hv := he.valid
  have hlen := congrArg List.length hv.symbols
  rw [List.length_map, List.length_drop] at hlen
  have hanchor := hv.le_anchor
  have hle := hv.anchor_le
  refine Set.mem_biUnion (x := (e.lhs, e.alternative, e.rhs)) hv.hasRule
    ⟨((e.dot, e.anchor.toNat), e.found), ⟨⟨hv.dot_le, ?_⟩, ?_, fun t ht => ⟨k, e, he, ht⟩⟩, ?_⟩
  · change e.anchor.toNat ≤ input.length
    omega
  · change e.found.length ≤ e.rhs.length
    omega
  · have hcast : (e.anchor.toNat : Int) = e.anchor := Int.toNat_of_nonneg (by omega)
    simp only [hcast]

namespace Parser

/-- A state set holds no more edges than can be deduced. -/
theorem Filled.size_le_of_deducible {limit k : Nat} {later : Array StateSet} {s : StateSet}
    (h : Filled g start input limit later k s) {es : List Edge}
    (hes : ∀ e, Deducible g start input k e → e ∈ es) : s.size ≤ es.length := by
  rw [s.size_eq_length_edges]
  exact (StateSet.nodup_edges h.proper).length_le_of_subset fun e he => hes e (h.deducible e he)

/-- A chart is not cut off anywhere if its limit allows for all edges that can be
    deduced. -/
theorem FilledFrom.truncated_eq_false {limit : Nat} {sets : Array StateSet}
    (h : FilledFrom g start input limit 0 sets) {es : List Edge}
    (hes : ∀ k e, Deducible g start input k e → e ∈ es) (hlimit : es.length ≤ limit) :
    ∀ s ∈ sets, s.truncated = false := by
  intro s hs
  -- The set with number `i` is that of the position `i` in front of the last one.
  rcases Array.mem_iff_getElem?.1 hs with ⟨i, hi⟩
  have hlt := (Array.getElem?_eq_some_iff.1 hi).1
  have hsize := h.size
  rcases h.filled (input.length - i) (Nat.zero_le _) (Nat.sub_le _ _) with
    ⟨s', later, hs', hfilled⟩
  rw [show input.length - (input.length - i) = i by omega, hi] at hs'
  rw [← Option.some.inj hs'] at hfilled
  rw [Bool.eq_false_iff]
  intro ht
  -- A set that has been cut off holds one edge more than the limit.
  have hcut := hfilled.size_of_truncated ht
  have hle := hfilled.size_le_of_deducible (hes _)
  omega

/-- If a grammar is not reported as infinitely ambiguous, there is a limit for every
    input from which on every parse of it is full, and thus returns all of its
    derivation trees. -/
theorem exists_limit_full {a : Analysis} (ha : Analysis.of? g = some a)
    (h : a.infinitelyAmbiguous = false) (input : List Symbol) :
    ∃ bound, ∀ p : Parser, p.IsFor g → bound ≤ p.limit →
      ∃ o, p.parse input = .ok o ∧ o.full = true ∧
        ∀ t, g.IsDerivation t → t.symbol = p.start → t.frontier = input → t ∈ o.trees := by
  have hstart : g.start? = some a.start := by
    rw [Analysis.of?, Option.map_eq_some_iff] at ha
    rcases ha with ⟨start, hs, rfl⟩
    exact hs
  have hcycles := (Analysis.infinitelyAmbiguous_eq_false_iff ha).1 h
  have hfinite := finite_deducible hcycles (Grammar.isNonTerminal_of_start?_eq hstart) input
  refine ⟨hfinite.toFinset.toList.length, fun p hp hlimit => ?_⟩
  have hsame : p.start = a.start := Option.some.inj (hp.2.symm.trans hstart)
  rcases parse_spec hp input with ⟨o, sets, hok, hchart, hfilled, hmem, _⟩
  have hes : ∀ k e, Deducible g p.start input k e → e ∈ hfinite.toFinset.toList := by
    intro k e he
    rw [hsame] at he
    exact Finset.mem_toList.2 (hfinite.mem_toFinset.2 ⟨k, he⟩)
  have huncut := hfilled.truncated_eq_false hes hlimit
  refine ⟨o, hok, (full_iff hchart).2 huncut, fun t ht hs hf => ?_⟩
  rw [hmem, hfilled.edgeAt_iff huncut, Deducible.advance_top_iff]
  exact ⟨ht, hs, hf⟩

theorem exists_limit_full_halves :
    ∃ a, Analysis.of? halves.grammar = some a ∧ a.infinitelyAmbiguous = false ∧
      ∃ bound, ∀ p : Parser, p.IsFor halves.grammar → bound ≤ p.limit →
        ∃ o, p.parse ["a"] = .ok o ∧ o.full = true ∧
          ∀ t, halves.grammar.IsDerivation t → t.symbol = p.start → t.frontier = ["a"] →
            t ∈ o.trees := by
  have ha : ∃ a, Analysis.of? halves.grammar = some a := ⟨_, rfl⟩
  rcases ha with ⟨a, ha⟩
  -- The symbol `B` is cyclic and reachable, but it is not productive.
  have hcycles : ∀ sym ∈ halves.grammar.cyclic, sym ∉ halves.grammar.productive := by
    decide +kernel
  have h := (Analysis.infinitelyAmbiguous_eq_false_iff ha).2 fun sym hc _ => hcycles sym hc
  exact ⟨a, ha, h, exists_limit_full ha h ["a"]⟩

end Parser

end Derivations
