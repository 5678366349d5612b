import Derivations.Proofs.Chart.Filling

/-!
# Correctness of the Chart Parser

What a parse returns. The trees it harvests are those of the finished edges for the
rule above the start symbol at the first position, and such an edge can be deduced
if and only if its tree is a derivation tree of the input. So every tree returned is
a derivation tree, cut off or not, and if no state set has been cut off, every
derivation tree of the input is returned.

No tree is returned twice. Finished items for the top rule differ in nothing but
their trees, and a state set never holds two equal items. Alternatives that repeat
each other make no difference here, since the item for the top rule takes in a tree
without a memory of the alternatives used below its root.

A parse never fails either: the items it advances wait for a symbol, those it
completes are finished, all anchors lie at positions that have been filled, and no
top item takes in a leaf, the start symbol being a non-terminal.

## Main definitions

* `Parser.IsFor`: A parser for a grammar, whatever its limit.
* `Parser.halves`, `Parser.loops`, `Parser.repeats`: Parsers for a grammar with two
  derivation trees for a letter, for one with a cycle, and for a left-recursive one.

## Theorems

* `Parser.isFor_of_of?_eq`: Parsers are made for their grammars.
* `Parser.FilledFrom.filled_of_getElem?_reverse`, `Parser.FilledFrom.at?_zero`: The
  state sets of a chart by position.
* `Parser.parse_spec`: A parse in terms of edges.
* `Parser.parse_complete`: A full parse returns every derivation tree.
* `Parser.parse_sound`: A parse returns derivation trees only, each once.
* `Parser.mem_edges_iff_deducible`: The state sets of a full parse hold just the
  edges that can be deduced.
-/

namespace Derivations

namespace Parser

/-- The parser has the grammar and its start symbol. Its limit may be any number. -/
def IsFor (p : Parser) (g : Grammar) : Prop :=
  p.grammar = g ∧ g.start? = some p.start

/-- However it is configured, a parser made for a grammar is a parser for it. -/
theorem isFor_of_of?_eq {g : Grammar} {settings : Settings} {choices : List Int} {p : Parser}
    (h : of? g settings choices = some p) : p.IsFor g := by
  rw [of?, Option.map_eq_some_iff] at h
  rcases h with ⟨start, hs, rfl⟩
  exact ⟨rfl, hs⟩

variable {g : Grammar} {start : Symbol} {input : List Symbol}

/-- The items harvested are the finished ones for the top rule. -/
theorem isTop_and_isFinished_iff (item : Item) :
    (item.isTop && item.isFinished) = true ↔
      item.alternative = Item.topAlternative ∧ item.dot = 0 := by
  rw [Bool.and_eq_true, Item.isTop, Item.isFinished, beq_iff_eq, beq_iff_eq]

/-- A finished item for the top rule has its only tree harvested. The tree is a node,
    as the start symbol is a non-terminal. -/
theorem exists_completeTop {k : Nat} {item : Item} (hstart : g.isNonTerminal start = true)
    (h : Deducible g start input k item.edge) (ha : item.alternative = Item.topAlternative)
    (hd : item.dot = 0) :
    ∃ t, item.completeTop = .ok t ∧
      (Edge.top start input.length).advance t.tree = item.edge := by
  rcases h.exists_eq_advance_top ha hd with ⟨t, ht⟩
  have htrees : item.trees = [t] := congrArg Edge.found ht
  rcases List.map_eq_singleton_iff.1 htrees with ⟨m, hm, hmt⟩
  have hv := h.valid
  -- Harvesting refuses leaves, and the tree of a terminal would be one.
  have hderived : g.IsDerivation t := hv.derived t (by rw [ht]; exact List.mem_cons_self)
  have hsym : t.symbol = start := by
    have hs := hv.symbols
    rw [ht] at hs
    exact (List.cons.inj hs).1
  have hleaf : m.tree.isLeaf = false := by
    rw [hmt, hderived.isLeaf_eq, hsym, hstart]
    rfl
  have hf : item.isFinished = true := by
    rw [Item.isFinished, hd]
    rfl
  refine ⟨m, ?_, by rw [ht, hmt]⟩
  rw [Item.completeTop, if_pos hf, hm]
  simp only [hleaf, if_neg Bool.false_ne_true]

/-- The chart lists the state sets by position. -/
theorem FilledFrom.getElem?_reverse {limit : Nat} {sets : Array StateSet}
    (h : FilledFrom g start input limit 0 sets) {k : Nat} (hk : k ≤ input.length) :
    sets.toList.reverse[k]? = sets[input.length - k]? := by
  have hsize := h.size
  have hlen : sets.toList.length = input.length + 1 := by
    rw [Array.length_toList]
    omega
  rw [List.getElem?_reverse (by omega), hlen, Array.getElem?_toList]
  congr 1

theorem FilledFrom.length_reverse {limit : Nat} {sets : Array StateSet}
    (h : FilledFrom g start input limit 0 sets) :
    sets.toList.reverse.length = input.length + 1 := by
  have hsize := h.size
  rw [List.length_reverse, Array.length_toList]
  omega

/-- Each state set in the chart has been filled at its position. -/
theorem FilledFrom.filled_of_getElem?_reverse {limit k : Nat} {sets : Array StateSet}
    (h : FilledFrom g start input limit 0 sets) {s : StateSet}
    (hs : sets.toList.reverse[k]? = some s) : ∃ later, Filled g start input limit later k s := by
  have hk : k ≤ input.length := by
    have hlt := (List.getElem?_eq_some_iff.1 hs).1
    rw [h.length_reverse] at hlt
    omega
  rcases h.filled k (Nat.zero_le k) hk with ⟨t, later, ht, hfilled⟩
  rw [h.getElem?_reverse hk, ht] at hs
  rw [← Option.some.inj hs]
  exact ⟨later, hfilled⟩

/-- The state set at the first position is found there. -/
theorem FilledFrom.at?_zero {limit : Nat} {sets : Array StateSet}
    (h : FilledFrom g start input limit 0 sets) {s : StateSet}
    (hs : sets.toList.reverse[0]? = some s) : Chart.at? sets.toList.reverse 0 = some s := by
  rcases h.filled_of_getElem?_reverse hs with ⟨later, hfilled⟩
  rw [← List.head?_eq_getElem?, List.head?_eq_some_iff] at hs
  rcases hs with ⟨rest, hrest⟩
  rw [hrest, Chart.at?, List.find?_cons_of_pos]
  rw [hfilled.position]
  rfl

/-- Harvesting never fails. It finds the trees of the finished edges for the top rule
    at the first position, each once. -/
theorem harvest_spec {limit : Nat} {sets : Array StateSet}
    (h : FilledFrom g start input limit 0 sets) (hstart : g.isNonTerminal start = true) :
    ∃ found, harvest sets.toList.reverse = .ok found ∧
      (∀ t, t ∈ found.map (·.tree) ↔
        EdgeAt input.length sets 0 ((Edge.top start input.length).advance t)) ∧
      (found.map (·.tree)).Nodup := by
  rcases h.filled 0 (Nat.le_refl 0) (Nat.zero_le _) with ⟨s, later, hs, hfilled⟩
  have hat : Chart.at? sets.toList.reverse 0 = some s := by
    refine h.at?_zero ?_
    rw [h.getElem?_reverse (Nat.zero_le _), hs]
  rcases exists_mapM_eq_ok (f := Item.completeTop)
    (fun m => (Edge.top start input.length).advance m.tree) Item.edge
    (s.toList.filter fun i => i.isTop && i.isFinished)
    (fun i hi => by
      rcases List.mem_filter.1 hi with ⟨his, hf⟩
      rcases (isTop_and_isFinished_iff i).1 hf with ⟨ha, hd⟩
      exact exists_completeTop hstart (hfilled.deducible _ (List.mem_map_of_mem his)) ha hd)
    with ⟨found, hok, hmap⟩
  have hsplit : found.map (fun m => (Edge.top start input.length).advance m.tree) =
      (found.map (·.tree)).map (Edge.top start input.length).advance := by
    rw [List.map_map]
    rfl
  rw [hsplit] at hmap
  refine ⟨found, by rw [harvest, hat]; exact hok, fun t => ?_, ?_⟩
  · -- A tree is found if and only if the edge that has taken it in is harvested.
    have hmem : t ∈ found.map (·.tree) ↔ (Edge.top start input.length).advance t ∈
        (found.map (·.tree)).map (Edge.top start input.length).advance := by
      refine ⟨List.mem_map_of_mem, fun h => ?_⟩
      rcases List.mem_map.1 h with ⟨u, hu, hut⟩
      rw [← (List.cons.inj (congrArg Edge.found hut)).1]
      exact hu
    rw [hmem, hmap, List.mem_map]
    constructor
    · rintro ⟨i, hi, hie⟩
      refine ⟨Nat.zero_le _, s, hs, ?_⟩
      rw [← hie]
      exact List.mem_map_of_mem (List.mem_filter.1 hi).1
    · rintro ⟨_, s', hs', he⟩
      rw [hs] at hs'
      rw [← Option.some.inj hs'] at he
      rcases List.mem_map.1 he with ⟨i, hi, hie⟩
      refine ⟨i, List.mem_filter.2 ⟨hi, (isTop_and_isFinished_iff i).2 ⟨?_, ?_⟩⟩, hie⟩
      · exact congrArg Edge.alternative hie
      · exact congrArg Edge.dot hie
  · -- Equal trees would make for equal edges.
    have hnodup : ((found.map (·.tree)).map (Edge.top start input.length).advance).Nodup := by
      rw [hmap]
      exact (StateSet.nodup_edges hfilled.proper).sublist (List.filter_sublist.map _)
    rw [List.Nodup, List.pairwise_map] at hnodup
    exact hnodup.imp fun hne h => hne (by rw [h])

/-- A parse in terms of edges: its chart is filled, and its trees are those of the
    finished edges for the top rule at the first position, each once. -/
theorem parse_spec {p : Parser} (hp : p.IsFor g) (input : List Symbol) :
    ∃ o sets, p.parse input = .ok o ∧ o.chart = sets.toList.reverse ∧
      FilledFrom g p.start input p.limit 0 sets ∧
      (∀ t, t ∈ o.trees ↔
        EdgeAt input.length sets 0 ((Edge.top p.start input.length).advance t)) ∧
      o.trees.Nodup := by
  rcases chart_spec p input with ⟨sets, hchart, hfilled⟩
  rw [hp.1] at hfilled
  rcases harvest_spec hfilled (Grammar.isNonTerminal_of_start?_eq hp.2) with
    ⟨found, hfound, hmem, hnodup⟩
  refine ⟨⟨found, sets.toList.reverse⟩, sets, ?_, rfl, hfilled, hmem, hnodup⟩
  rw [parse, hchart]
  change Except.bind (harvest sets.toList.reverse) _ = _
  rw [hfound]
  rfl

/-- An outcome is full if no state set has been cut off. -/
theorem full_iff {o : Outcome} {sets : Array StateSet} (h : o.chart = sets.toList.reverse) :
    o.full = true ↔ ∀ s ∈ sets, s.truncated = false := by
  rw [Outcome.full, Chart.isFull, h, List.all_reverse, List.all_eq_true]
  simp only [Array.mem_toList_iff, Bool.not_eq_true']

theorem exists_truncated_of_full_eq_false {o : Outcome} (h : o.full = false) :
    ∃ s ∈ o.chart, s.truncated = true := by
  rw [Outcome.full, Chart.isFull, List.all_eq_false] at h
  simpa using h

/-- A full parse returns every derivation tree of the input that has the start symbol
    at its root. -/
theorem parse_complete {p : Parser} (hp : p.IsFor g) (input : List Symbol) :
    ∃ o, p.parse input = .ok o ∧
      (o.full = true → ∀ t, g.IsDerivation t → t.symbol = p.start → t.frontier = input →
        t ∈ o.trees) := by
  rcases parse_spec hp input with ⟨o, sets, hok, hchart, hfilled, hmem, _⟩
  refine ⟨o, hok, fun hfull t ht hs hf => ?_⟩
  rw [hmem, hfilled.edgeAt_iff ((full_iff hchart).1 hfull), Deducible.advance_top_iff]
  exact ⟨ht, hs, hf⟩

/-- A parser for a grammar in which one letter has two derivation trees, as either half
    of it may be empty. The symbol `B` derives nothing but itself. -/
def halves : Parser :=
  ⟨.ofProductions "halves" [("S", ["A", "A"]), ("S", ["B"]), ("A", []), ("A", ["a"]), ("B", ["B"])],
    "S", 100⟩

theorem parse_complete_halves :
    halves.IsFor halves.grammar ∧ ∃ o, halves.parse ["a"] = .ok o ∧ o.full = true ∧
      .node "S" [.node "A" [], .node "A" [.leaf "a"]] ∈ o.trees ∧
      .node "S" [.node "A" [.leaf "a"], .node "A" []] ∈ o.trees := by
  have hp : halves.IsFor halves.grammar := ⟨rfl, rfl⟩
  rcases parse_complete hp ["a"] with ⟨o, hok, hall⟩
  have hfull : (halves.parse ["a"]).toOption.map Outcome.full = some true := by decide +kernel
  rw [hok] at hfull
  have hfull := Option.some.inj hfull
  exact ⟨hp, o, hok, hfull, hall hfull _ (by decide) rfl rfl, hall hfull _ (by decide) rfl rfl⟩

/-- A parse, full or not, returns derivation trees of the input only. They have the
    start symbol at their roots, and no two of them are equal. -/
theorem parse_sound {p : Parser} (hp : p.IsFor g) (input : List Symbol) :
    ∃ o, p.parse input = .ok o ∧
      (∀ t ∈ o.trees, g.IsDerivation t ∧ t.symbol = p.start ∧ t.frontier = input) ∧
      o.trees.Nodup ∧ o.found.Pairwise fun s t => (s == t) = false := by
  rcases parse_spec hp input with ⟨o, sets, hok, _, hfilled, hmem, hnodup⟩
  refine ⟨o, hok, fun t ht => ?_, hnodup, ?_⟩
  · exact (Deducible.advance_top_iff t).1 (hfilled.deducible_of_edgeAt ((hmem t).1 ht))
  · rw [Outcome.trees, List.Nodup, List.pairwise_map] at hnodup
    refine hnodup.imp fun {s t} hne => ?_
    rw [Bool.eq_false_iff, Ne, MeasuredTree.beq_iff_tree_eq]
    exact hne

/-- A parser for a cyclic grammar with an alternative that is there twice. It always
    cuts a state set off. -/
def loops : Parser :=
  ⟨.ofProductions "loops" [("S", ["S"]), ("S", ["a"]), ("S", ["a"])], "S", 9⟩

theorem parse_sound_loops :
    loops.IsFor loops.grammar ∧ ∃ o, loops.parse ["a"] = .ok o ∧
      o.full = false ∧ o.trees.length = 4 ∧
      (∀ t ∈ o.trees, loops.grammar.IsDerivation t ∧ t.symbol = loops.start ∧
        t.frontier = [("a" : Symbol)]) ∧
      o.trees.Nodup ∧ o.found.Pairwise fun s t => (s == t) = false := by
  have hp : loops.IsFor loops.grammar := ⟨rfl, rfl⟩
  rcases parse_sound hp ["a"] with ⟨o, hok, hsound⟩
  have hcut : (loops.parse ["a"]).toOption.map (fun o => (o.full, o.trees.length)) =
      some (false, 4) := by decide +kernel
  rw [hok] at hcut
  rcases Prod.mk.inj (Option.some.inj hcut) with ⟨hfull, hlength⟩
  exact ⟨hp, o, hok, hfull, hlength, hsound⟩

/-- A parser for a left-recursive grammar without any ambiguity. -/
def repeats (limit : Nat) : Parser :=
  ⟨.ofProductions "repeats" [("S", ["A"]), ("A", ["a"]), ("A", ["A", "a"])], "S", limit⟩

/-- The state sets of a full parse hold the edges that can be deduced at their
    positions and no others, and they hold each of them once. -/
theorem mem_edges_iff_deducible {p : Parser} (hp : p.IsFor g) (input : List Symbol) :
    ∃ o, p.parse input = .ok o ∧
      (o.full = true → ∀ k, k ≤ input.length →
        ∃ s, o.chart[k]? = some s ∧ s.position = k ∧
          (∀ e, e ∈ s.edges ↔ Deducible g p.start input k e) ∧
          (s.toList.map Item.identity).Nodup) := by
  rcases parse_spec hp input with ⟨o, sets, hok, hchart, hfilled, _, _⟩
  refine ⟨o, hok, fun hfull k hk => ?_⟩
  -- The set at a position is the one that was filled there.
  rcases hfilled.filled k (Nat.zero_le k) hk with ⟨s, later, hs, hset⟩
  refine ⟨s, by rw [hchart, hfilled.getElem?_reverse hk, hs], hset.position, fun e => ?_,
    StateSet.nodup_identities hset.proper⟩
  rw [← hfilled.edgeAt_iff ((full_iff hchart).1 hfull)]
  constructor
  · exact fun he => ⟨hk, s, hs, he⟩
  · rintro ⟨_, t, ht, he⟩
    rw [hs] at ht
    rw [Option.some.inj ht]
    exact he

theorem mem_edges_iff_deducible_halves :
    halves.IsFor halves.grammar ∧ ∃ o, halves.parse ["a"] = .ok o ∧ o.full = true ∧
      ∃ s, o.chart[0]? = some s ∧ s.position = 0 ∧ s.edges.length = 8 ∧
        (∀ e, e ∈ s.edges ↔ Deducible halves.grammar "S" ["a"] 0 e) ∧
        (s.toList.map Item.identity).Nodup := by
  have hp : halves.IsFor halves.grammar := ⟨rfl, rfl⟩
  rcases mem_edges_iff_deducible hp ["a"] with ⟨o, hok, hall⟩
  have hrun : (halves.parse ["a"]).toOption.map
      (fun o => (o.full, o.chart[0]?.map fun s => s.edges.length)) = some (true, some 8) := by
    decide +kernel
  rw [hok] at hrun
  rcases Prod.mk.inj (Option.some.inj hrun) with ⟨hfull, hlength⟩
  rcases hall hfull 0 (Nat.zero_le _) with ⟨s, hs, hposition, hmem, hnodup⟩
  rw [hs] at hlength
  exact ⟨hp, o, hok, hfull, s, hs, hposition, Option.some.inj hlength, hmem, hnodup⟩

end Parser

end Derivations
