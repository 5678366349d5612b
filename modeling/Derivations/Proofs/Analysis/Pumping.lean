import Derivations.Proofs.Analysis.Ambiguity

/-!
# Infinitely Many Derivation Trees

When a cycle makes some word infinitely ambiguous. A successor of a symbol is what is
left of one of its alternatives when everything beside it vanishes, so a derivation tree
for the successor can be put below the symbol without a change to its frontier. Going
once around a cycle makes a higher tree for the same symbol and the same word, and this
can be repeated. A cyclic symbol that has a derivation tree at all has therefore
infinitely many for one and the same word.

That is a statement about the cyclic symbol and not yet about the start symbol. Trees
for the symbol are parts of trees for the start symbol only if the symbols beside it,
all the way up, have derivation trees as well. Being reachable does not ask for that: in
`Grammar.stranded` the only way to the cyclic symbol leads past a symbol without any
derivation tree, and no word has more than finitely many trees although the grammar is
reported as infinitely ambiguous. What is to be asked for is a way by `Grammar.Involves`,
and then the converse holds too. If no symbol is unrealizable, there is no difference.

## Main definitions

* `Grammar.HasInfiniteWord`: Some word has infinitely many derivation trees.
* `Grammar.detours`: A grammar with a cycle by way of a nullable symbol.
* `Grammar.stranded`: A grammar with a cycle that no derivation gets to.

## Theorems

* `Grammar.exists_higher_tree`, `Grammar.exists_higher_tree_of_path`: A tree for a
  successor makes a higher tree with the same frontier.
* `Grammar.hasInfiniteWord_of_mem_cyclic`: A cyclic symbol with a derivation tree has
  infinitely many for some word.
* `Grammar.HasInfiniteWord.of_involves`: This passes on to symbols that involve it.
* `Analysis.hasInfiniteWord_iff`: Exactly which grammars have an infinitely ambiguous
  word, and what the report on a grammar says about it.
* `Analysis.stranded_reported`: The report can be wrong.
-/

namespace Derivations

namespace Grammar

variable {g : Grammar}

theorem IsDerivation.terminal_of_mem_frontier {t : Tree} (h : g.IsDerivation t) :
    ∀ s ∈ t.frontier, g.isNonTerminal s = false := by
  induction h with
  | leaf terminal =>
    intro s hs
    rw [Tree.frontier, List.mem_singleton] at hs
    rw [hs]
    exact terminal
  | @node sym children applied derived ih =>
    rw [Tree.frontier]
    -- The frontier is made of those of the children.
    clear applied derived
    induction children with
    | nil => exact fun s hs => absurd hs List.not_mem_nil
    | cons c children ihc =>
      intro s hs
      rw [Tree.frontierAll, List.mem_append] at hs
      rcases hs with hs | hs
      · exact ih c List.mem_cons_self s hs
      · exact ihc (fun d hd => ih d (List.mem_cons_of_mem c hd)) s hs

/-- Some word of terminals has infinitely many derivation trees for a symbol. -/
def HasInfiniteWord (g : Grammar) (sym : Symbol) : Prop :=
  ∃ word : List Symbol, (∀ s ∈ word, g.isNonTerminal s = false) ∧ (g.derivations sym word).Infinite

-- The condition on the word takes care of itself, as every derivation tree meets it.
theorem hasInfiniteWord_of_infinite {sym : Symbol} {word : List Symbol}
    (h : (g.derivations sym word).Infinite) : g.HasInfiniteWord sym := by
  rcases h.nonempty with ⟨t, ht, _, hword⟩
  exact ⟨word, hword ▸ ht.terminal_of_mem_frontier, h⟩

theorem exists_split_of_mem_remnants {nullable rhs : List Symbol} {sym : Symbol}
    (h : sym ∈ g.remnants nullable rhs) :
    ∃ before after, rhs = before ++ sym :: after ∧
      (∀ s ∈ before, s ∈ nullable) ∧ ∀ s ∈ after, s ∈ nullable := by
  have hgone : ∀ {s : Symbol}, ¬(!nullable.contains s) = true → s ∈ nullable := fun hs => by
    simpa using hs
  unfold remnants at h
  split at h
  · -- All symbols can vanish, so it does not matter where the one that is left stands.
    rename_i hnil
    have hall := List.filter_eq_nil_iff.1 hnil
    rcases List.append_of_mem h with ⟨before, after, rfl⟩
    refine ⟨before, after, rfl, fun s hs => ?_, fun s hs => ?_⟩
    · exact hgone (hall s (List.mem_append_left _ hs))
    · exact hgone (hall s (List.mem_append_right _ (List.mem_cons_of_mem sym hs)))
  · rename_i only hone
    have hsym : sym = only := by
      by_cases hn : g.isNonTerminal only = true
      · rwa [if_pos hn, List.mem_singleton] at h
      · rw [if_neg hn] at h
        exact absurd h List.not_mem_nil
    rw [hsym]
    rcases List.filter_eq_cons_iff.1 hone with ⟨before, after, hsplit, hbefore, _, hafter⟩
    refine ⟨before, after, hsplit, fun s hs => hgone (hbefore s hs), fun s hs => ?_⟩
    exact hgone (List.filter_eq_nil_iff.1 hafter s hs)
  · exact absurd h List.not_mem_nil

-- A tree put below a symbol, among trees for what stands beside it.
theorem IsDerivation.beside {sym : Symbol} {before after : List Tree} {t : Tree}
    (happlied : before.map Tree.symbol ++ t.symbol :: after.map Tree.symbol ∈ g.expansions sym)
    (hbefore : ∀ c ∈ before, g.IsDerivation c) (hafter : ∀ c ∈ after, g.IsDerivation c)
    (ht : g.IsDerivation t) : g.IsDerivation (.node sym (before ++ t :: after)) := by
  refine .node ?_ fun c hc => ?_
  · rw [List.map_append, List.map_cons]
    exact happlied
  · rcases List.mem_append.1 hc with hc | hc
    · exact hbefore c hc
    · rcases List.mem_cons.1 hc with rfl | hc
      · exact ht
      · exact hafter c hc

/-- A derivation tree for a successor can be put below the symbol, which makes it higher
    and does not change its frontier. -/
theorem exists_higher_tree {sym other : Symbol} (h : other ∈ g.successors g.nullable sym)
    {t : Tree} (ht : g.IsDerivation t) (hs : t.symbol = other) :
    ∃ t', g.IsDerivation t' ∧ t'.symbol = sym ∧ t'.frontier = t.frontier ∧
      t.height < t'.height := by
  unfold successors at h
  rcases List.mem_flatMap.1 h with ⟨rhs, hrhs, hremnant⟩
  rcases exists_split_of_mem_remnants hremnant with ⟨before, after, rfl, hbefore, hafter⟩
  rcases Tree.exists_trees_of_symbols fun s hs => exists_tree_of_mem_nullable (hbefore s hs) with
    ⟨bs, hbs, hb⟩
  rcases Tree.exists_trees_of_symbols fun s hs => exists_tree_of_mem_nullable (hafter s hs) with
    ⟨as, has, ha⟩
  have hmem : t ∈ bs ++ t :: as := List.mem_append_right _ List.mem_cons_self
  refine ⟨.node sym (bs ++ t :: as), .beside ?_ ?_ ?_ ht, rfl, ?_, ?_⟩
  · rw [hbs, has, hs]
    exact hrhs
  · exact fun c hc => (hb c hc).1
  · exact fun c hc => (ha c hc).1
  · have hbnil := (Tree.frontierAll_eq_nil_iff bs).2 fun c hc => (hb c hc).2
    have hanil := (Tree.frontierAll_eq_nil_iff as).2 fun c hc => (ha c hc).2
    rw [Tree.frontier, Tree.frontierAll_append, Tree.frontierAll, hbnil, hanil, List.nil_append,
      List.append_nil]
  · have hle := Tree.height_le_heightAll hmem
    rw [Tree.height]
    omega

/-- The same for a sequence of successors. -/
theorem exists_higher_tree_of_path {sym other : Symbol}
    (h : Relation.TransGen (fun s other => other ∈ g.successors g.nullable s) sym other)
    {t : Tree} (ht : g.IsDerivation t) (hs : t.symbol = other) :
    ∃ t', g.IsDerivation t' ∧ t'.symbol = sym ∧ t'.frontier = t.frontier ∧
      t.height < t'.height := by
  -- Induction from the far end of the path, where the tree is put to begin with.
  induction h generalizing t with
  | single hstep => exact exists_higher_tree hstep ht hs
  | tail _ hstep ih =>
    rcases exists_higher_tree hstep ht hs with ⟨u, hu, husym, hufrontier, hulow⟩
    rcases ih hu husym with ⟨v, hv, hvsym, hvfrontier, hvlow⟩
    exact ⟨v, hv, hvsym, hvfrontier.trans hufrontier, by omega⟩

/-- A cyclic symbol that has a derivation tree has infinitely many for the same word. -/
theorem hasInfiniteWord_of_mem_cyclic {sym : Symbol} (hc : sym ∈ g.cyclic)
    (hp : sym ∈ g.productive) : g.HasInfiniteWord sym := by
  rcases exists_tree_of_mem_productive hp with ⟨t, ht, hsym⟩
  have hcycle := (mem_cyclic_iff sym).1 hc
  -- Every time around the cycle adds to the height of the tree.
  have hhigh : ∀ n : Nat, ∃ u ∈ g.derivations sym t.frontier, n < u.height := by
    intro n
    induction n with
    | zero =>
      rcases exists_higher_tree_of_path hcycle ht hsym with ⟨u, hu, husym, hufrontier, hlow⟩
      exact ⟨u, ⟨hu, husym, hufrontier⟩, by omega⟩
    | succ n ih =>
      rcases ih with ⟨u, ⟨hu, husym, hufrontier⟩, hn⟩
      rcases exists_higher_tree_of_path hcycle hu husym with ⟨v, hv, hvsym, hvfrontier, hlow⟩
      exact ⟨v, ⟨hv, hvsym, hvfrontier.trans hufrontier⟩, by omega⟩
  have himage : (Tree.height '' g.derivations sym t.frontier).Infinite := by
    refine Set.infinite_of_forall_exists_gt fun n => ?_
    rcases hhigh n with ⟨u, hu, hn⟩
    exact ⟨u.height, Set.mem_image_of_mem _ hu, hn⟩
  exact hasInfiniteWord_of_infinite (himage.of_image _)

/-- If a symbol has infinitely many trees for some word, so has every symbol that
    involves it. -/
theorem HasInfiniteWord.of_involves {sym other : Symbol} (h : g.HasInfiniteWord other)
    (hinvolves : g.Involves sym other) : g.HasInfiniteWord sym := by
  rcases h with ⟨word, _, hinfinite⟩
  rcases hinvolves with ⟨rhs, hrhs, hother, hproductive⟩
  rcases List.append_of_mem hother with ⟨before, after, rfl⟩
  have htree : ∀ s ∈ before ++ other :: after, ∃ t, g.IsDerivation t ∧ t.symbol = s := by
    intro s hs
    exact exists_tree_of_nonTerminal fun hn => exists_tree_of_mem_productive (hproductive s hs hn)
  rcases Tree.exists_trees_of_symbols fun s hs => htree s (List.mem_append_left _ hs) with
    ⟨bs, hbs, hb⟩
  rcases Tree.exists_trees_of_symbols fun s hs =>
    htree s (List.mem_append_right _ (List.mem_cons_of_mem other hs)) with ⟨as, has, ha⟩
  -- The trees beside it stay the same, so different trees make different trees.
  have hinjective : Function.Injective fun t => Tree.node sym (bs ++ t :: as) := by
    intro t u htu
    have hlist := (Tree.node.inj htu).2
    exact (List.cons.inj (List.append_cancel_left hlist)).1
  have hmaps : Set.MapsTo (fun t => Tree.node sym (bs ++ t :: as)) (g.derivations other word)
      (g.derivations sym (Tree.frontierAll bs ++ (word ++ Tree.frontierAll as))) := by
    rintro t ⟨ht, hsym, hword⟩
    refine ⟨.beside ?_ hb ha ht, rfl, ?_⟩
    · rw [hbs, has, hsym]
      exact hrhs
    · rw [Tree.frontier, Tree.frontierAll_append, Tree.frontierAll, hword]
  exact hasInfiniteWord_of_infinite
    (Set.infinite_of_injOn_mapsTo hinjective.injOn hmaps hinfinite)

theorem HasInfiniteWord.of_path {sym other : Symbol} (h : g.HasInfiniteWord other)
    (hpath : Relation.ReflTransGen g.Involves sym other) : g.HasInfiniteWord sym := by
  induction hpath using Relation.ReflTransGen.head_induction_on with
  | refl => exact h
  | head hstep _ ih => exact ih.of_involves hstep

/-- If no way by derivation trees leads to a cyclic symbol that is productive, no word
    has infinitely many of them. -/
theorem exists_path_of_hasInfiniteWord {start : Symbol} (h : g.HasInfiniteWord start) :
    ∃ sym ∈ g.cyclic, sym ∈ g.productive ∧ Relation.ReflTransGen g.Involves start sym := by
  by_contra hnone
  -- Then the non-terminals on such ways are harmless, and all derivation trees are theirs.
  have hharmless : g.Harmless {s | g.isNonTerminal s = true ∧
      Relation.ReflTransGen g.Involves start s} := by
    refine ⟨?_, ?_, ?_⟩
    · refine (List.finite_toSet g.nonTerminals).subset fun s hs => ?_
      exact (g.isNonTerminal_iff_mem_nonTerminals s).1 hs.1
    · rintro sym ⟨_, hpath⟩ other hinvolves hn
      exact ⟨hn, hpath.tail hinvolves⟩
    · rintro sym hc ⟨_, hpath⟩ hp
      exact hnone ⟨sym, hc, hp, hpath⟩
  rcases h with ⟨word, _, hinfinite⟩
  exact hinfinite (finite_derivations_of_harmless hharmless start (fun hn => ⟨hn, .refl⟩) word)

-- If everything is productive, mentioning a symbol is involving it.
theorem path_involves_of_mem_reachable {start sym : Symbol}
    (hall : ∀ s, g.isNonTerminal s = true → s ∈ g.productive) (h : sym ∈ g.reachable start) :
    Relation.ReflTransGen g.Involves start sym := by
  refine Relation.ReflTransGen.mono (fun s other hother => ?_) _ _ (path_of_mem_reachable h)
  rcases mem_mentioned_iff.1 hother with ⟨_, rhs, hrhs, hmem⟩
  exact ⟨rhs, hrhs, hmem, fun s _ hn => hall s hn⟩

/-- A grammar with a cycle from `A` to `B` and back, where `N` vanishes beside `A`. -/
def detours : Grammar :=
  .ofProductions "detours"
    [("S", ["a", "A"]), ("A", ["B"]), ("A", ["b"]), ("B", ["A", "N"]), ("N", [])]

/-- A grammar with a cycle at `A`, which stands beside `U` wherever it is used, and `U`
    has no derivation trees. -/
def stranded : Grammar :=
  .ofProductions "stranded"
    [("S", ["A", "U"]), ("S", ["a"]), ("A", ["A"]), ("A", ["a"]), ("U", ["U", "b"])]

end Grammar

namespace Analysis

theorem mem_sort {sym : Symbol} {listed : List Symbol} : sym ∈ Text.sort listed ↔ sym ∈ listed :=
  List.mem_mergeSort

theorem perm_sort (listed : List Symbol) : (Text.sort listed).Perm listed :=
  List.mergeSort_perm listed _

-- Without repetition, being sorted is being in strictly ascending order.
theorem pairwise_lt_sort {listed : List Symbol} (h : listed.Nodup) :
    (Text.sort listed).Pairwise (· < ·) := by
  have hle : (Text.sort listed).Pairwise fun s t => decide (s ≤ t) = true := by
    refine List.pairwise_mergeSort (fun s t u hst htu => ?_) (fun s t => ?_) listed
    · exact decide_eq_true (List.le_trans (of_decide_eq_true hst) (of_decide_eq_true htu))
    · simpa using List.le_total s t
  have hne : (Text.sort listed).Pairwise (· ≠ ·) := (perm_sort listed).nodup_iff.2 h
  exact (hle.and hne).imp fun {s t} hst =>
    (List.le_iff_lt_or_eq.1 (of_decide_eq_true hst.1)).resolve_right hst.2

/-- What is in strictly ascending order is the result of sorting what it is made of. -/
theorem sort_eq_of_perm {listed sorted : List Symbol} (h : listed.Perm sorted)
    (hsorted : sorted.Pairwise (· < ·)) : Text.sort listed = sorted := by
  have hnodup : sorted.Nodup := by
    refine hsorted.imp ?_
    rintro s _ hst rfl
    exact List.lt_irrefl s hst
  have hlt : (Text.sort listed).Pairwise (· < ·) := pairwise_lt_sort (h.nodup_iff.2 hnodup)
  refine ((perm_sort listed).trans h).eq_of_pairwise (fun s t _ _ hst hts => ?_) hlt hsorted
  exact absurd (List.lt_trans hst hts) (List.lt_irrefl s)

theorem infinitelyAmbiguous_iff {g : Grammar} {a : Analysis} (ha : of? g = some a) :
    a.infinitelyAmbiguous = true ↔
      ∃ sym ∈ g.cyclic, sym ∈ g.reachable a.start ∧ sym ∈ g.productive := by
  rw [of?, Option.map_eq_some_iff] at ha
  rcases ha with ⟨start, _, rfl⟩
  simp only [infinitelyAmbiguous, List.any_eq_true, Bool.and_eq_true, List.contains_iff_mem,
    mem_sort]

theorem unrealizable_eq_nil_iff {g : Grammar} {a : Analysis} (ha : of? g = some a) :
    a.unrealizable = [] ↔ ∀ sym ∈ g.nonTerminals, sym ∈ g.productive := by
  rw [of?, Option.map_eq_some_iff] at ha
  rcases ha with ⟨start, _, rfl⟩
  simp only [List.eq_nil_iff_forall_not_mem, unrealizable, others, mem_sort, List.mem_filter,
    Bool.not_eq_true', List.contains_eq_mem, decide_eq_false_iff_not, not_and, not_not]

/-- Some word has infinitely many derivation trees for the start symbol if and only if a
    cyclic and productive symbol is involved in its derivation trees. A grammar that is
    reported as infinitely ambiguous has infinitely many trees for a word and a reachable
    symbol, and for the start symbol unless some non-terminal is unrealizable. -/
theorem hasInfiniteWord_iff {g : Grammar} {a : Analysis} (ha : of? g = some a) :
    (g.HasInfiniteWord a.start ↔
      ∃ sym ∈ a.cyclic, sym ∈ a.productive ∧ Relation.ReflTransGen g.Involves a.start sym) ∧
    (a.infinitelyAmbiguous = true →
      (∃ sym ∈ a.cyclic, sym ∈ a.reachable ∧ g.HasInfiniteWord sym) ∧
      (a.unrealizable = [] → g.HasInfiniteWord a.start)) := by
  have hreported := infinitelyAmbiguous_iff ha
  have hrealizable := unrealizable_eq_nil_iff ha
  rw [of?, Option.map_eq_some_iff] at ha
  rcases ha with ⟨start, _, rfl⟩
  simp only [mem_sort]
  refine ⟨⟨Grammar.exists_path_of_hasInfiniteWord, ?_⟩, fun hreport => ?_⟩
  · rintro ⟨sym, hc, hp, hpath⟩
    exact (Grammar.hasInfiniteWord_of_mem_cyclic hc hp).of_path hpath
  · rcases hreported.1 hreport with ⟨sym, hc, hreach, hp⟩
    have hword := Grammar.hasInfiniteWord_of_mem_cyclic hc hp
    refine ⟨⟨sym, hc, hreach, hword⟩, fun hnil => ?_⟩
    have hall : ∀ s, g.isNonTerminal s = true → s ∈ g.productive := fun s hn =>
      hrealizable.1 hnil s ((g.isNonTerminal_iff_mem_nonTerminals s).1 hn)
    exact hword.of_path (Grammar.path_involves_of_mem_reachable hall hreach)

theorem hasInfiniteWord_iff_detours :
    ∃ a, of? Grammar.detours = some a ∧ a.infinitelyAmbiguous = true ∧ a.unrealizable = [] ∧
      Grammar.detours.HasInfiniteWord a.start := by
  refine ⟨_, rfl, ?_⟩
  have hrhs : [Text.ofString "a", "A"] ∈ Grammar.detours.expansions "S" := by decide
  have hreach : Text.ofString "A" ∈ Grammar.detours.reachable "S" :=
    Grammar.mem_reachable_of_mem_expansions rfl (Grammar.mem_reachable_start rfl) hrhs
      (by decide) rfl
  have hreport := (infinitelyAmbiguous_iff (g := Grammar.detours) rfl).2
    ⟨"A", by decide +kernel, hreach, by decide +kernel⟩
  have hnil := (unrealizable_eq_nil_iff (g := Grammar.detours) rfl).2 (by decide +kernel)
  exact ⟨hreport, hnil, ((hasInfiniteWord_iff (g := Grammar.detours) rfl).2 hreport).2 hnil⟩

/-- A grammar can be reported as infinitely ambiguous although every word has finitely
    many derivation trees. -/
theorem stranded_reported :
    ∃ a, of? Grammar.stranded = some a ∧ a.infinitelyAmbiguous = true ∧
      ¬Grammar.stranded.HasInfiniteWord a.start := by
  have hrhs : [Text.ofString "A", "U"] ∈ Grammar.stranded.expansions "S" := by decide
  have hreach : Text.ofString "A" ∈ Grammar.stranded.reachable "S" :=
    Grammar.mem_reachable_of_mem_expansions rfl (Grammar.mem_reachable_start rfl) hrhs
      (by decide) rfl
  have hreport := (infinitelyAmbiguous_iff (g := Grammar.stranded) rfl).2
    ⟨"A", by decide +kernel, hreach, by decide +kernel⟩
  refine ⟨_, rfl, hreport, ?_⟩
  rintro ⟨word, _, hinfinite⟩
  -- The start symbol involves no non-terminals at all, since `U` is not productive.
  have hharmless : Grammar.stranded.Harmless {Text.ofString "S"} := by
    refine ⟨Set.finite_singleton _, ?_, ?_⟩
    · rintro sym rfl other ⟨rhs, hrhs, hother, hproductive⟩ hn
      have hnone : ∀ rhs ∈ Grammar.stranded.expansions (Text.ofString "S"),
          (∀ s ∈ rhs, Grammar.stranded.isNonTerminal s = true → s ∈ Grammar.stranded.productive) →
          ∀ other ∈ rhs, Grammar.stranded.isNonTerminal other = false := by
        decide +kernel
      rw [hnone rhs hrhs hproductive other hother] at hn
      exact absurd hn Bool.false_ne_true
    · have hacyclic : Text.ofString "S" ∉ Grammar.stranded.cyclic := by decide +kernel
      rintro sym hc rfl
      exact absurd hc hacyclic
  exact hinfinite (Grammar.finite_derivations_of_harmless hharmless _ (fun _ => rfl) word)

end Analysis

end Derivations
