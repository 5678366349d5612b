import Derivations.Console.Outline
import Derivations.Proofs.Grammar.File.Tokens
import Derivations.Proofs.Grammar.Fingerprint.Spelling

/-!
# Trees Told Apart by Brackets

In bracket notation, parentheses stand around nodes, but a leaf may show a parenthesis as
well. It is the blanks that tell them apart. There is one in front of every child, and a leaf
is a single character. So an opening parenthesis at the beginning of a child belongs to a leaf
if a blank or a closing parenthesis comes next, and to a node otherwise, as the symbol of the
node comes next then and begins with neither of them. A closing parenthesis at the beginning
of a child cannot be anything but a leaf, since the child has been announced by a blank.

So a tree can be told from any other at the front of any text, as long as the text behind it
begins with a blank or a closing parenthesis, or is empty. This is what follows a child, and
what follows a tree at the end of a line. Among the lines of different trees there are no two
that are the same.

## Main definitions

* `Text.IsSign`, `Text.IsPlain`: What the symbols of leaves and of nodes have to be.
* `Text.IsStop`: What follows a tree in bracket notation.
* `Tree.Labelled`: All leaves and all nodes of a tree have symbols of a kind.
* `Tree.TellsApart`: Trees can be told from each other by their bracket notation.
* `printedLines`: The lines of trees in bracket notation.

## Theorems

* `Text.eq_of_append_stop`: A symbol ends where a blank or a closing parenthesis follows.
* `Tree.tellsApart`: Trees are told apart by their bracket notation.
* `Grammar.IsDerivation.labelled`: The symbols in a derivation tree are those of the grammar.
* `Grammar.isSign_of_load_eq`: What a grammar file has for terminals.
* `Tree.bracketed_determines`: The bracket notation determines the tree, and no two trees have
  the same line.
-/

namespace Derivations

namespace Text

/-- A single character, but no blank. -/
def IsSign (t : Text) : Prop :=
  Utf8.count t = 1 ∧ t ≠ " "

/-- A text that is not empty, without blanks and parentheses. -/
def IsPlain (t : Text) : Prop :=
  t ≠ [] ∧ ∀ b ∈ t, b ≠ ' '.toUInt8 ∧ b ≠ '('.toUInt8 ∧ b ≠ ')'.toUInt8

instance (t : Text) : Decidable t.IsSign :=
  inferInstanceAs (Decidable (_ ∧ _))

instance (t : Text) : Decidable t.IsPlain :=
  inferInstanceAs (Decidable (_ ∧ _))

/-- A text that is empty or begins with a blank or a closing parenthesis. -/
def IsStop (t : Text) : Prop :=
  ∀ b ∈ t.head?, b = ' '.toUInt8 ∨ b = ')'.toUInt8

theorem isStop_nil : IsStop [] := by
  intro b hb
  cases hb

theorem isStop_blank (t : Text) : IsStop (' '.toUInt8 :: t) := by
  intro b hb
  cases hb
  exact Or.inl rfl

theorem isStop_close (t : Text) : IsStop (')'.toUInt8 :: t) := by
  intro b hb
  cases hb
  exact Or.inr rfl

-- What stands in front of a stop is found by looking for it.
theorem takeWhile_append_stop {s r : Text} (hs : ∀ b ∈ s, b ≠ ' '.toUInt8 ∧ b ≠ ')'.toUInt8)
    (hr : r.IsStop) : (s ++ r).takeWhile (fun b => b ≠ ' '.toUInt8 ∧ b ≠ ')'.toUInt8) = s := by
  rw [List.takeWhile_append_of_pos fun b hb => decide_eq_true (hs b hb)]
  cases r with
  | nil => rw [List.takeWhile_nil, List.append_nil]
  | cons b r =>
    have hstop : ¬(b ≠ ' '.toUInt8 ∧ b ≠ ')'.toUInt8) := by
      rcases hr b rfl with rfl | rfl <;> simp
    rw [List.takeWhile_cons, if_neg (by simpa using hstop), List.append_nil]

/-- Texts that have no stop behind their first byte end where a stop follows. -/
theorem eq_of_append_stop {s t r r' : Text} (hs : s ≠ []) (ht : t ≠ [])
    (hs' : ∀ b ∈ s.tail, b ≠ ' '.toUInt8 ∧ b ≠ ')'.toUInt8)
    (ht' : ∀ b ∈ t.tail, b ≠ ' '.toUInt8 ∧ b ≠ ')'.toUInt8) (hr : r.IsStop) (hr' : r'.IsStop)
    (h : s ++ r = t ++ r') : s = t ∧ r = r' := by
  rcases List.exists_cons_of_ne_nil hs with ⟨b, s, rfl⟩
  rcases List.exists_cons_of_ne_nil ht with ⟨c, t, rfl⟩
  rw [List.tail_cons] at hs' ht'
  rw [List.cons_append, List.cons_append, List.cons.injEq] at h
  rcases h with ⟨rfl, hrest⟩
  have heq : s = t := by
    rw [← takeWhile_append_stop hs' hr, hrest, takeWhile_append_stop ht' hr']
  subst heq
  exact ⟨rfl, List.append_cancel_left hrest⟩

theorem IsPlain.tail {t : Text} (h : t.IsPlain) :
    ∀ b ∈ t.tail, b ≠ ' '.toUInt8 ∧ b ≠ ')'.toUInt8 := fun b hb =>
  ⟨(h.2 b (List.mem_of_mem_tail hb)).1, (h.2 b (List.mem_of_mem_tail hb)).2.2⟩

theorem IsSign.ne_nil {t : Text} (h : t.IsSign) : t ≠ [] := by
  rintro rfl
  cases h.1

theorem IsSign.tail {t : Text} (h : t.IsSign) :
    ∀ b ∈ t.tail, b ≠ ' '.toUInt8 ∧ b ≠ ')'.toUInt8 := by
  rcases isCharacter_of_count_eq_one h.1 with ⟨b, _, rfl⟩ | ⟨_, hhigh⟩
  · exact fun b hb => absurd hb List.not_mem_nil
  · intro b hb
    have hb' := hhigh b (List.mem_of_mem_tail hb)
    constructor
    · rintro rfl
      exact absurd hb' (by decide)
    · rintro rfl
      exact absurd hb' (by decide)

/-- A parenthesis at the beginning of a single character is all of it. -/
theorem IsSign.eq_of_cons {t : Text} (h : IsSign ('('.toUInt8 :: t)) : t = [] := by
  rcases isCharacter_of_count_eq_one h.1 with ⟨b, _, heq⟩ | ⟨_, hhigh⟩
  · exact (List.cons.inj heq).2
  · exact absurd (hhigh _ List.mem_cons_self) (by decide)

end Text

namespace Tree

/-- All leaves have symbols of one kind, and all nodes have symbols of another. -/
inductive Labelled (leafKind nodeKind : Symbol → Prop) : Tree → Prop where
  | leaf {sym : Symbol} (fits : leafKind sym) : Labelled leafKind nodeKind (leaf sym)
  | node {sym : Symbol} {children : List Tree} (fits : nodeKind sym)
      (below : ∀ c ∈ children, Labelled leafKind nodeKind c) :
    Labelled leafKind nodeKind (node sym children)

/-- What is written of one tree can be told from what is written of another one, if it is
    known to end where a stop follows. -/
def TellsApart (t u : Tree) : Prop :=
  ∀ r r' : Text, r.IsStop → r'.IsStop → t.bracketed ++ r = u.bracketed ++ r' → t = u ∧ r = r'

theorem bracketed_node_append (sym : Symbol) (ts : List Tree) (r : Text) :
    (node sym ts).bracketed ++ r =
      '('.toUInt8 :: (sym ++ (bracketedAll ts ++ ')'.toUInt8 :: r)) := by
  rw [bracketed_node]
  change '('.toUInt8 :: (sym ++ bracketedAll ts) ++ [')'.toUInt8] ++ r = _
  simp only [List.append_assoc, List.cons_append, List.nil_append]

theorem bracketedAll_cons_append (t : Tree) (ts : List Tree) (r : Text) :
    bracketedAll (t :: ts) ++ r = ' '.toUInt8 :: (t.bracketed ++ (bracketedAll ts ++ r)) := by
  rw [bracketedAll_cons]
  change ' '.toUInt8 :: (t.bracketed ++ bracketedAll ts) ++ r = _
  simp only [List.append_assoc, List.cons_append]

theorem isStop_bracketedAll (ts : List Tree) (r : Text) :
    Text.IsStop (bracketedAll ts ++ ')'.toUInt8 :: r) := by
  cases ts with
  | nil => exact Text.isStop_close r
  | cons t ts =>
    rw [bracketedAll_cons_append]
    exact Text.isStop_blank _

-- A blank says that there is one more child, and a parenthesis that there is none.
theorem eq_of_bracketedAll_append {ts us : List Tree} {r r' : Text}
    (happart : ∀ t ∈ ts, ∀ u ∈ us, t.TellsApart u)
    (h : bracketedAll ts ++ ')'.toUInt8 :: r = bracketedAll us ++ ')'.toUInt8 :: r') :
    ts = us ∧ r = r' := by
  induction ts generalizing us with
  | nil =>
    cases us with
    | nil => exact ⟨rfl, (List.cons.inj h).2⟩
    | cons u us =>
      rw [bracketedAll_cons_append] at h
      exact absurd (List.cons.inj h).1 (by decide)
  | cons t ts ih =>
    cases us with
    | nil =>
      rw [bracketedAll_cons_append] at h
      exact absurd (List.cons.inj h).1 (by decide)
    | cons u us =>
      rw [bracketedAll_cons_append, bracketedAll_cons_append] at h
      rcases happart t List.mem_cons_self u List.mem_cons_self _ _ (isStop_bracketedAll ts r)
        (isStop_bracketedAll us r') (List.cons.inj h).2 with ⟨rfl, hrest⟩
      rcases ih (fun c hc d hd => happart c (List.mem_cons_of_mem _ hc) d
        (List.mem_cons_of_mem _ hd)) hrest with ⟨rfl, hr⟩
      exact ⟨rfl, hr⟩

-- What follows the parenthesis of a leaf is a stop, and no symbol of a node begins with one.
theorem leaf_bracketed_ne_node {sym sym' : Symbol} (hsym : sym.IsSign) (hsym' : sym'.IsPlain)
    {ts : List Tree} {r r' : Text} (hr : r.IsStop) :
    (leaf sym).bracketed ++ r ≠ (node sym' ts).bracketed ++ r' := by
  intro h
  rw [bracketed_leaf, bracketed_node_append] at h
  rcases List.exists_cons_of_ne_nil hsym.ne_nil with ⟨b, rest, rfl⟩
  rw [List.cons_append, List.cons.injEq] at h
  rcases h with ⟨rfl, hrest⟩
  rw [hsym.eq_of_cons, List.nil_append] at hrest
  rcases List.exists_cons_of_ne_nil hsym'.1 with ⟨c, rest', rfl⟩
  have hc := hsym'.2 c List.mem_cons_self
  rw [hrest] at hr
  rcases hr c rfl with hstop | hstop
  · exact hc.1 hstop
  · exact hc.2.2 hstop

/-- Trees are told apart by their bracket notation. -/
theorem tellsApart {t u : Tree} (ht : t.Labelled Text.IsSign Text.IsPlain)
    (hu : u.Labelled Text.IsSign Text.IsPlain) : t.TellsApart u := by
  induction ht generalizing u with
  | leaf hsym =>
    intro r r' hr hr' h
    cases hu with
    | leaf hsym' =>
      rw [bracketed_leaf, bracketed_leaf] at h
      rcases Text.eq_of_append_stop hsym.ne_nil hsym'.ne_nil hsym.tail hsym'.tail hr hr' h with
        ⟨rfl, hrest⟩
      exact ⟨rfl, hrest⟩
    | node hsym' _ => exact absurd h (leaf_bracketed_ne_node hsym hsym' hr)
  | node hsym _ ih =>
    intro r r' hr hr' h
    cases hu with
    | leaf hsym' => exact absurd h.symm (leaf_bracketed_ne_node hsym' hsym hr')
    | node hsym' hbelow =>
      rw [bracketed_node_append, bracketed_node_append] at h
      rcases Text.eq_of_append_stop hsym.1 hsym'.1 hsym.tail hsym'.tail (isStop_bracketedAll _ r)
        (isStop_bracketedAll _ r') (List.cons.inj h).2 with ⟨rfl, hrest⟩
      rcases eq_of_bracketedAll_append (fun c hc d hd => ih c hc (hbelow d hd)) hrest with
        ⟨rfl, hr⟩
      exact ⟨rfl, hr⟩

theorem notMem_bracketedAll {mark : UInt8} (hblank : mark ≠ ' '.toUInt8) {ts : List Tree}
    (h : ∀ t ∈ ts, mark ∉ t.bracketed) : mark ∉ bracketedAll ts := by
  induction ts with
  | nil => exact List.not_mem_nil
  | cons t ts ih =>
    rw [List.forall_mem_cons] at h
    have hcons := bracketedAll_cons_append t ts []
    rw [List.append_nil, List.append_nil] at hcons
    rw [hcons, List.mem_cons, List.mem_append]
    rintro (hmark | hmark | hmark)
    · exact hblank hmark
    · exact h.1 hmark
    · exact ih h.2 hmark

/-- What does not occur in any symbol does not occur in bracket notation, unless it is a blank
    or a parenthesis. -/
theorem notMem_bracketed {mark : UInt8}
    (hmark : mark ≠ ' '.toUInt8 ∧ mark ≠ '('.toUInt8 ∧ mark ≠ ')'.toUInt8) {t : Tree}
    (h : t.Labelled (mark ∉ ·) (mark ∉ ·)) : mark ∉ t.bracketed := by
  induction h with
  | leaf hsym =>
    rw [bracketed_leaf]
    exact hsym
  | @node sym children hsym _ ih =>
    have hnode := bracketed_node_append sym children []
    rw [List.append_nil] at hnode
    rw [hnode, List.mem_cons, List.mem_append, List.mem_append, List.mem_singleton]
    rintro (hopen | hmem | hmem | hclose)
    · exact hmark.2.1 hopen
    · exact hsym hmem
    · exact notMem_bracketedAll hmark.1 ih hmem
    · exact hmark.2.2 hclose

end Tree

/-- The symbols in a derivation tree are those of the grammar, unless the tree is a leaf. -/
theorem Grammar.IsDerivation.labelled {g : Grammar} {leafKind nodeKind : Symbol → Prop}
    (hleaf : ∀ sym ∈ g.terminals, leafKind sym) (hnode : ∀ sym ∈ g.nonTerminals, nodeKind sym)
    {t : Tree} (ht : g.IsDerivation t) (hroot : t.isLeaf = false) :
    t.Labelled leafKind nodeKind := by
  induction ht with
  | leaf _ => cases hroot
  | @node sym children applied derived ih =>
    have hsym : g.isNonTerminal sym = true := isNonTerminal_of_mem_expansions applied
    refine .node (hnode sym ((isNonTerminal_iff_mem_nonTerminals g sym).1 hsym)) fun c hc => ?_
    cases c with
    | leaf sym' =>
      -- The leaf is in the alternative that has been applied.
      rcases exists_rule_of_mem_expansions applied with ⟨r, hr, _, hrhs⟩
      have hterminal := (g.isDerivation_leaf_iff sym').1 (derived _ hc)
      exact .leaf (hleaf sym' ((mem_terminals_iff g sym').2
        ⟨⟨r, hr, _, hrhs, List.mem_map_of_mem hc⟩, hterminal⟩))
    | node sym' children' => exact ih _ hc rfl

namespace Text

/-- Lines that are written with a line end behind each of them are read back as the parts
    between line ends, with nothing behind the last one. -/
theorem splitAt_lines {lines : List Text} (h : ∀ line ∈ lines, '\n'.toUInt8 ∉ line) :
    splitAt '\n'.toUInt8 (lines.flatMap fun line => line ++ Text.ofString "\n") =
      lines ++ [[]] := by
  induction lines with
  | nil => rfl
  | cons line lines ih =>
    rw [List.forall_mem_cons] at h
    have hrest := splitAt_cons_self '\n'.toUInt8
      (lines.flatMap fun line => line ++ Text.ofString "\n")
    have hclean : ∀ b ∈ line, b ≠ '\n'.toUInt8 := by
      rintro _ hb rfl
      exact h.1 hb
    have hline := splitAt_append hclean hrest
    rw [ih h.2, List.append_nil] at hline
    rw [List.flatMap_cons, List.append_assoc]
    exact hline

end Text

/-- The lines of trees in bracket notation, in presentation order. -/
def printedLines (ts : List MeasuredTree) : List Text :=
  (MeasuredTree.sorted ts).map Tree.bracketed

theorem printedLines_perm (ts : List MeasuredTree) :
    (printedLines ts).Perm (ts.map fun t => t.tree.bracketed) := by
  have hperm : (Tree.sort (ts.map (·.tree))).Perm (ts.map (·.tree)) := List.mergeSort_perm _ _
  rw [printedLines, MeasuredTree.sorted_eq_sort]
  simpa only [List.map_map, Function.comp_def] using hperm.map Tree.bracketed

theorem text_bracketStages_eq (ts : List MeasuredTree) :
    Stage.text (bracketStages ts) =
      (printedLines ts).flatMap fun line => line ++ Text.ofString "\n" := by
  rw [text_bracketStages, printedLines, MeasuredTree.sorted_eq_sort, List.flatMap_map]

theorem Tree.eq_of_bracketed_eq {t u : Tree} (ht : t.Labelled Text.IsSign Text.IsPlain)
    (hu : u.Labelled Text.IsSign Text.IsPlain) (h : t.bracketed = u.bracketed) : t = u := by
  refine (tellsApart ht hu [] [] Text.isStop_nil Text.isStop_nil ?_).1
  rw [h]

/-- No two trees have the same line. -/
theorem nodup_printedLines {ts : List MeasuredTree}
    (hts : ∀ t ∈ ts, t.tree.Labelled Text.IsSign Text.IsPlain)
    (hnodup : (ts.map (·.tree)).Nodup) : (printedLines ts).Nodup := by
  rw [(printedLines_perm ts).nodup_iff]
  refine List.pairwise_map.2 ((List.pairwise_map.1 hnodup).imp_of_mem fun ht hu hne h => ?_)
  exact hne (Tree.eq_of_bracketed_eq (hts _ ht) (hts _ hu) h)

/-- A grammar that has been read from a text has single characters for terminals. -/
theorem Grammar.isSign_of_load_eq {name text : Text} {g : Grammar} (h : load name text = .ok g) :
    ∀ sym ∈ g.terminals, sym.IsSign := by
  intro sym hsym
  rcases ((mem_terminals_iff g sym).1 hsym).1 with ⟨r, hr, rhs, hrhs, hmem⟩
  rcases (exists_symbols_of_load_eq h).1 r hr rhs hrhs with ⟨word, rfl⟩
  exact not_blank_of_mem_symbols hmem

/-- If leaves show single characters other than blanks, and nodes symbols without blanks and
    parentheses, the bracket notation determines the tree. The symbols of words and the
    terminals of grammars that have been read from a text are such characters. So different
    derivation trees do not have the same line, neither in the sequence of all lines nor, if
    no symbol has a line end in it, among the parts of the output between line ends. -/
theorem Tree.bracketed_determines :
    (∀ t u : Tree, t.Labelled Text.IsSign Text.IsPlain → u.Labelled Text.IsSign Text.IsPlain →
      t.bracketed = u.bracketed → t = u) ∧
      (∀ word : Text, ∀ sym ∈ symbols word, sym.IsSign) ∧
      (∀ (name text : Text) (g : Grammar), Grammar.load name text = .ok g →
        ∀ sym ∈ g.terminals, sym.IsSign) ∧
      ∀ g : Grammar, (∀ sym ∈ g.terminals, sym.IsSign) → (∀ sym ∈ g.nonTerminals, sym.IsPlain) →
        ∀ ts : List MeasuredTree,
          (∀ t ∈ ts, g.IsDerivation t.tree ∧ t.tree.isLeaf = false) →
          (ts.map (·.tree)).Nodup →
          (printedLines ts).Nodup ∧
            (printedLines ts).Perm (ts.map fun t => t.tree.bracketed) ∧
            Stage.text (bracketStages ts) =
              (printedLines ts).flatMap (fun line => line ++ Text.ofString "\n") ∧
            ((∀ sym ∈ g.terminals ++ g.nonTerminals, '\n'.toUInt8 ∉ sym) →
              Text.splitAt '\n'.toUInt8 (Stage.text (bracketStages ts)) =
                printedLines ts ++ [[]]) := by
  refine ⟨fun t u => eq_of_bracketed_eq, fun _ _ => not_blank_of_mem_symbols,
    fun name text g => Grammar.isSign_of_load_eq, fun g hleaf hnode ts hts hnodup =>
      ⟨?_, printedLines_perm ts, text_bracketStages_eq ts, fun hline => ?_⟩⟩
  · exact nodup_printedLines (fun t ht => (hts t ht).1.labelled hleaf hnode (hts t ht).2) hnodup
  · rw [text_bracketStages_eq]
    refine Text.splitAt_lines fun line hmem => ?_
    rcases List.mem_map.1 ((printedLines_perm ts).mem_iff.1 hmem) with ⟨t, ht, rfl⟩
    rw [List.forall_mem_append] at hline
    exact notMem_bracketed (by decide) ((hts t ht).1.labelled hline.1 hline.2 (hts t ht).2)

/-- A grammar with parentheses for terminals. -/
def Grammar.parentheses : Grammar :=
  .ofProductions "G" [("S", ["(", "S", ")"]), ("S", ["S", "S"]), ("S", [])]

/-- A pair of parentheses, derived without and with a symbol that vanishes. -/
def Tree.pairs : List MeasuredTree :=
  [.ofTree (node "S" [leaf "(", node "S" [], leaf ")"]),
    .ofTree (node "S" [node "S" [leaf "(", node "S" [], leaf ")"], node "S" []])]

/-- Two derivation trees with parentheses for leaves have different lines. -/
theorem Tree.bracketed_determines_pairs :
    Grammar.load "G" "S (S)|SS|" = .ok Grammar.parentheses ∧
      (∀ sym ∈ Grammar.parentheses.terminals, sym.IsSign) ∧
      (∀ t ∈ pairs, ∀ u ∈ pairs, t.tree ≠ u.tree → t.tree.bracketed ≠ u.tree.bracketed) ∧
      (printedLines pairs).Nodup ∧
      Text.splitAt '\n'.toUInt8 (Stage.text (bracketStages pairs)) =
        printedLines pairs ++ [[]] := by
  have hload : Grammar.load "G" "S (S)|SS|" = .ok Grammar.parentheses := by decide +kernel
  have hleaf := bracketed_determines.2.2.1 "G" "S (S)|SS|" Grammar.parentheses hload
  have hnode : ∀ sym ∈ Grammar.parentheses.nonTerminals, sym.IsPlain := by decide +kernel
  have hts : ∀ t ∈ pairs, Grammar.parentheses.IsDerivation t.tree ∧ t.tree.isLeaf = false := by
    decide +kernel
  have hlabelled : ∀ t ∈ pairs, t.tree.Labelled Text.IsSign Text.IsPlain := fun t ht =>
    (hts t ht).1.labelled hleaf hnode (hts t ht).2
  have hlines := bracketed_determines.2.2.2 Grammar.parentheses hleaf hnode pairs hts (by decide)
  refine ⟨hload, hleaf, fun t ht u hu hne h => hne ?_, hlines.1, hlines.2.2.2 (by decide +kernel)⟩
  exact bracketed_determines.1 t.tree u.tree (hlabelled t ht) (hlabelled u hu) h

end Derivations
