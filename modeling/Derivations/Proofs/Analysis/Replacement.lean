import Derivations.Proofs.Analysis.Closure
import Derivations.Proofs.Analysis.Marking

/-!
# Replacing a Symbol by Itself

A symbol is cyclic if it can be rewritten to itself, whatever appears beside it on the way
and vanishes again. The sequences that are passed through may be long and of any kind, but
all that matters of them can be told from the end: if a sequence derives a single symbol,
then one of its symbols leads there from successor to successor, and all others vanish. A
step taken back from such a sequence either puts back a symbol that has vanished, or one of
whose alternatives the symbol in question is what is left. That is then a successor of the
symbol which is put back.

The other way round is short. A successor stands in an alternative, and what is beside it
there vanishes by steps of its own.

Which symbols successors lead back to can be found by connecting places in a list, or by
symbols that sweep over what has been found for each other until there is nothing more to
find. Both ways find the same.

## Main definitions

* `Grammar.Leaves`: A sequence leads to a symbol, as it leaves one that does.

## Theorems

* `Grammar.derives_of_mem_successors`: A symbol is rewritten to each of its successors.
* `Grammar.leaves_append_iff`: Which part of a sequence the symbol is left of.
* `Grammar.leaves_of_derives`: What a sequence that derives a non-terminal looks like.
* `Grammar.transGen_step_iff`: Rewriting non-terminals is following successors.
* `Grammar.exists_repeats_turn`: Sweeps over the successors find the cyclic symbols.
* `Analysis.mem_cyclic_iff_derives_itself`: The cyclic symbols are those which are rewritten
  to themselves.
-/

namespace Derivations

namespace Grammar

variable {g : Grammar} {sym other : Symbol}

theorem derives_nil_of_nullable {syms : List Symbol} (h : ∀ s ∈ syms, s ∈ g.nullable) :
    g.Derives syms [] := by
  induction syms with
  | nil => exact .refl
  | cons s syms ih =>
    have hfirst : g.Derives [s] [] := (mem_nullable_iff_derives s).1 (h s List.mem_cons_self)
    have hrest : g.Derives syms [] := ih fun u hu => h u (List.mem_cons_of_mem s hu)
    exact hfirst.append hrest

/-- A symbol is rewritten to each of its successors, in one or more steps. -/
theorem derives_of_mem_successors (h : other ∈ g.successors g.nullable sym) :
    Relation.TransGen g.Step [sym] [other] := by
  unfold successors at h
  rcases List.mem_flatMap.1 h with ⟨rhs, hrhs, hremnant⟩
  rcases exists_split_of_mem_remnants hremnant with ⟨before, after, rfl, hbefore, hafter⟩
  have hstep : g.Step [sym] (before ++ other :: after) := by
    simpa using Step.replace [] [] hrhs
  have hvanish : g.Derives (before ++ [other] ++ after) [other] := by
    have hleft : g.Derives (before ++ [other]) [other] :=
      (derives_nil_of_nullable hbefore).append .refl
    exact hleft.append (derives_nil_of_nullable hafter)
  rw [List.append_assoc, List.singleton_append] at hvanish
  exact .head' hstep hvanish

/-- One symbol of a sequence leads to `sym` from successor to successor, and all symbols
    beside it can vanish. -/
def Leaves (g : Grammar) (sym : Symbol) (u : List Symbol) : Prop :=
  ∃ before other after, u = before ++ other :: after ∧ (∀ s ∈ before, s ∈ g.nullable) ∧
    (∀ s ∈ after, s ∈ g.nullable) ∧
    Relation.ReflTransGen (fun s other => other ∈ g.successors g.nullable s) other sym

theorem leaves_singleton
    (h : Relation.ReflTransGen (fun s other => other ∈ g.successors g.nullable s) other sym) :
    g.Leaves sym [other] :=
  ⟨[], other, [], rfl, by simp, by simp, h⟩

/-- The symbol is left of one of two parts, and the other part vanishes. -/
theorem leaves_append_iff {u v : List Symbol} :
    g.Leaves sym (u ++ v) ↔
      g.Leaves sym u ∧ (∀ s ∈ v, s ∈ g.nullable) ∨
        (∀ s ∈ u, s ∈ g.nullable) ∧ g.Leaves sym v := by
  constructor
  · rintro ⟨before, other, after, hsplit, hbefore, hafter, hpath⟩
    rcases List.append_eq_append_iff.1 hsplit with ⟨middle, rfl, rfl⟩ | ⟨middle, rfl, hv⟩
    · rw [List.forall_mem_append] at hbefore
      exact Or.inr ⟨hbefore.1, middle, other, after, rfl, hbefore.2, hafter, hpath⟩
    · cases middle with
      | nil =>
        rw [List.nil_append] at hv
        rw [List.append_nil]
        exact Or.inr ⟨hbefore, [], other, after, hv.symm, by simp, hafter, hpath⟩
      | cons first middle =>
        rw [List.cons_append, List.cons.injEq] at hv
        rcases hv with ⟨rfl, rfl⟩
        rw [List.forall_mem_append] at hafter
        exact Or.inl ⟨⟨before, other, middle, rfl, hbefore, hafter.1, hpath⟩, hafter.2⟩
  · rintro (⟨⟨before, other, after, rfl, hbefore, hafter, hpath⟩, hv⟩ |
      ⟨hu, before, other, after, rfl, hbefore, hafter, hpath⟩)
    · refine ⟨before, other, after ++ v, by simp, hbefore, ?_, hpath⟩
      exact List.forall_mem_append.2 ⟨hafter, hv⟩
    · refine ⟨u ++ before, other, after, by simp, ?_, hafter, hpath⟩
      exact List.forall_mem_append.2 ⟨hu, hbefore⟩

-- Whoever leads to a non-terminal from successor to successor is one.
theorem isNonTerminal_of_path (hn : g.isNonTerminal sym = true)
    (h : Relation.ReflTransGen (fun s other => other ∈ g.successors g.nullable s) other sym) :
    g.isNonTerminal other = true := by
  induction h using Relation.ReflTransGen.head_induction_on with
  | refl => exact hn
  | head hsucc _ _ => exact isNonTerminal_of_mem_successors hsucc

/-- If an alternative leaves a symbol, the symbol it is an alternative of leads there. -/
theorem Leaves.path_of_mem_expansions {lhs : Symbol} {rhs : List Symbol}
    (h : g.Leaves sym rhs) (hn : g.isNonTerminal sym = true) (hrhs : rhs ∈ g.expansions lhs) :
    Relation.TransGen (fun s other => other ∈ g.successors g.nullable s) lhs sym := by
  rcases h with ⟨before, other, after, rfl, hbefore, hafter, hpath⟩
  have hremnant : other ∈ g.remnants g.nullable (before ++ other :: after) :=
    mem_remnants (isNonTerminal_of_path hn hpath) hbefore hafter
  have hsucc : other ∈ g.successors g.nullable lhs := by
    unfold successors
    exact List.mem_flatMap.2 ⟨_, hrhs, hremnant⟩
  exact .head' hsucc hpath

/-- A step taken back: what has been replaced vanishes, or it is where the symbol is left. -/
theorem Step.leaves {u v : List Symbol} (hstep : g.Step u v) (hn : g.isNonTerminal sym = true)
    (h : g.Leaves sym v) : g.Leaves sym u := by
  cases hstep with
  | @replace before after lhs rhs applied =>
    have hvanish : (∀ s ∈ rhs, s ∈ g.nullable) → ∀ s ∈ [lhs], s ∈ g.nullable := by
      intro hrhs s hs
      rw [List.mem_singleton.1 hs]
      exact mem_nullable_of_mem_expansions applied hrhs
    have hmiddle : g.Leaves sym rhs → g.Leaves sym [lhs] := by
      intro hrhs
      exact leaves_singleton (hrhs.path_of_mem_expansions hn applied).to_reflTransGen
    rw [← List.singleton_append, ← List.append_assoc]
    simp only [leaves_append_iff, List.forall_mem_append] at h ⊢
    rcases h with ⟨⟨hleft, hrhs⟩ | ⟨hleft, hrhs⟩, hright⟩ | ⟨⟨hleft, hrhs⟩, hright⟩
    · exact Or.inl ⟨Or.inl ⟨hleft, hvanish hrhs⟩, hright⟩
    · exact Or.inl ⟨Or.inr ⟨hleft, hmiddle hrhs⟩, hright⟩
    · exact Or.inr ⟨⟨hleft, hvanish hrhs⟩, hright⟩

/-- In a sequence that derives a non-terminal, some symbol leads to it, and all others can
    vanish. -/
theorem leaves_of_derives {u : List Symbol} (hn : g.isNonTerminal sym = true)
    (h : g.Derives u [sym]) : g.Leaves sym u := by
  -- Induction from the end of the derivation, where nothing but the symbol is there.
  induction h using Relation.ReflTransGen.head_induction_on with
  | refl => exact leaves_singleton .refl
  | head hstep _ ih => exact hstep.leaves hn ih

theorem mem_expansions_of_step {v : List Symbol} (h : g.Step [sym] v) : v ∈ g.expansions sym := by
  generalize hu : [sym] = u at h
  cases h with
  | @replace before after lhs rhs applied =>
    -- A symbol that stands alone is the one that is replaced.
    rcases List.append_eq_singleton_iff.1 hu.symm with ⟨rfl, hlhs⟩ | ⟨_, hnil⟩
    · rw [List.cons.injEq] at hlhs
      rcases hlhs with ⟨rfl, rfl⟩
      simpa using applied
    · exact absurd hnil (List.cons_ne_nil _ _)

/-- A symbol is rewritten to a non-terminal in one or more steps if and only if it leads
    there from successor to successor. -/
theorem transGen_step_iff (hn : g.isNonTerminal other = true) :
    Relation.TransGen g.Step [sym] [other] ↔
      Relation.TransGen (fun s other => other ∈ g.successors g.nullable s) sym other := by
  constructor
  · intro h
    rcases Relation.TransGen.head'_iff.1 h with ⟨rhs, hstep, hrest⟩
    exact (leaves_of_derives hn hrest).path_of_mem_expansions hn (mem_expansions_of_step hstep)
  · intro h
    clear hn
    induction h with
    | single hsucc => exact derives_of_mem_successors hsucc
    | tail _ hsucc ih => exact ih.trans (derives_of_mem_successors hsucc)

/-- The cyclic symbols are the non-terminals that are rewritten to themselves. -/
theorem mem_cyclic_iff_transGen_step :
    sym ∈ g.cyclic ↔ g.isNonTerminal sym = true ∧ Relation.TransGen g.Step [sym] [sym] := by
  rw [mem_cyclic_iff]
  constructor
  · intro h
    have hn : g.isNonTerminal sym = true := by
      rcases Relation.TransGen.head'_iff.1 h with ⟨other, hsucc, _⟩
      exact isNonTerminal_of_mem_successors hsucc
    exact ⟨hn, (transGen_step_iff hn).2 h⟩
  · rintro ⟨hn, h⟩
    exact (transGen_step_iff hn).1 h

/-- The loop that follows successors in place ends with all that symbols lead to, and those for
    which they have been found themselves are the cyclic ones. -/
theorem exists_repeats_turn (g : Grammar) :
    ∃ f, Repeats (sweep Found.turn g.nonTerminals) (Found.direct (g.successors g.nullable)) f ∧
      (∀ sym other, other ∈ f.of sym ↔
        Relation.TransGen (fun s other => other ∈ g.successors g.nullable s) sym other) ∧
      (g.nonTerminals.filter fun sym => (f.of sym).contains sym).Perm g.cyclic := by
  have hentries : ∀ s, g.successors g.nullable s ≠ [] → s ∈ g.nonTerminals := by
    intro s hs
    rcases List.exists_mem_of_ne_nil _ hs with ⟨other, hother⟩
    exact (g.isNonTerminal_iff_mem_nonTerminals s).1 (isNonTerminal_of_mem_successors hother)
  rcases Found.exists_repeats_turn hentries with ⟨f, hrepeats, hfound⟩
  refine ⟨f, hrepeats, hfound, ?_⟩
  refine (List.perm_ext_iff_of_nodup (g.distinct.filter _) g.nodup_cyclic).2 fun sym => ?_
  rw [List.mem_filter, List.contains_iff_mem, hfound, ← mem_cyclic_iff]
  refine ⟨And.right, fun h => ⟨?_, h⟩⟩
  exact (g.isNonTerminal_iff_mem_nonTerminals sym).1 (mem_cyclic_iff_transGen_step.1 h).1

end Grammar

namespace Analysis

theorem cyclic_eq_sort {g : Grammar} {a : Analysis} (ha : of? g = some a) :
    a.cyclic = Text.sort g.cyclic := by
  rw [of?, Option.map_eq_some_iff] at ha
  rcases ha with ⟨start, _, rfl⟩
  rfl

/-- The cyclic symbols are the non-terminals that can be rewritten to themselves, in one or
    more steps. They are listed in strictly ascending order. They are also what is found by
    following successors in place: sweeps over the non-terminals, each of which adds to its
    own set all that has been found for the members of this set, until no set has grown. -/
theorem mem_cyclic_iff_derives_itself {g : Grammar} {start : Symbol}
    (hg : g.start? = some start) :
    ∃ a, of? g = some a ∧
      (∀ sym, sym ∈ a.cyclic ↔
        g.isNonTerminal sym = true ∧ Relation.TransGen g.Step [sym] [sym]) ∧
      a.cyclic.Pairwise (· < ·) ∧
      ∃ f, Repeats (sweep Found.turn g.nonTerminals) (Found.direct (g.successors g.nullable)) f ∧
        (∀ sym other, other ∈ f.of sym ↔
          Relation.TransGen (fun s other => other ∈ g.successors g.nullable s) sym other) ∧
        Text.sort (g.nonTerminals.filter fun sym => (f.of sym).contains sym) = a.cyclic := by
  rcases exists_of?_eq hg with ⟨a, ha⟩
  have hascending : (Text.sort g.cyclic).Pairwise (· < ·) := pairwise_lt_sort g.nodup_cyclic
  refine ⟨a, ha, fun sym => ?_, ?_, ?_⟩
  · rw [cyclic_eq_sort ha, mem_sort, Grammar.mem_cyclic_iff_transGen_step]
  · rw [cyclic_eq_sort ha]
    exact hascending
  · rcases g.exists_repeats_turn with ⟨f, hrepeats, hfound, hperm⟩
    refine ⟨f, hrepeats, hfound, ?_⟩
    rw [cyclic_eq_sort ha]
    exact sort_eq_of_perm (hperm.trans (perm_sort g.cyclic).symm) hascending

theorem mem_cyclic_iff_derives_itself_detours :
    Grammar.detours.start? = some (Text.ofString "S") ∧
      ∃ a, of? Grammar.detours = some a ∧ a.cyclic = [Text.ofString "A", "B"] ∧
        Relation.TransGen Grammar.detours.Step ["B"] ["B"] ∧
        ¬Relation.TransGen Grammar.detours.Step ["N"] ["N"] ∧
        ∃ f, Repeats (sweep Found.turn Grammar.detours.nonTerminals)
            (Found.direct (Grammar.detours.successors Grammar.detours.nullable)) f ∧
          Text.sort (Grammar.detours.nonTerminals.filter fun sym => (f.of sym).contains sym) =
            [Text.ofString "A", "B"] := by
  have hg : Grammar.detours.start? = some (Text.ofString "S") := rfl
  rcases mem_cyclic_iff_derives_itself hg with ⟨a, ha, hmem, _, f, hrepeats, _, hsorted⟩
  have hcyclic : a.cyclic = [Text.ofString "A", "B"] := by
    have hlisted : Grammar.detours.cyclic = [Text.ofString "A", "B"] := by decide +kernel
    rw [cyclic_eq_sort ha, hlisted]
    exact sort_eq_of_perm (by decide) (by decide)
  rw [hcyclic] at hmem hsorted
  refine ⟨hg, a, ha, hcyclic, ((hmem "B").1 (by decide)).2, fun h => ?_, f, hrepeats, hsorted⟩
  exact absurd ((hmem "N").2 ⟨rfl, h⟩) (by decide)

end Analysis

end Derivations
