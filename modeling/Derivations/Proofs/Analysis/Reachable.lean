import Derivations.Analysis.Basic
import Derivations.Proofs.Collection.Iteration
import Derivations.Proofs.Grammar.Derivation
import Mathlib.Logic.Relation

/-!
# What the Search Reaches

The reachable symbols are found by a search through an ordered set that begins with the
start symbol and grows by what its elements mention. All of these are non-terminals, and
there are no more non-terminals than rules, so there are enough steps for the search to
end with a closed set.

## Theorems

* `Grammar.nodup_reachable`: No symbol is found twice.
* `Grammar.mem_reachable_start`, `Grammar.mem_reachable_of_mem_expansions`: The start
  symbol is reachable, and so is every non-terminal that a reachable one mentions.
* `Grammar.path_of_mem_reachable`: Symbols that mention each other lead from the start
  symbol to every reachable one.
-/

namespace Derivations

namespace Grammar

variable {g : Grammar}

/-- What a symbol mentions are non-terminals. -/
theorem mem_mentioned_iff {sym other : Symbol} :
    other ∈ g.mentioned sym ↔
      g.isNonTerminal other = true ∧ ∃ rhs ∈ g.expansions sym, other ∈ rhs := by
  simp only [mentioned, List.mem_flatMap, List.mem_filter]
  constructor
  · rintro ⟨rhs, hrhs, hother, hn⟩
    exact ⟨hn, rhs, hrhs, hother⟩
  · rintro ⟨hn, rhs, hrhs, hother⟩
    exact ⟨rhs, hrhs, hother, hn⟩

-- The search has seen all elements of a set without repetition that is closed.
theorem exists_reachable_eq {start : Symbol} (h : g.isNonTerminal start = true) :
    ∃ s : OrderedSet Symbol, g.reachable start = s.toList ∧ s.Proper ∧ start ∈ s.toList ∧
      ∀ sym ∈ s.toList, ∀ other ∈ g.mentioned sym, other ∈ s.toList := by
  have hfirst : (OrderedSet.empty.insert start : OrderedSet Symbol).toList = [start] := rfl
  rcases OrderedSet.visit_closed g.mentioned g.nonTerminals
      (fun sym other hother =>
        (g.isNonTerminal_iff_mem_nonTerminals other).1 (mem_mentioned_iff.1 hother).1)
      g.rules.length 0 (OrderedSet.empty.insert start)
      (OrderedSet.proper_empty.insert start)
      (fun sym hsym => by
        rw [hfirst, List.mem_singleton] at hsym
        rw [hsym]
        exact (g.isNonTerminal_iff_mem_nonTerminals start).1 h)
      (by simp [nonTerminals]) (fun sym hsym => absurd hsym (by simp)) with
    ⟨hproper, hsub, hclosed⟩
  have hsize := hproper.nodup.length_le_of_subset hsub
  rw [← OrderedSet.size_eq_length, nonTerminals, List.length_map] at hsize
  rcases (OrderedSet.ranges_visit g.mentioned g.rules.length 0 _
    (Nat.le_trans hsize (Nat.le_add_left _ 0))).eq_drop with ⟨hpre, hseen⟩
  exact ⟨_, by rw [reachable, hseen, List.drop_zero], hproper,
    hpre.subset (List.mem_singleton_self start), hclosed⟩

/-- The reachable symbols are a closed set that the start symbol is in. -/
theorem reachable_closed {start : Symbol} (h : g.isNonTerminal start = true) :
    start ∈ g.reachable start ∧
      ∀ sym ∈ g.reachable start, ∀ other ∈ g.mentioned sym, other ∈ g.reachable start := by
  rcases exists_reachable_eq h with ⟨s, heq, _, hstart, hclosed⟩
  rw [heq]
  exact ⟨hstart, hclosed⟩

/-- No symbol is found twice. -/
theorem nodup_reachable {start : Symbol} (h : g.isNonTerminal start = true) :
    (g.reachable start).Nodup := by
  rcases exists_reachable_eq h with ⟨s, heq, hproper, _⟩
  rw [heq]
  exact hproper.nodup

/-- The start symbol is reachable. -/
theorem mem_reachable_start {start : Symbol} (h : g.isNonTerminal start = true) :
    start ∈ g.reachable start :=
  (reachable_closed h).1

/-- Every non-terminal in an alternative of a reachable symbol is reachable. -/
theorem mem_reachable_of_mem_expansions {start sym other : Symbol} {rhs : List Symbol}
    (h : g.isNonTerminal start = true) (hsym : sym ∈ g.reachable start)
    (hrhs : rhs ∈ g.expansions sym) (hother : other ∈ rhs)
    (hn : g.isNonTerminal other = true) : other ∈ g.reachable start :=
  (reachable_closed h).2 sym hsym other (mem_mentioned_iff.2 ⟨hn, rhs, hrhs, hother⟩)

/-- Symbols that mention each other lead from the start symbol to every reachable one. -/
theorem path_of_mem_reachable {start sym : Symbol} (h : sym ∈ g.reachable start) :
    Relation.ReflTransGen (fun s other => other ∈ g.mentioned s) start sym := by
  unfold reachable at h
  refine OrderedSet.visit_forall g.mentioned (fun s hs other hother => ?_) _ _ _ ?_ sym h
  · exact hs.tail hother
  · intro s hs
    have hfirst : (OrderedSet.empty.insert start : OrderedSet Symbol).toList = [start] := rfl
    rw [hfirst, List.mem_singleton] at hs
    subst hs
    exact .refl

end Grammar

end Derivations
