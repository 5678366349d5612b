import Derivations.Tree.Basic

/-!
# What a Tree Yields

The yield of a tree is put together from the yields of its parts, leaving out
those which yield nothing. It can as well be read off the frontier: it consists
of the symbols there that are not empty, separated by blanks.

## Main definitions

* `Tree.visible`: The symbols of the frontier that are not empty.

## Theorems

* `Tree.yield_eq_words`: The yield is made of the visible symbols.
-/

namespace Derivations

namespace Text

@[simp]
theorem words_singleton (t : Text) : words [t] = t :=
  List.intercalate_singleton

/-- Words followed by further words are separated from them by a blank. -/
theorem words_append {s t : List Text} (hs : s ≠ []) (ht : t ≠ []) :
    words (s ++ t) = words s ++ " " ++ words t := by
  induction s with
  | nil => exact absurd rfl hs
  | cons a s ih =>
    cases s with
    | nil =>
      cases t with
      | nil => exact absurd rfl ht
      | cons b t => simp [words]
    | cons b s =>
      have h := ih (List.cons_ne_nil b s)
      simp only [words, List.cons_append] at h ⊢
      rw [List.intercalate_cons_cons, h, List.intercalate_cons_cons]
      simp

/-- Words that are not empty make up a text that is not empty, if there are
    any. -/
theorem words_eq_nil_iff {s : List Text} (hs : ∀ w ∈ s, w ≠ []) : words s = [] ↔ s = [] := by
  cases s with
  | nil => simp [words]
  | cons a s =>
    have ha : a ≠ [] := hs a List.mem_cons_self
    cases s <;> simp [words, ha]

end Text

namespace Tree

/-- The symbols of the frontier that are not empty. -/
def visible (t : Tree) : List Symbol :=
  t.frontier.filter (!·.isEmpty)

/-- The symbols on the frontiers of several trees that are not empty. -/
def visibleAll (ts : List Tree) : List Symbol :=
  (frontierAll ts).filter (!·.isEmpty)

@[simp]
theorem visible_node (sym : Symbol) (children : List Tree) :
    (node sym children).visible = visibleAll children :=
  rfl

@[simp]
theorem visibleAll_nil : visibleAll [] = [] :=
  rfl

@[simp]
theorem visibleAll_cons (t : Tree) (ts : List Tree) :
    visibleAll (t :: ts) = t.visible ++ visibleAll ts := by
  simp [visibleAll, visible, frontierAll]

/-- Visible symbols are not empty. -/
theorem ne_nil_of_mem_visible {t : Tree} {sym : Symbol} (h : sym ∈ t.visible) : sym ≠ [] := by
  simpa [visible] using (List.mem_filter.1 h).2

/-- A tree that yields nothing is left out. -/
theorem yieldAll_cons_of_eq_nil {t : Tree} {ts : List Tree} (h : t.yield = []) :
    yieldAll (t :: ts) = yieldAll ts := by
  rw [yieldAll, h]

/-- A tree that yields something is not left out. -/
theorem yieldAll_cons_of_ne_nil {t : Tree} {ts : List Tree} (h : t.yield ≠ []) :
    yieldAll (t :: ts) = t.yield :: yieldAll ts := by
  rw [yieldAll]
  split
  · rename_i hn
    exact absurd hn h
  · rename_i hc
    rw [hc]

mutual

/-- The yield consists of the visible symbols, separated by blanks. -/
theorem yield_eq_words (t : Tree) : t.yield = Text.words t.visible := by
  match t with
  | leaf sym =>
    cases sym with
    | nil => rfl
    | cons b rest => simp [yield, visible, frontier, Text.words]
  | node sym children =>
    rw [yield, visible_node]
    exact (words_yieldAll children).1

/-- What several trees yield consists of their visible symbols, and they yield
    nothing if and only if nothing is visible. -/
theorem words_yieldAll (ts : List Tree) :
    Text.words (yieldAll ts) = Text.words (visibleAll ts) ∧
      (yieldAll ts = [] ↔ visibleAll ts = []) := by
  match ts with
  | [] => simp [yieldAll]
  | t :: ts =>
    have ht := yield_eq_words t
    have hts := words_yieldAll ts
    have hv : t.yield = [] ↔ t.visible = [] := by
      rw [ht]
      exact Text.words_eq_nil_iff fun _ h => ne_nil_of_mem_visible h
    rw [visibleAll_cons]
    by_cases hy : t.yield = []
    · simpa [yieldAll_cons_of_eq_nil hy, hv.1 hy] using hts
    · have hne : t.visible ≠ [] := fun h => hy (hv.2 h)
      refine ⟨?_, by simp [yieldAll_cons_of_ne_nil hy, hne]⟩
      rw [yieldAll_cons_of_ne_nil hy]
      by_cases hr : yieldAll ts = []
      · rw [hr, hts.2.1 hr, ht]
        simp [Text.words]
      · have hw : visibleAll ts ≠ [] := fun h => hr (hts.2.2 h)
        rw [Text.words_append hne hw, ← hts.1, ← ht]
        have h := Text.words_append (List.cons_ne_nil t.yield []) hr
        rwa [Text.words_singleton] at h

end

end Tree

end Derivations
