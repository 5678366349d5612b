import Derivations.Analysis.Basic
import Derivations.Proofs.Grammar.Derivation

/-!
# What Leads Back to Itself

Connecting by way of one number after the other relates every number to all it leads
to. A relation passes through a number if it relates whatever is related by way of
it. Connecting by way of a number makes the relation pass through it, and no number
that it has passed through before is lost by that. In the end it passes through all
numbers that are related to any.

Elements of a list lead to each other as their places do, provided that none of them
has two places. The cyclic symbols are those from which successors lead back. On
their way are none but symbols with successors, so it makes no difference that only
these are looked at.

## Main definitions

* `BitRelation.Passes`: Being related by way of a number is being related.
* `places`: How the places of elements are related.

## Theorems

* `BitRelation.Passes.through`, `BitRelation.passes_through`: What a relation passes
  through when it has been connected by way of a number.
* `BitRelation.holds_transitive_iff`: Everything is related to all it leads to.
* `mem_returning_iff`: The elements that lead back to themselves.
* `Grammar.mem_cyclic_iff`: Cyclic symbols are led back to by their successors.
-/

namespace Derivations

namespace BitRelation

/-- Whatever is related by way of `k` is related. -/
def Passes (r : BitRelation) (k : Nat) : Prop :=
  ∀ i j, r.holds i k = true → r.holds k j = true → r.holds i j = true

/-- Only numbers that have a row are related to others. -/
theorem lt_length_of_holds {r : BitRelation} {i j : Nat} (h : r.holds i j = true) :
    i < r.rows.length := by
  by_cases hi : i < r.rows.length
  · exact hi
  · rw [holds, List.getD_eq_getElem?_getD, List.getElem?_eq_none (by omega), Option.getD_none,
      Nat.zero_testBit] at h
    exact absurd h Bool.false_ne_true

/-- Connecting by way of a number keeps what is related. -/
theorem holds_through_of_holds {r : BitRelation} (k : Nat) {i j : Nat}
    (h : r.holds i j = true) : (r.through k).holds i j = true := by
  rw [holds_through, h, Bool.true_or]

/-- A relation that has been connected by way of a number passes through it. -/
theorem passes_through (r : BitRelation) (k : Nat) : (r.through k).Passes k := by
  intro i j hi hj
  simp only [holds_through, Bool.or_eq_true, Bool.and_eq_true] at hi hj ⊢
  exact Or.inr ⟨hi.elim id And.left, hj.elim id And.right⟩

/-- It still passes through the numbers that it has passed through before. -/
theorem Passes.through {r : BitRelation} {m : Nat} (h : r.Passes m) (k : Nat) :
    (r.through k).Passes m := by
  intro i j hi hj
  simp only [holds_through, Bool.or_eq_true, Bool.and_eq_true] at hi hj ⊢
  rcases hi with hi | ⟨hik, hkm⟩
  · rcases hj with hj | ⟨hmk, hkj⟩
    · exact Or.inl (h i j hi hj)
    · exact Or.inr ⟨h i k hi hmk, hkj⟩
  · rcases hj with hj | ⟨_, hkj⟩
    · exact Or.inr ⟨hik, h k j hkm hj⟩
    · exact Or.inr ⟨hik, hkj⟩

/-- A relation that has been connected by way of numbers passes through each of them,
    and through those it has passed through before. -/
theorem passes_foldl_through (ks : List Nat) {r : BitRelation} {m : Nat}
    (h : m ∈ ks ∨ r.Passes m) : (ks.foldl BitRelation.through r).Passes m := by
  induction ks generalizing r with
  | nil => exact h.resolve_left List.not_mem_nil
  | cons k ks ih =>
    refine ih ?_
    rcases h with h | h
    · rcases List.mem_cons.1 h with rfl | h
      · exact Or.inr (r.passes_through m)
      · exact Or.inl h
    · exact Or.inr (h.through k)

/-- It relates what has been related before. -/
theorem holds_foldl_through_of_holds (ks : List Nat) {r : BitRelation} {i j : Nat}
    (h : r.holds i j = true) : (ks.foldl BitRelation.through r).holds i j = true := by
  induction ks generalizing r with
  | nil => exact h
  | cons k ks ih => exact ih (holds_through_of_holds k h)

/-- Connecting by way of a number relates numbers to what they lead to. -/
theorem transGen_of_holds_through {r : BitRelation} {k i j : Nat}
    (h : (r.through k).holds i j = true) :
    Relation.TransGen (fun i j => r.holds i j = true) i j := by
  rw [holds_through, Bool.or_eq_true, Bool.and_eq_true] at h
  rcases h with h | ⟨hik, hkj⟩
  · exact .single h
  · exact .tail (.single hik) hkj

/-- So does connecting by way of numbers one after the other. -/
theorem transGen_of_holds_foldl_through (ks : List Nat) {r : BitRelation} {i j : Nat}
    (h : (ks.foldl BitRelation.through r).holds i j = true) :
    Relation.TransGen (fun i j => r.holds i j = true) i j := by
  induction ks generalizing r with
  | nil => exact .single h
  | cons k ks ih =>
    have hpath := ih h
    clear h ih
    induction hpath with
    | single hs => exact transGen_of_holds_through hs
    | tail _ hs hpath => exact hpath.trans (transGen_of_holds_through hs)

/-- Everything is related to all that it leads to, and to nothing else. -/
theorem holds_transitive_iff (r : BitRelation) (i j : Nat) :
    r.transitive.holds i j = true ↔ Relation.TransGen (fun i j => r.holds i j = true) i j := by
  refine ⟨transGen_of_holds_foldl_through _, fun h => ?_⟩
  induction h with
  | single hs => exact holds_foldl_through_of_holds _ hs
  | @tail m j _ hs ih =>
    -- The number in between is related to another, so it has had its turn.
    refine passes_foldl_through _ (Or.inl ?_) i j ih (holds_foldl_through_of_holds _ hs)
    exact List.mem_range.2 (lt_length_of_holds hs)

end BitRelation

section Returning

variable {α : Type} [BEq α] [LawfulBEq α]

/-- An element that does not repeat has one place. -/
theorem idxOf?_eq_some_iff_of_nodup {elements : List α} (h : elements.Nodup) (a : α) (i : Nat) :
    elements.idxOf? a = some i ↔ elements[i]? = some a := by
  rw [List.idxOf?_eq_some_iff, List.getElem?_eq_some_iff]
  constructor
  · rintro ⟨hi, ha, _⟩
    exact ⟨hi, ha⟩
  · rintro ⟨hi, ha⟩
    refine ⟨hi, ha, fun j hj hja => ?_⟩
    have hij := (List.getElem_inj h).1 (hja.trans ha.symm)
    omega

/-- The relation of places to those their elements lead to in one step. -/
def places (elements : List α) (next : α → List α) : BitRelation :=
  ⟨elements.map fun a => BitRelation.row ((next a).filterMap (elements.idxOf? ·))⟩

/-- Places are related if the elements there lead to each other in one step. -/
theorem holds_places_iff {elements : List α} (h : elements.Nodup) (next : α → List α)
    (i j : Nat) :
    (places elements next).holds i j = true ↔
      ∃ a b, elements[i]? = some a ∧ elements[j]? = some b ∧ b ∈ next a := by
  rw [BitRelation.holds, places, List.getD_eq_getElem?_getD, List.getElem?_map]
  cases ha : elements[i]? with
  | none => simp
  | some a =>
    simp only [Option.map_some, Option.getD_some, BitRelation.testBit_row, decide_eq_true_eq,
      List.mem_filterMap, idxOf?_eq_some_iff_of_nodup h, Option.some.injEq]
    constructor
    · rintro ⟨b, hb, hj⟩
      exact ⟨a, b, rfl, hj, hb⟩
    · rintro ⟨_, b, rfl, hj, hb⟩
      exact ⟨b, hb, hj⟩

/-- Elements lead to each other if their places do. -/
theorem transGen_places_iff {elements : List α} (h : elements.Nodup) (next : α → List α)
    {i j : Nat} {a b : α} (ha : elements[i]? = some a) (hb : elements[j]? = some b) :
    Relation.TransGen (fun i j => (places elements next).holds i j = true) i j ↔
      Relation.TransGen (fun a b => a ∈ elements ∧ b ∈ elements ∧ b ∈ next a) a b := by
  constructor
  · intro hpath
    induction hpath generalizing b with
    | single hs =>
      rcases (holds_places_iff h next _ _).1 hs with ⟨c, d, hc, hd, hcd⟩
      rw [ha] at hc
      rw [hb] at hd
      rw [← Option.some.inj hc, ← Option.some.inj hd] at hcd
      exact .single ⟨List.mem_of_getElem? ha, List.mem_of_getElem? hb, hcd⟩
    | tail _ hs ih =>
      rcases (holds_places_iff h next _ _).1 hs with ⟨c, d, hc, hd, hcd⟩
      rw [hb] at hd
      rw [← Option.some.inj hd] at hcd
      exact .tail (ih hc) ⟨List.mem_of_getElem? hc, List.mem_of_getElem? hb, hcd⟩
  · intro hpath
    induction hpath generalizing j with
    | single hs => exact .single ((holds_places_iff h next _ _).2 ⟨_, _, ha, hb, hs.2.2⟩)
    | tail _ hs ih =>
      rcases List.getElem?_of_mem hs.1 with ⟨m, hm⟩
      exact .tail (ih hm) ((holds_places_iff h next _ _).2 ⟨_, _, hm, hb, hs.2.2⟩)

/-- The elements that lead back to themselves by way of elements. -/
theorem mem_returning_iff {elements : List α} (h : elements.Nodup) (next : α → List α) (a : α) :
    a ∈ returning elements next ↔
      Relation.TransGen (fun a b => a ∈ elements ∧ b ∈ elements ∧ b ∈ next a) a a := by
  -- The bit that is looked at is the one at the place of the element.
  have hplace : a ∈ returning elements next ↔ ∃ i, elements[i]? = some a ∧
      (places elements next).transitive.holds i i = true := by
    change a ∈ (elements.zip (places elements next).transitive.rows).zipIdx.filterMap _ ↔ _
    rw [List.mem_filterMap]
    constructor
    · rintro ⟨⟨⟨b, row⟩, i⟩, hmem, hrow⟩
      rw [List.mk_mem_zipIdx_iff_getElem?, List.getElem?_zip_eq_some] at hmem
      simp only [Option.ite_none_right_eq_some, Option.some.injEq] at hrow
      rcases hrow with ⟨hbit, rfl⟩
      refine ⟨i, hmem.1, ?_⟩
      rw [BitRelation.holds, List.getD_eq_getElem?_getD, hmem.2]
      exact hbit
    · rintro ⟨i, ha, hi⟩
      have hrow := List.getElem?_eq_getElem (BitRelation.lt_length_of_holds hi)
      refine ⟨((a, _), i), List.mk_mem_zipIdx_iff_getElem?.2
        (List.getElem?_zip_eq_some.2 ⟨ha, hrow⟩), ?_⟩
      rw [BitRelation.holds, List.getD_eq_getElem?_getD, hrow] at hi
      exact if_pos hi
  rw [hplace]
  constructor
  · rintro ⟨i, ha, hi⟩
    exact (transGen_places_iff h next ha ha).1 ((BitRelation.holds_transitive_iff _ i i).1 hi)
  · intro hpath
    have hmem : a ∈ elements := by
      cases hpath with
      | single hs => exact hs.1
      | tail _ hs => exact hs.2.1
    rcases List.getElem?_of_mem hmem with ⟨i, ha⟩
    exact ⟨i, ha, (BitRelation.holds_transitive_iff _ i i).2
      ((transGen_places_iff h next ha ha).2 hpath)⟩

omit [BEq α] [LawfulBEq α] in
-- A selection among elements beside which there is something else.
theorem filterMap_zip_sublist (elements : List α) {select : (α × Nat) × Nat → Option α}
    (h : ∀ entry a, select entry = some a → entry.1.1 = a) (rows : List Nat) (place : Nat) :
    (((elements.zip rows).zipIdx place).filterMap select).Sublist elements := by
  induction elements generalizing rows place with
  | nil => simp
  | cons a elements ih =>
    cases rows with
    | nil => simp
    | cons row rows =>
      rw [List.zip_cons_cons, List.zipIdx_cons, List.filterMap_cons]
      cases hselect : select ((a, row), place) with
      | none => exact (ih rows (place + 1)).cons a
      | some b =>
        rw [← h _ b hselect]
        exact (ih rows (place + 1)).cons_cons a

omit [LawfulBEq α] in
/-- Elements that lead back to themselves are listed in the order of all elements. -/
theorem returning_sublist (elements : List α) (next : α → List α) :
    (returning elements next).Sublist elements := by
  refine filterMap_zip_sublist elements (fun entry a h => ?_) _ 0
  rcases entry with ⟨⟨b, row⟩, place⟩
  simp only [Option.ite_none_right_eq_some, Option.some.injEq] at h
  exact h.2

omit [BEq α] [LawfulBEq α] in
/-- Whoever leads back to itself does so by way of elements that lead to some. -/
theorem transGen_of_next_ne_nil_iff (next : α → List α) (a : α) :
    Relation.TransGen (fun a b => next a ≠ [] ∧ next b ≠ [] ∧ b ∈ next a) a a ↔
      Relation.TransGen (fun a b => b ∈ next a) a a := by
  have hforget : ∀ b, Relation.TransGen (fun a b => next a ≠ [] ∧ next b ≠ [] ∧ b ∈ next a) a b →
      Relation.TransGen (fun a b => b ∈ next a) a b := by
    intro b hpath
    induction hpath with
    | single hs => exact .single hs.2.2
    | tail _ hs ih => exact .tail ih hs.2.2
  have hfirst : ∀ b, Relation.TransGen (fun a b => b ∈ next a) a b → next a ≠ [] := by
    intro b hpath
    induction hpath with
    | single hs => exact List.ne_nil_of_mem hs
    | tail _ _ ih => exact ih
  -- Whatever is not the end of a path leads on, so only the end has to be known to.
  have hlast : ∀ b, Relation.TransGen (fun a b => b ∈ next a) a b → next b ≠ [] →
      Relation.TransGen (fun a b => next a ≠ [] ∧ next b ≠ [] ∧ b ∈ next a) a b := by
    intro b hpath hb
    induction hpath with
    | single hs => exact .single ⟨List.ne_nil_of_mem hs, hb, hs⟩
    | tail _ hs ih =>
      have hne := List.ne_nil_of_mem hs
      exact .tail (ih hne) ⟨hne, hb, hs⟩
  exact ⟨hforget a, fun hpath => hlast a hpath (hfirst a hpath)⟩

end Returning

namespace Grammar

variable {g : Grammar}

/-- Only non-terminals have successors. -/
theorem isNonTerminal_of_mem_successors {nullable : List Symbol} {sym other : Symbol}
    (h : other ∈ g.successors nullable sym) : g.isNonTerminal sym = true := by
  rcases List.mem_flatMap.1 h with ⟨rhs, hrhs, _⟩
  exact isNonTerminal_of_mem_expansions hrhs

/-- Looking for a symbol among those with something listed for them finds what is
    listed for it. -/
theorem getD_lookup_filter_map (syms : List Symbol) (f : Symbol → List Symbol) (sym : Symbol) :
    ((((syms.map fun s => (s, f s)).filter (!·.2.isEmpty)).lookup sym).getD []) =
      if sym ∈ syms then f sym else [] := by
  induction syms with
  | nil => rfl
  | cons s syms ih =>
    rw [List.map_cons, List.filter_cons]
    by_cases hs : sym = s
    · subst hs
      rw [if_pos List.mem_cons_self]
      cases hf : f sym with
      | nil =>
        simp only [List.isEmpty_nil, Bool.not_true, if_neg Bool.false_ne_true, ih, hf, ite_self]
      | cons other rest => simp
    · have hmem : sym ∈ s :: syms ↔ sym ∈ syms := by simp [hs]
      simp only [hmem]
      rw [← ih]
      split
      · rw [List.lookup_cons, beq_false_of_ne hs]
      · rfl

theorem nodup_replaceable (g : Grammar) :
    (((g.nonTerminals.map fun s => (s, g.successors g.nullable s)).filter
      (!·.2.isEmpty)).map (·.1)).Nodup := by
  refine List.Nodup.sublist (List.Sublist.map _ List.filter_sublist) ?_
  rw [List.map_map]
  exact (List.map_id g.nonTerminals).symm ▸ g.distinct

theorem nodup_cyclic (g : Grammar) : g.cyclic.Nodup := by
  unfold cyclic
  exact g.nodup_replaceable.sublist (returning_sublist _ _)

/-- The cyclic symbols are those whose successors lead back to them. -/
theorem mem_cyclic_iff (sym : Symbol) :
    sym ∈ g.cyclic ↔
      Relation.TransGen (fun sym other => other ∈ g.successors g.nullable sym) sym sym := by
  have helements : ∀ s, s ∈ ((g.nonTerminals.map fun s => (s, g.successors g.nullable s)).filter
      (!·.2.isEmpty)).map (·.1) ↔ g.successors g.nullable s ≠ [] := by
    intro s
    simp only [List.mem_map, List.mem_filter, Bool.not_eq_true', List.isEmpty_eq_false_iff]
    constructor
    · rintro ⟨_, ⟨⟨s, _, rfl⟩, hne⟩, rfl⟩
      exact hne
    · intro hne
      rcases List.exists_mem_of_ne_nil _ hne with ⟨other, hother⟩
      have hs := (g.isNonTerminal_iff_mem_nonTerminals s).1 (isNonTerminal_of_mem_successors hother)
      exact ⟨_, ⟨⟨s, hs, rfl⟩, hne⟩, rfl⟩
  rw [cyclic, mem_returning_iff g.nodup_replaceable]
  simp only [helements, getD_lookup_filter_map]
  -- Looking up a symbol that is left out finds nothing, and it has no successors either.
  have hnext : ∀ s other, (other ∈ if s ∈ g.nonTerminals then g.successors g.nullable s else []) ↔
      other ∈ g.successors g.nullable s := by
    intro s other
    split
    · rfl
    · rename_i hs
      refine ⟨fun h => absurd h List.not_mem_nil, fun h => absurd ?_ hs⟩
      exact (g.isNonTerminal_iff_mem_nonTerminals s).1 (isNonTerminal_of_mem_successors h)
  simp only [hnext]
  exact transGen_of_next_ne_nil_iff (g.successors g.nullable) sym

end Grammar

end Derivations
