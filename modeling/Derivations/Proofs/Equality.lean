import Derivations.Chart.Item

/-!
# Equality by Hashes

Trees, chains of trees and chart items carry their hashes with them, and every
comparison looks at the hashes first. That is sound as long as a hash depends on
nothing but what the comparison goes on to compare: then things that are equal
have equal hashes, and the first look never tells apart what the second one would
have found equal.

The layers rest on each other. Measured trees are equal if their trees are, so
chains of them are equal if they list the same trees, and items if they agree in
what identifies them. The right-hand side of an item is not compared, and it has
no part in the hash either.

## Main definitions

* `Item.trees`: The partial parse of an item as plain trees.
* `Item.identity`: What tells items apart.

## Theorems

* `Chain.beq_eq_beq_items`: Chains are compared like the lists of their elements.
* `MeasuredTree.beq_iff_tree_eq`: Measured trees are compared like their trees.
* `Item.beq_iff_identity_eq`: Items are compared by what identifies them.
-/

namespace Derivations

namespace Chain

variable {α : Type u} [Hashable α] [BEq α] [LawfulHashable α]

/-- Lists of equal elements have equal hashes. -/
theorem listHash_eq_of_beq (as bs : List α) (h : (as == bs) = true) :
    listHash as = listHash bs := by
  induction as generalizing bs with
  | nil =>
    cases bs with
    | nil => rfl
    | cons b bs => exact absurd h Bool.false_ne_true
  | cons a as ih =>
    cases bs with
    | nil => exact absurd h Bool.false_ne_true
    | cons b bs =>
      rw [List.cons_beq_cons, Bool.and_eq_true] at h
      rw [listHash, listHash, LawfulHashable.hash_eq a b h.1, ih bs h.2]

/-- Chains are compared like the lists of their elements. -/
theorem beq_eq_beq_items (c d : Chain α) : (c == d) = (c.items == d.items) := by
  change same c d = _
  -- Lengths and hashes are compared first, but equal lists agree in both.
  rw [same, c.length_eq, d.length_eq, c.hash_eq, d.hash_eq]
  cases h : c.items == d.items with
  | false => rw [Bool.and_false]
  | true =>
    rw [List.length_eq_of_beq h, listHash_eq_of_beq _ _ h]
    simp

end Chain

namespace MeasuredTree

/-- Measured trees are equal if and only if their trees are. -/
theorem beq_iff_tree_eq (s t : MeasuredTree) : (s == t) = true ↔ s.tree = t.tree := by
  change same s t = true ↔ _
  rw [same, Bool.and_eq_true, beq_iff_eq, decide_eq_true_iff, s.hash_eq, t.hash_eq]
  exact ⟨And.right, fun h => ⟨by rw [h], h⟩⟩

instance : EquivBEq MeasuredTree where
  rfl := by
    intro t
    rw [beq_iff_tree_eq]
  symm := by
    intro s t h
    rw [beq_iff_tree_eq] at h ⊢
    exact h.symm
  trans := by
    intro r s t hrs hst
    rw [beq_iff_tree_eq] at hrs hst ⊢
    exact hrs.trans hst

instance : LawfulHashable MeasuredTree where
  hash_eq s t h := by
    change s.hash = t.hash
    rw [s.hash_eq, t.hash_eq, (beq_iff_tree_eq s t).1 h]

/-- Lists of measured trees are equal if and only if they list the same trees. -/
theorem beq_list_iff_map_tree_eq (ss ts : List MeasuredTree) :
    (ss == ts) = true ↔ ss.map (·.tree) = ts.map (·.tree) := by
  induction ss generalizing ts with
  | nil => cases ts <;> simp
  | cons s ss ih =>
    cases ts with
    | nil => simp
    | cons t ts =>
      rw [List.cons_beq_cons, Bool.and_eq_true, beq_iff_tree_eq, ih, List.map_cons,
        List.map_cons, List.cons.injEq]

end MeasuredTree

namespace Item

/-- The partial parse as plain trees. -/
def trees (item : Item) : List Tree :=
  item.parsed.items.map (·.tree)

/-- What tells items apart: left-hand side, alternative, dot, anchor and partial
    parse. -/
def identity (item : Item) : Symbol × Int × Nat × Int × List Tree :=
  (item.lhs, item.alternative, item.dot, item.anchor, item.trees)

/-- The hash of an item is determined by what identifies the item. -/
theorem hash_eq_of_identity_eq {i j : Item} (h : i.identity = j.identity) : i.hash = j.hash := by
  simp only [identity, Prod.mk.injEq] at h
  rcases h with ⟨hl, ha, hd, hn, ht⟩
  have hp : i.parsed.hash = j.parsed.hash := by
    rw [i.parsed.hash_eq, j.parsed.hash_eq, MeasuredTree.listHash_eq_hashAll,
      MeasuredTree.listHash_eq_hashAll]
    exact congrArg Tree.hashAll ht
  rw [i.hash_eq, j.hash_eq, hl, ha, hd, hn, hp]

/-- Items are equal if and only if they agree in what identifies them. -/
theorem beq_iff_identity_eq (i j : Item) : (i == j) = true ↔ i.identity = j.identity := by
  have hp : (i.parsed == j.parsed) = true ↔ i.trees = j.trees := by
    rw [Chain.beq_eq_beq_items, MeasuredTree.beq_list_iff_map_tree_eq]
    rfl
  change same i j = true ↔ _
  simp only [same, Bool.and_eq_true, beq_iff_eq, hp]
  constructor
  · rintro ⟨⟨⟨⟨⟨_, hn⟩, hd⟩, ha⟩, hl⟩, ht⟩
    rw [identity, identity, hl, ha, hd, hn, ht]
  · intro h
    -- The hash is compared too, and it never tells such items apart.
    have hh := hash_eq_of_identity_eq h
    simp only [identity, Prod.mk.injEq] at h
    rcases h with ⟨hl, ha, hd, hn, ht⟩
    exact ⟨⟨⟨⟨⟨hh, hn⟩, hd⟩, ha⟩, hl⟩, ht⟩

instance : EquivBEq Item where
  rfl := by
    intro i
    rw [beq_iff_identity_eq]
  symm := by
    intro i j h
    rw [beq_iff_identity_eq] at h ⊢
    exact h.symm
  trans := by
    intro i j k hij hjk
    rw [beq_iff_identity_eq] at hij hjk ⊢
    exact hij.trans hjk

instance : LawfulHashable Item where
  hash_eq i j h := hash_eq_of_identity_eq ((beq_iff_identity_eq i j).1 h)

end Item

end Derivations
