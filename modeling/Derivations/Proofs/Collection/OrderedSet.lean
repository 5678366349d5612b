import Derivations.Collection.OrderedSet

/-!
# Membership in Ordered Sets

An ordered set looks for an element in one bucket only, so whether it finds what
is there depends on no element ever having been put into a wrong one. The buckets
are in order if every position stands in the bucket for the hash of its element
and nowhere else. Insertion keeps them in order, and then a set contains just the
elements which equal one of those that arrived, however hashes collide.

A set in order never takes in an element twice.

## Main definitions

* `OrderedSet.Indexed`: Every position is in the bucket for its hash.
* `OrderedSet.Proper`: A set in order, without repetition.

## Theorems

* `OrderedSet.exists_of_contains`: What is contained has arrived.
* `OrderedSet.Indexed.contains_iff`: In a set in order, what has arrived is
  contained.
* `OrderedSet.Indexed.insert`, `OrderedSet.Proper.insert`: Insertion keeps a set
  in order, and without repetition.
* `OrderedSet.mem_toList_insert`: What is in a set after an insertion.
* `OrderedSet.exists_mem_insert`: An element inserted has an equal one in the
  set.
-/

namespace Derivations

namespace OrderedSet

variable {α : Type u} [BEq α] [Hashable α]

/-- Every position is in the bucket for the hash of its element, and in no other
    bucket. Buckets hold nothing else. -/
def Indexed (s : OrderedSet α) : Prop :=
  ∀ h i, i ∈ s.bucket h ↔ ∃ a, s.elems[i]? = some a ∧ hash a = h

/-- A set with its buckets in order and no two equal elements. -/
structure Proper (s : OrderedSet α) : Prop where
  indexed : s.Indexed
  distinct : s.toList.Pairwise fun a b => (a == b) = false

omit [BEq α] in
theorem indexed_empty : (empty : OrderedSet α).Indexed := by
  intro h i
  simp [bucket, empty]

theorem proper_empty : (empty : OrderedSet α).Proper :=
  ⟨indexed_empty, List.Pairwise.nil⟩

/-- What is contained has arrived. This does not depend on the buckets being in
    order, as the elements they lead to are compared. -/
theorem exists_of_contains {s : OrderedSet α} {a : α} (h : s.contains a = true) :
    ∃ b ∈ s.toList, (b == a) = true := by
  rw [contains, List.any_eq_true] at h
  rcases h with ⟨i, _, hi⟩
  rw [matchesAt] at hi
  cases hb : s.elems[i]? with
  | none => rw [hb] at hi; exact absurd hi Bool.false_ne_true
  | some b =>
    rw [hb] at hi
    exact ⟨b, Array.mem_toList_iff.2 (Array.mem_of_getElem? hb), hi⟩

/-- In a set in order, an element is contained if and only if one that equals it
    has arrived. -/
theorem Indexed.contains_iff [LawfulHashable α] {s : OrderedSet α} (hs : s.Indexed) (a : α) :
    s.contains a = true ↔ ∃ b ∈ s.toList, (b == a) = true := by
  refine ⟨exists_of_contains, ?_⟩
  rintro ⟨b, hb, hba⟩
  rcases Array.mem_iff_getElem?.1 (Array.mem_toList_iff.1 hb) with ⟨i, hi⟩
  rw [contains, List.any_eq_true]
  refine ⟨i, (hs (hash a) i).2 ⟨b, hi, LawfulHashable.hash_eq b a hba⟩, ?_⟩
  rw [matchesAt, hi]
  exact hba

/-- An insertion that adds an element adds its position to the bucket for its
    hash. -/
theorem bucket_insert (s : OrderedSet α) (a : α) (h : UInt64) (hc : s.contains a = false) :
    (s.insert a).bucket h = if hash a = h then s.size :: s.bucket h else s.bucket h := by
  have hi : s.insert a =
      ⟨s.elems.push a, s.buckets.insert (hash a) (s.size :: s.bucket (hash a))⟩ := by
    rw [insert, hc, if_neg Bool.false_ne_true]
  rw [bucket, hi, Std.TreeMap.getD_insert]
  by_cases heq : hash a = h
  · rw [if_pos heq, heq, if_pos Std.ReflCmp.compare_self]
  · rw [if_neg heq, if_neg (fun hcmp => heq (Std.LawfulEqCmp.eq_of_compare hcmp))]
    rfl

/-- Insertion keeps a set in order. -/
theorem Indexed.insert {s : OrderedSet α} (hs : s.Indexed) (a : α) : (s.insert a).Indexed := by
  intro h i
  by_cases hc : s.contains a = true
  · rw [OrderedSet.insert, if_pos hc]
    exact hs h i
  · have hc' : s.contains a = false := Bool.eq_false_iff.2 hc
    have helems : (s.insert a).elems = s.elems.push a := by
      rw [OrderedSet.insert, if_neg hc]
    rw [bucket_insert s a h hc', helems, Array.getElem?_push]
    have hold := hs h i
    -- The new position is the old size, so no bucket has held it so far.
    by_cases hi : i = s.elems.size
    · have hnot : i ∉ s.bucket h := by
        rw [hold, hi, Array.getElem?_size]
        rintro ⟨b, hb, _⟩
        exact absurd hb (by simp)
      rw [if_pos hi]
      by_cases heq : hash a = h
      · simp [heq, hi, size]
      · simp [heq, hnot]
    · rw [if_neg hi]
      by_cases heq : hash a = h
      · rw [if_pos heq, List.mem_cons, ← hold]
        simp [size, hi]
      · rw [if_neg heq, hold]

/-- Insertion keeps a set without repetition. -/
theorem Proper.insert [LawfulHashable α] {s : OrderedSet α} (hs : s.Proper) (a : α) :
    (s.insert a).Proper := by
  refine ⟨hs.indexed.insert a, ?_⟩
  rw [toList_insert]
  by_cases hc : s.contains a = true
  · rw [if_pos hc]
    exact hs.distinct
  · rw [if_neg hc, List.pairwise_append]
    refine ⟨hs.distinct, List.pairwise_singleton _ _, fun b hb c hcm => ?_⟩
    rw [List.mem_singleton.1 hcm, Bool.eq_false_iff]
    exact fun hba => hc ((hs.indexed.contains_iff a).2 ⟨b, hb, hba⟩)

/-- After an insertion a set holds what it held before and, unless an equal
    element was there, the one inserted. -/
theorem mem_toList_insert (s : OrderedSet α) (a b : α) :
    b ∈ (s.insert a).toList ↔ b ∈ s.toList ∨ s.contains a = false ∧ b = a := by
  rw [toList_insert]
  cases hc : s.contains a <;> simp

/-- An element inserted has an equal one in the set, if only itself. -/
theorem exists_mem_insert [ReflBEq α] (s : OrderedSet α) (a : α) :
    ∃ b ∈ (s.insert a).toList, (b == a) = true := by
  cases hc : s.contains a with
  | true =>
    rcases exists_of_contains hc with ⟨b, hb, hba⟩
    exact ⟨b, (mem_toList_insert s a b).2 (Or.inl hb), hba⟩
  | false => exact ⟨a, (mem_toList_insert s a a).2 (Or.inr ⟨hc, rfl⟩), BEq.rfl⟩

end OrderedSet

end Derivations
