import Derivations.Proofs.Collection.OrderedSet

/-!
# Arriving in Order

What an ordered set holds after any number of additions depends on the elements alone and
in no way on their hashes. Whatever equals one of them is contained. Of elements that
equal each other the first one stays, at the place where it arrived, and the others leave
no trace; that is what erasing duplicates from the sequence of additions does.

The buckets are what depends on the hashes. Every position is in one of them, and as a
new position is greater than all the positions there are, no bucket has a position twice.

## Main definitions

* `OrderedSet.add`: Adds an element and tells whether it has been added.
* `OrderedSet.Descending`: No bucket has a position twice, and later ones come first.

## Theorems

* `OrderedSet.Proper.contains_insertAll_iff`: What is contained after additions.
* `OrderedSet.Proper.toList_insertAll`: What a set holds after additions.
* `OrderedSet.Descending.insert`: Additions keep the buckets without repetition.
-/

namespace Derivations

namespace OrderedSet

variable {α : Type u} [BEq α] [Hashable α]

/-- Later positions stand in front of earlier ones in every bucket. -/
def Descending (s : OrderedSet α) : Prop :=
  ∀ h, (s.bucket h).Pairwise (· > ·)

/-- Adds an element unless an equal one is present, and tells whether it has been added. -/
def add (s : OrderedSet α) (a : α) : Bool × OrderedSet α :=
  if s.contains a then (false, s) else (true, s.insert a)

theorem fst_add (s : OrderedSet α) (a : α) : (s.add a).1 = !s.contains a := by
  rw [add]
  cases s.contains a <;> rfl

theorem snd_add (s : OrderedSet α) (a : α) : (s.add a).2 = s.insert a := by
  rw [add, insert]
  cases s.contains a <;> rfl

theorem mem_insertAll_of_mem (as : List α) (s : OrderedSet α) {b : α} (hb : b ∈ s.toList) :
    b ∈ (s.insertAll as).toList := by
  induction as generalizing s with
  | nil => exact hb
  | cons a as ih => exact ih (s.insert a) ((mem_toList_insert s a b).2 (Or.inl hb))

theorem mem_or_mem_of_mem_insertAll (as : List α) (s : OrderedSet α) {b : α}
    (hb : b ∈ (s.insertAll as).toList) : b ∈ s.toList ∨ b ∈ as := by
  induction as generalizing s with
  | nil => exact Or.inl hb
  | cons a as ih =>
    -- What is there in the end was there after the first addition, or came later.
    rcases ih (s.insert a) hb with h | h
    · rcases (mem_toList_insert s a b).1 h with h | ⟨_, rfl⟩
      · exact Or.inl h
      · exact Or.inr List.mem_cons_self
    · exact Or.inr (List.mem_cons_of_mem a h)

-- Elements keep their places when others are added.
theorem prefix_insertAll (as : List α) (s : OrderedSet α) :
    s.toList <+: (s.insertAll as).toList := by
  induction as generalizing s with
  | nil => exact List.prefix_refl _
  | cons a as ih =>
    refine List.IsPrefix.trans ?_ (ih (s.insert a))
    rw [toList_insert]
    split
    · exact List.prefix_refl _
    · exact List.prefix_append _ _

theorem insertAll_append (as bs : List α) (s : OrderedSet α) :
    s.insertAll (as ++ bs) = (s.insertAll as).insertAll bs :=
  List.foldl_append

omit [BEq α] [Hashable α] in
theorem descending_empty : (empty : OrderedSet α).Descending := by
  intro h
  simp [bucket, empty]

theorem Descending.insert {s : OrderedSet α} (hd : s.Descending) (hi : s.Indexed) (a : α) :
    (s.insert a).Descending := by
  intro h
  by_cases hc : s.contains a = true
  · rw [OrderedSet.insert, if_pos hc]
    exact hd h
  · rw [bucket_insert s a h (Bool.eq_false_iff.2 hc)]
    split
    · -- The new position is the size, and there is no element at or behind it.
      refine List.pairwise_cons.2 ⟨fun i hmem => ?_, hd h⟩
      rcases (hi h i).1 hmem with ⟨b, hb, _⟩
      exact (Array.getElem?_eq_some_iff.1 hb).1
    · exact hd h

theorem Descending.insertAll (as : List α) {s : OrderedSet α} (hd : s.Descending)
    (hi : s.Indexed) : (s.insertAll as).Descending := by
  induction as generalizing s with
  | nil => exact hd
  | cons a as ih => exact ih (hd.insert hi a) (hi.insert a)

section

variable [LawfulHashable α]

theorem Proper.insertAll (as : List α) {s : OrderedSet α} (hs : s.Proper) :
    (s.insertAll as).Proper := by
  induction as generalizing s with
  | nil => exact hs
  | cons a as ih => exact ih (hs.insert a)

end

section

variable [LawfulBEq α]

theorem mem_insertAll (as : List α) (s : OrderedSet α) {a : α} (ha : a ∈ as) :
    a ∈ (s.insertAll as).toList := by
  induction as generalizing s with
  | nil => exact absurd ha List.not_mem_nil
  | cons b as ih =>
    rcases List.mem_cons.1 ha with rfl | ha
    · -- One that equals it is there, and with this equality that is the element itself.
      rcases exists_mem_insert s a with ⟨c, hc, hca⟩
      rw [eq_of_beq hca] at hc
      exact mem_insertAll_of_mem as (s.insert a) hc
    · exact ih (s.insert b) ha

end

/-- A set in order has no repetition. -/
theorem Proper.nodup [ReflBEq α] {s : OrderedSet α} (hs : s.Proper) : s.toList.Nodup :=
  hs.distinct.imp fun {a b} h hab => by
    rw [hab, BEq.rfl] at h
    exact Bool.noConfusion h

variable [EquivBEq α] [LawfulHashable α]

theorem Proper.contains_insert_iff {s : OrderedSet α} (hs : s.Proper) (a x : α) :
    (s.insert a).contains x = true ↔ s.contains x = true ∨ (a == x) = true := by
  rw [(hs.insert a).indexed.contains_iff, hs.indexed.contains_iff]
  constructor
  · rintro ⟨b, hb, hbx⟩
    rcases (mem_toList_insert s a b).1 hb with hb | ⟨_, rfl⟩
    · exact Or.inl ⟨b, hb, hbx⟩
    · exact Or.inr hbx
  · rintro (⟨b, hb, hbx⟩ | hax)
    · exact ⟨b, (mem_toList_insert s a b).2 (Or.inl hb), hbx⟩
    · -- The element added may have been kept out by one that equals it.
      rcases exists_mem_insert s a with ⟨b, hb, hba⟩
      exact ⟨b, hb, BEq.trans hba hax⟩

/-- After additions, whatever equals an element of the set or one of those added is
    contained. -/
theorem Proper.contains_insertAll_iff {s : OrderedSet α} (hs : s.Proper) (as : List α) (x : α) :
    (s.insertAll as).contains x = true ↔
      s.contains x = true ∨ ∃ a ∈ as, (a == x) = true := by
  induction as generalizing s with
  | nil =>
    change s.contains x = true ↔ _
    simp
  | cons a as ih =>
    change ((s.insert a).insertAll as).contains x = true ↔ _
    rw [ih (hs.insert a), hs.contains_insert_iff, or_assoc]
    simp

/-- A sequence of additions leaves what erasing its duplicates leaves, starting from the
    elements that are there. -/
theorem Proper.toList_insertAll {s : OrderedSet α} (hs : s.Proper) (as : List α) :
    (s.insertAll as).toList = List.eraseDupsBy.loop (· == ·) as s.toList.reverse := by
  induction as generalizing s with
  | nil => rw [List.eraseDupsBy.loop, List.reverse_reverse]; rfl
  | cons a as ih =>
    -- Erasing duplicates looks among the elements kept, the last one first.
    have hany : s.toList.reverse.any (a == ·) = s.contains a := by
      rw [Bool.eq_iff_iff, hs.indexed.contains_iff, List.any_reverse, List.any_eq_true]
      simp only [BEq.comm (a := a)]
    change ((s.insert a).insertAll as).toList = _
    rw [ih (hs.insert a), toList_insert, List.eraseDupsBy.loop, hany]
    cases s.contains a with
    | true => rfl
    | false => rw [if_neg Bool.false_ne_true, List.reverse_append]; rfl

/-- A set holds the first ones of the elements that have arrived. -/
theorem toList_insertAll_empty (as : List α) :
    ((empty : OrderedSet α).insertAll as).toList = as.eraseDups :=
  proper_empty.toList_insertAll as

end OrderedSet

end Derivations
