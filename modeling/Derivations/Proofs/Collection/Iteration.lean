import Derivations.Proofs.Collection.Arrival

/-!
# Iterating over a Growing Set

An iteration over an ordered set goes from position to position until there is none left.
Elements may be added on the way; they arrive behind all others, so the elements in front
of the position stay where they are and the new ones are still to come. An iteration that
has come to its end has therefore seen the elements of the set as it is then, in order and
each of them once. What is added at which position makes no difference to that.

A search is an iteration in which every element brings others along. When the position has
arrived at the end, the set is closed. Since elements do not repeat, a bound on how many
there can be bounds the number of steps.

## Main definitions

* `OrderedSet.Ranges`: An iteration to the end, with any additions on the way.

## Theorems

* `OrderedSet.Ranges.eq_drop`: An iteration sees what the set holds in the end.
* `OrderedSet.ranges_visit`: A search with enough steps is such an iteration.
* `OrderedSet.visit_closed`: A search with enough steps ends with a closed set.
* `OrderedSet.visit_forall`: A search sees nothing but what it is led to.
* `OrderedSet.holds_first_arrivals`: What a set holds after additions, and what
  iterations over it see.
-/

namespace Derivations

namespace OrderedSet

/-- An iteration that goes from a position to the end of the set. At every element seen,
    any elements may be added before it goes on. The iteration relates the position and the
    set at its beginning to the elements seen and the set at its end. -/
inductive Ranges {α : Type u} [BEq α] [Hashable α] :
    Nat → OrderedSet α → List α → OrderedSet α → Prop where
  | done {i : Nat} {s : OrderedSet α} (arrived : s.elems[i]? = none) : Ranges i s [] s
  | next {i : Nat} {s s' : OrderedSet α} {a : α} {seen : List α} (added : List α)
      (found : s.elems[i]? = some a) (rest : Ranges (i + 1) (s.insertAll added) seen s') :
      Ranges i s (a :: seen) s'

variable {α : Type u} [BEq α] [Hashable α] {i : Nat} {s s' : OrderedSet α} {seen : List α}

omit [BEq α] [Hashable α] in
theorem getElem?_elems (s : OrderedSet α) (i : Nat) : s.elems[i]? = s.toList[i]? :=
  Array.getElem?_toList.symm

/-- An iteration sees the elements of the set as it is at the end, from its position on.
    Elements that were there at the beginning have kept their places. -/
theorem Ranges.eq_drop (h : Ranges i s seen s') :
    s.toList <+: s'.toList ∧ seen = s'.toList.drop i := by
  induction h with
  | @done i s arrived =>
    rw [getElem?_elems, List.getElem?_eq_none_iff] at arrived
    exact ⟨List.prefix_refl _, (List.drop_of_length_le arrived).symm⟩
  | @next i s s' a seen added found rest ih =>
    -- The element has kept its place, so the rest of the iteration goes on behind it.
    have hpre : s.toList <+: s'.toList := (prefix_insertAll added s).trans ih.1
    rw [getElem?_elems] at found
    have hget : s'.toList[i]? = some a := by
      rcases hpre with ⟨more, hmore⟩
      rw [← hmore, List.getElem?_append_left (List.getElem?_eq_some_iff.1 found).1, found]
    refine ⟨hpre, ?_⟩
    rw [List.drop_eq_getElem?_toList_append, hget, ← ih.2]
    rfl

theorem Ranges.exists_insertAll (h : Ranges i s seen s') : ∃ added, s' = s.insertAll added := by
  induction h with
  | done _ => exact ⟨[], rfl⟩
  | next added _ _ ih =>
    rcases ih with ⟨more, rfl⟩
    exact ⟨added ++ more, (insertAll_append added more _).symm⟩

/-- A search that has not run out of steps is an iteration to the end. -/
theorem ranges_visit (brings : α → List α) (steps i : Nat) (s : OrderedSet α)
    (h : (s.visit brings steps i).2.size ≤ i + steps) :
    Ranges i s (s.visit brings steps i).1 (s.visit brings steps i).2 := by
  induction steps generalizing i s with
  | zero => exact .done (Array.getElem?_eq_none h)
  | succ steps ih =>
    rw [visit] at h ⊢
    cases ha : s.elems[i]? with
    | none => exact .done ha
    | some a =>
      -- One step less is left, at one position further on.
      rw [ha] at h
      refine .next (brings a) ha (ih (i + 1) _ ?_)
      rw [Nat.add_right_comm]
      exact h

-- What holds of the elements at hand and passes on to what they bring along holds of all
-- elements seen, however many steps there are.
theorem visit_forall {holds : α → Prop} (brings : α → List α)
    (h : ∀ a, holds a → ∀ b ∈ brings a, holds b) (steps i : Nat) (s : OrderedSet α)
    (hs : ∀ a ∈ s.toList, holds a) : ∀ a ∈ (s.visit brings steps i).1, holds a := by
  induction steps generalizing i s with
  | zero => exact fun a ha => absurd ha List.not_mem_nil
  | succ steps ih =>
    intro a ha
    unfold visit at ha
    cases hi : s.elems[i]? with
    | none =>
      rw [hi] at ha
      exact absurd ha List.not_mem_nil
    | some first =>
      rw [hi] at ha
      have hfirst : holds first := hs first (Array.mem_toList_iff.2 (Array.mem_of_getElem? hi))
      rcases List.mem_cons.1 ha with rfl | ha
      · exact hfirst
      · refine ih (i + 1) _ (fun b hb => ?_) a ha
        rcases mem_or_mem_of_mem_insertAll (brings first) s hb with hb | hb
        · exact hs b hb
        · exact h first hfirst b hb

section

variable [LawfulBEq α]

/-- A search with as many steps as there can be elements in front of it ends with a
    set that is closed. `range` holds every element there can be, and what has been seen
    before has brought everything along. -/
theorem visit_closed (brings : α → List α) (range : List α)
    (hrange : ∀ a, ∀ b ∈ brings a, b ∈ range) (steps i : Nat) (s : OrderedSet α)
    (hs : s.Proper) (hsub : ∀ a ∈ s.toList, a ∈ range) (hsteps : range.length ≤ i + steps)
    (hseen : ∀ a ∈ s.toList.take i, ∀ b ∈ brings a, b ∈ s.toList) :
    (s.visit brings steps i).2.Proper ∧
      (∀ a ∈ (s.visit brings steps i).2.toList, a ∈ range) ∧
      ∀ a ∈ (s.visit brings steps i).2.toList, ∀ b ∈ brings a,
        b ∈ (s.visit brings steps i).2.toList := by
  induction steps generalizing i s with
  | zero =>
    -- No more steps than elements are needed, so the position is behind all of them.
    have hle : s.toList.length ≤ i := Nat.le_trans (hs.nodup.length_le_of_subset hsub) hsteps
    rw [List.take_of_length_le hle] at hseen
    exact ⟨hs, hsub, hseen⟩
  | succ steps ih =>
    rw [visit]
    cases ha : s.elems[i]? with
    | none =>
      -- There is nothing at the position, so everything has been seen.
      rw [getElem?_elems, List.getElem?_eq_none_iff] at ha
      rw [List.take_of_length_le ha] at hseen
      exact ⟨hs, hsub, hseen⟩
    | some a =>
      rw [getElem?_elems] at ha
      refine ih (i + 1) _ (hs.insertAll (brings a)) (fun b hb => ?_) (by omega) ?_
      · rcases mem_or_mem_of_mem_insertAll (brings a) s hb with hb | hb
        · exact hsub b hb
        · exact hrange a b hb
      · -- In front of the next position are the elements seen before and `a`.
        intro c hc b hb
        rcases prefix_insertAll (brings a) s with ⟨added, hadded⟩
        rw [← hadded, List.take_append_of_le_length (List.getElem?_eq_some_iff.1 ha).1,
          List.take_add_one, ha, List.mem_append] at hc
        rcases hc with hc | hc
        · exact mem_insertAll_of_mem (brings a) s (hseen c hc b hb)
        · rw [List.mem_singleton.1 hc] at hb
          exact mem_insertAll (brings a) s hb

end

section

variable [EquivBEq α] [LawfulHashable α]

/-- After any additions to the empty set, an element is added if and only if none has been
    added before that equals it. What equals one that has been added is contained, and the
    set holds the first of those that equal each other, in order of arrival. The buckets
    hold every position once, by hash. An iteration to the end sees every element that the
    set holds then exactly once, in order, whatever is added on the way. -/
theorem holds_first_arrivals {as : List α} {s : OrderedSet α} (hs : s = empty.insertAll as) :
    (∀ x, ((s.add x).1 = true ↔ ¬∃ a ∈ as, (a == x) = true) ∧
      (s.add x).2 = empty.insertAll (as ++ [x])) ∧
    (∀ x, s.contains x = true ↔ ∃ a ∈ as, (a == x) = true) ∧
    s.toList = as.eraseDups ∧ s.toList.Pairwise (fun a b => (a == b) = false) ∧
    s.size = as.eraseDups.length ∧
    (∀ h, (s.bucket h).Nodup ∧
      ∀ i, i ∈ s.bucket h ↔ ∃ a, s.toList[i]? = some a ∧ hash a = h) ∧
    (∀ seen s', Ranges 0 s seen s' →
      seen = s'.toList ∧ seen.Pairwise (fun a b => (a == b) = false) ∧
      ∃ added, s' = empty.insertAll (as ++ added)) ∧
    ∀ brings steps, (s.visit brings steps 0).2.size ≤ steps →
      Ranges 0 s (s.visit brings steps 0).1 (s.visit brings steps 0).2 := by
  subst hs
  have hcontains : ∀ x, (empty.insertAll as).contains x = true ↔ ∃ a ∈ as, (a == x) = true := by
    intro x
    rw [proper_empty.contains_insertAll_iff]
    exact or_iff_right Bool.false_ne_true
  have hproper : (empty.insertAll as).Proper := proper_empty.insertAll as
  have helems : (empty.insertAll as).toList = as.eraseDups := toList_insertAll_empty as
  refine ⟨fun x => ⟨?_, ?_⟩, hcontains, helems, hproper.distinct, ?_, fun h => ⟨?_, fun i => ?_⟩,
    fun seen s' hrun => ?_, fun brings steps h => ?_⟩
  · rw [← hcontains, fst_add, Bool.not_eq_true', Bool.not_eq_true]
  · rw [snd_add, insertAll_append]
    rfl
  · rw [size_eq_length, helems]
  · exact (descending_empty.insertAll as indexed_empty h).imp Nat.ne_of_gt
  · rw [← getElem?_elems]
    exact hproper.indexed h i
  · rcases hrun.exists_insertAll with ⟨added, rfl⟩
    rw [← insertAll_append] at hrun ⊢
    rw [hrun.eq_drop.2, List.drop_zero]
    exact ⟨rfl, (proper_empty.insertAll (as ++ added)).distinct, added, rfl⟩
  · exact ranges_visit brings steps 0 _ (Nat.le_trans h (Nat.le_add_left steps 0))

end

/-- Numbers that are equal if they leave the same remainder when divided by three, all with
    one hash. -/
structure Residue where
  number : Nat

namespace Residue

instance : BEq Residue := ⟨fun a b => a.number % 3 == b.number % 3⟩

instance : Hashable Residue := ⟨fun _ => 3⟩

instance : EquivBEq Residue where
  rfl {a} := by
    change (a.number % 3 == a.number % 3) = true
    exact BEq.rfl
  symm {a b} h := by
    change (b.number % 3 == a.number % 3) = true
    exact BEq.symm h
  trans {a b c} hab hbc := by
    change (a.number % 3 == c.number % 3) = true
    exact BEq.trans hab hbc

instance : LawfulHashable Residue := ⟨fun _ _ _ => rfl⟩

end Residue

/-- Of `4, 1, 5, 7, 2` only `4` and `5` stay, though all have one hash. Going over them,
    `8` and `6` are added at `4`, and `9` at `5`; then `6` is seen as well. -/
theorem holds_first_arrivals_residue :
    ∃ s s' : OrderedSet Residue, s = empty.insertAll [⟨4⟩, ⟨1⟩, ⟨5⟩, ⟨7⟩, ⟨2⟩] ∧
      s.toList.map Residue.number = [4, 5] ∧ s.size = 2 ∧
      s.contains ⟨7⟩ = true ∧ s.contains ⟨6⟩ = false ∧ (s.add ⟨8⟩).1 = false ∧
      (s.add ⟨6⟩).1 = true ∧ (s.bucket 3).Nodup ∧
      Ranges 0 s [⟨4⟩, ⟨5⟩, ⟨6⟩] s' ∧ s'.toList.map Residue.number = [4, 5, 6] := by
  rcases holds_first_arrivals (s := empty.insertAll [(⟨4⟩ : Residue), ⟨1⟩, ⟨5⟩, ⟨7⟩, ⟨2⟩]) rfl with
    ⟨hadd, hcontains, helems, _, hsize, hbucket, hranges, _⟩
  have hrun : Ranges 0 (empty.insertAll [(⟨4⟩ : Residue), ⟨1⟩, ⟨5⟩, ⟨7⟩, ⟨2⟩])
      [⟨4⟩, ⟨5⟩, ⟨6⟩]
      (((empty.insertAll [(⟨4⟩ : Residue), ⟨1⟩, ⟨5⟩, ⟨7⟩, ⟨2⟩]).insertAll [⟨8⟩, ⟨6⟩]).insertAll
        [⟨9⟩]) :=
    .next [⟨8⟩, ⟨6⟩] rfl (.next [⟨9⟩] rfl (.next [] rfl (.done rfl)))
  refine ⟨_, _, rfl, by rw [helems]; rfl, hsize, (hcontains ⟨7⟩).2 ⟨⟨4⟩, by simp, rfl⟩, ?_, ?_,
    ?_, (hbucket 3).1, hrun, by rw [← (hranges _ _ hrun).1]; rfl⟩
  · rw [Bool.eq_false_iff, Ne, hcontains]
    decide
  · rw [Bool.eq_false_iff, Ne, (hadd ⟨8⟩).1]
    decide
  · rw [(hadd ⟨6⟩).1]
    decide

end OrderedSet

end Derivations
