import Derivations.Proofs.Chart.Comparison
import Derivations.Tree.Measured

/-!
# Trees in Order

Trees are compared in three stages: by the number of characters in their yields, by the
bytes of their yields, and by their heights. The result is a difference of numbers in the
first and in the last stage and a mere sign in the second, so it cannot be added up along a
chain of comparisons. What can be followed along a chain is which stage decides. The first
of two stages decides for both comparisons taken together, and if it is the same one, the
order of that stage is passed on.

So comparison is a preorder, and trees tie if and only if they have the same rank. That is
all a stable sort needs. It arranges trees by rank and leaves those which tie in the order
they came in, and this determines its result: the first tree of two sorted lists has the
least rank that there is, and it is the first one of this rank.

## Main definitions

* `Tree.Rank.AtMost`: One rank does not come behind another.
* `ties`: Whether two elements may come in either order.

## Theorems

* `Tree.Rank.ascending_nonpos_iff`, `Tree.Rank.ascending_eq_zero_iff`: What a comparison
  says about ranks.
* `filter_ties_mergeSort`: Sorting leaves elements that tie in the order they came in.
* `eq_of_filter_ties`: A sorted list is determined by the order of the elements that tie.
* `Tree.ascending_arranges`: Comparison is a preorder, and sorting arranges trees by it.
-/

namespace Derivations

section StableSort

variable {α : Type u} {le : α → α → Bool}

/-- Whether two elements may come in either order. -/
def ties (le : α → α → Bool) (a b : α) : Bool :=
  le a b && le b a

theorem ties_iff {a b : α} : ties le a b = true ↔ le a b = true ∧ le b a = true :=
  Bool.and_eq_true_iff

theorem ties_self (total : ∀ a b, le a b || le b a) (a : α) : ties le a a = true := by
  simpa [ties] using total a a

/-- Elements that tie stay in the order they came in. -/
theorem filter_ties_mergeSort (trans : ∀ a b c, le a b → le b c → le a c)
    (total : ∀ a b, le a b || le b a) (a : α) (as : List α) :
    (as.mergeSort le).filter (ties le a) = as.filter (ties le a) := by
  have hsorted : (as.filter (ties le a)).Pairwise fun b c => le b c = true := by
    refine List.pairwise_of_forall_mem_list fun b hb c hc => ?_
    have hba := (ties_iff.1 (List.mem_filter.1 hb).2).2
    have hac := (ties_iff.1 (List.mem_filter.1 hc).2).1
    exact trans b a c hba hac
  have hsub : (as.filter (ties le a)).Sublist (as.mergeSort le) :=
    List.sublist_mergeSort trans total hsorted List.filter_sublist
  have hfilter : (as.filter (ties le a)).Sublist ((as.mergeSort le).filter (ties le a)) := by
    simpa only [List.filter_filter, Bool.and_self] using hsub.filter (ties le a)
  exact (hfilter.eq_of_length ((List.mergeSort_perm as le).filter _).length_eq.symm).symm

theorem mem_iff_of_filter_ties (total : ∀ a b, le a b || le b a) {as bs : List α}
    (h : ∀ a, as.filter (ties le a) = bs.filter (ties le a)) (a : α) : a ∈ as ↔ a ∈ bs := by
  have hiff : a ∈ as.filter (ties le a) ↔ a ∈ bs.filter (ties le a) := by rw [h a]
  simpa only [List.mem_filter, ties_self total a, and_true] using hiff

theorem first_le_of_mem (total : ∀ a b, le a b || le b a) {a b : α} {as : List α}
    (has : (a :: as).Pairwise fun a b => le a b = true) (hb : b ∈ a :: as) : le a b = true := by
  rcases List.mem_cons.1 hb with rfl | hb
  · exact (ties_iff.1 (ties_self total b)).1
  · exact (List.pairwise_cons.1 has).1 b hb

/-- A sorted list is determined by the order of those elements that tie. -/
theorem eq_of_filter_ties (total : ∀ a b, le a b || le b a) {as bs : List α}
    (has : as.Pairwise fun a b => le a b = true) (hbs : bs.Pairwise fun a b => le a b = true)
    (h : ∀ a, as.filter (ties le a) = bs.filter (ties le a)) : as = bs := by
  have hmem := mem_iff_of_filter_ties total h
  induction as generalizing bs with
  | nil =>
    cases bs with
    | nil => rfl
    | cons b bs => exact absurd ((hmem b).2 List.mem_cons_self) List.not_mem_nil
  | cons a as ih =>
    cases bs with
    | nil => exact absurd ((hmem a).1 List.mem_cons_self) List.not_mem_nil
    | cons b bs =>
      -- The first elements are in both lists, so neither of them comes behind the other.
      have hab : ties le a b = true :=
        ties_iff.2 ⟨first_le_of_mem total has ((hmem b).2 List.mem_cons_self),
          first_le_of_mem total hbs ((hmem a).1 List.mem_cons_self)⟩
      have heq : a = b := by
        have hcons := h a
        rw [List.filter_cons_of_pos (ties_self total a), List.filter_cons_of_pos hab] at hcons
        exact (List.cons.inj hcons).1
      subst heq
      have hrest : ∀ c, as.filter (ties le c) = bs.filter (ties le c) := fun c => by
        have hcons := h c
        by_cases hca : ties le c a = true
        · rw [List.filter_cons_of_pos hca, List.filter_cons_of_pos hca] at hcons
          exact (List.cons.inj hcons).2
        · rwa [List.filter_cons_of_neg hca, List.filter_cons_of_neg hca] at hcons
      rw [ih (List.pairwise_cons.1 has).2 (List.pairwise_cons.1 hbs).2 hrest
        (mem_iff_of_filter_ties total hrest)]

end StableSort

namespace Tree

theorem compareTexts_swap (a b : Text) : compareTexts b a = -compareTexts a b := by
  unfold compareTexts
  rcases Std.lt_trichotomy a b with h | rfl | h
  · have hne : a ≠ b := fun he => List.lt_irrefl b (he ▸ h)
    rw [if_neg hne, if_pos h, if_neg hne.symm, if_neg (List.lt_asymm h)]
    rfl
  · rw [if_pos rfl]
    rfl
  · have hne : a ≠ b := fun he => List.lt_irrefl b (he ▸ h)
    rw [if_neg hne, if_neg (List.lt_asymm h), if_neg hne.symm, if_pos h]

theorem compareTexts_nonpos_iff {a b : Text} (hne : a ≠ b) : compareTexts a b ≤ 0 ↔ a < b := by
  unfold compareTexts
  rw [if_neg hne]
  by_cases h : a < b
  · rw [if_pos h]
    exact iff_of_true (by decide) h
  · rw [if_neg h]
    exact iff_of_false (by decide) h

namespace Rank

/-- One rank does not come behind another: its yield has fewer characters, or as many and
    comes first in byte order, or is the same yield of a tree that is not higher. -/
def AtMost (r s : Rank) : Prop :=
  r.length < s.length ∨
    r.length = s.length ∧ (r.yield < s.yield ∨ r.yield = s.yield ∧ r.height ≤ s.height)

variable {r s u : Rank}

theorem AtMost.trans (h : r.AtMost s) (h' : s.AtMost u) : r.AtMost u := by
  -- The cases are the stages that decide.
  rcases h with hlen | ⟨hlen, hrest⟩
  · rcases h' with hlen' | ⟨hlen', _⟩
    · exact Or.inl (Nat.lt_trans hlen hlen')
    · exact Or.inl (hlen' ▸ hlen)
  · rcases h' with hlen' | ⟨hlen', hrest'⟩
    · exact Or.inl (hlen ▸ hlen')
    · refine Or.inr ⟨hlen.trans hlen', ?_⟩
      rcases hrest with hyield | ⟨hyield, hheight⟩
      · rcases hrest' with hyield' | ⟨hyield', _⟩
        · exact Or.inl (List.lt_trans hyield hyield')
        · exact Or.inl (hyield' ▸ hyield)
      · rcases hrest' with hyield' | ⟨hyield', hheight'⟩
        · exact Or.inl (hyield ▸ hyield')
        · exact Or.inr ⟨hyield.trans hyield', Nat.le_trans hheight hheight'⟩

theorem ascending_swap (r s : Rank) : s.ascending r = -r.ascending s := by
  unfold ascending
  by_cases hlen : r.length = s.length
  · rw [if_neg (not_not_intro hlen), if_neg (not_not_intro hlen.symm)]
    by_cases hyield : r.yield = s.yield
    · rw [if_neg (not_not_intro hyield), if_neg (not_not_intro hyield.symm)]
      omega
    · rw [if_pos hyield, if_pos (Ne.symm hyield)]
      exact compareTexts_swap r.yield s.yield
  · rw [if_pos hlen, if_pos (Ne.symm hlen)]
    omega

/-- A comparison is not positive if and only if the first does not come behind the second. -/
theorem ascending_nonpos_iff (r s : Rank) : r.ascending s ≤ 0 ↔ r.AtMost s := by
  unfold ascending AtMost
  by_cases hlen : r.length = s.length
  · rw [if_neg (not_not_intro hlen)]
    by_cases hyield : r.yield = s.yield
    · rw [if_neg (not_not_intro hyield)]
      have hirrefl := List.lt_irrefl s.yield
      simp only [hlen, hyield, hirrefl, Nat.lt_irrefl, false_or, true_and]
      omega
    · rw [if_pos hyield, compareTexts_nonpos_iff hyield]
      simp [hlen, hyield]
  · rw [if_pos hlen]
    simp only [hlen, false_and, or_false]
    omega

theorem AtMost.antisymm (h : r.AtMost s) (h' : s.AtMost r) : r = s := by
  have hlength : r.length = s.length := by
    rcases h with hlt | ⟨heq, _⟩
    · rcases h' with hlt' | ⟨heq', _⟩
      · exact absurd hlt' (Nat.lt_asymm hlt)
      · exact heq'.symm
    · exact heq
  have hrest := (h.resolve_left (hlength ▸ Nat.lt_irrefl _)).2
  have hrest' := (h'.resolve_left (hlength ▸ Nat.lt_irrefl _)).2
  have hyield : r.yield = s.yield := by
    rcases hrest with hlt | ⟨heq, _⟩
    · rcases hrest' with hlt' | ⟨heq', _⟩
      · exact absurd hlt' (List.lt_asymm hlt)
      · exact heq'.symm
    · exact heq
  have hheight : r.height = s.height :=
    Nat.le_antisymm (hrest.resolve_left (hyield ▸ List.lt_irrefl _)).2
      (hrest'.resolve_left (hyield ▸ List.lt_irrefl _)).2
  cases r
  cases s
  congr

/-- Ranks tie if and only if they are the same. -/
theorem ascending_eq_zero_iff (r s : Rank) : r.ascending s = 0 ↔ r = s := by
  constructor
  · intro h
    have hle : r.AtMost s := (ascending_nonpos_iff r s).1 (Int.le_of_eq h)
    have hge : s.AtMost r := (ascending_nonpos_iff s r).1 (by rw [ascending_swap, h]; decide)
    exact hle.antisymm hge
  · rintro rfl
    unfold ascending
    simp

end Rank

/-- Whether one tree may come before the other in presentation order. -/
def comesBefore (s t : Tree) : Bool :=
  decide (s.ascending t ≤ 0)

theorem comesBefore_iff (s t : Tree) : s.comesBefore t = true ↔ s.rank.AtMost t.rank := by
  rw [comesBefore, decide_eq_true_iff]
  exact Rank.ascending_nonpos_iff s.rank t.rank

theorem comesBefore_trans (s t u : Tree) (h : s.comesBefore t) (h' : t.comesBefore u) :
    s.comesBefore u :=
  (comesBefore_iff s u).2 (((comesBefore_iff s t).1 h).trans ((comesBefore_iff t u).1 h'))

theorem ascending_swap (s t : Tree) : t.ascending s = -s.ascending t :=
  Rank.ascending_swap s.rank t.rank

theorem comesBefore_total (s t : Tree) : s.comesBefore t || t.comesBefore s := by
  rw [Bool.or_eq_true, comesBefore, comesBefore, decide_eq_true_iff, decide_eq_true_iff,
    ascending_swap s t]
  omega

/-- Trees may come in either order if and only if they compare as zero. -/
theorem ties_comesBefore (s t : Tree) :
    ties comesBefore s t = decide (s.ascending t = 0) := by
  rw [ties, comesBefore, comesBefore, ← Bool.decide_and, ascending_swap s t]
  exact decide_eq_decide.2 (by omega)

theorem sort_eq_mergeSort (ts : List Tree) : sort ts = ts.mergeSort comesBefore :=
  rfl

theorem pairwise_sort (ts : List Tree) : (sort ts).Pairwise fun s t => s.comesBefore t = true :=
  List.pairwise_mergeSort comesBefore_trans comesBefore_total ts

theorem filter_sort (t : Tree) (ts : List Tree) :
    (sort ts).filter (fun s => decide (t.ascending s = 0)) =
      ts.filter fun s => decide (t.ascending s = 0) := by
  simpa only [funext (ties_comesBefore t), sort_eq_mergeSort] using
    filter_ties_mergeSort comesBefore_trans comesBefore_total t ts

/-- Comparison is a total preorder, and equal trees compare as zero. Sorting arranges trees by
    the number of characters in their yields, then by the bytes of their yields, and then by
    their heights. Trees that compare as zero keep their order, and nothing else about the
    order they came in matters. So sorting once more makes no difference, and neither does it
    matter whether ranks are known beforehand. -/
theorem ascending_arranges :
    (∀ s t : Tree, (t.ascending s).sign = -(s.ascending t).sign) ∧
      (∀ s t u : Tree, s.ascending t ≤ 0 → t.ascending u ≤ 0 → s.ascending u ≤ 0) ∧
      (∀ s t : Tree, s.same t = true → s.ascending t = 0) ∧
      (∀ ts : List Tree, (sort ts).Perm ts ∧
        ((sort ts).Pairwise fun s t =>
          (Utf8.glyphs s.yield).length < (Utf8.glyphs t.yield).length ∨
            (Utf8.glyphs s.yield).length = (Utf8.glyphs t.yield).length ∧
              (s.yield < t.yield ∨ s.yield = t.yield ∧ s.height ≤ t.height)) ∧
        (∀ t : Tree, (sort ts).filter (fun s => decide (t.ascending s = 0)) =
          ts.filter fun s => decide (t.ascending s = 0)) ∧
        sort (sort ts) = sort ts) ∧
      (∀ ts us : List Tree,
        (∀ t : Tree, ts.filter (fun s => decide (t.ascending s = 0)) =
          us.filter fun s => decide (t.ascending s = 0)) →
        sort ts = sort us) ∧
      ∀ ts : List MeasuredTree, MeasuredTree.sorted ts = sort (ts.map (·.tree)) := by
  refine ⟨fun s t => ?_, fun s t u h h' => ?_, fun s t h => ?_, fun ts => ⟨?_, ?_, ?_, ?_⟩,
    fun ts us h => ?_, MeasuredTree.sorted_eq_sort⟩
  · rw [ascending_swap s t, Int.sign_neg]
  · exact of_decide_eq_true (comesBefore_trans s t u (decide_eq_true h) (decide_eq_true h'))
  · exact (Rank.ascending_eq_zero_iff s.rank t.rank).2 (congrArg rank ((same_iff s t).1 h))
  · exact List.mergeSort_perm ts comesBefore
  · exact (pairwise_sort ts).imp fun h => (comesBefore_iff _ _).1 h
  · exact fun t => filter_sort t ts
  · exact List.mergeSort_of_pairwise (pairwise_sort ts)
  · refine eq_of_filter_ties comesBefore_total (pairwise_sort ts) (pairwise_sort us) fun t => ?_
    simpa only [funext (ties_comesBefore t), filter_sort] using h t

/-- A sum of three, grouped to the left. -/
def leftGrouped : Tree :=
  node "E" [node "E" [leaf "i", leaf "+", leaf "i"], leaf "+", leaf "i"]

/-- A sum of three, grouped to the right. -/
def rightGrouped : Tree :=
  node "E" [leaf "i", leaf "+", node "E" [leaf "i", leaf "+", leaf "i"]]

/-- Two groupings of a sum tie, and stay in order whatever comes between them. -/
theorem ascending_arranges_groupings :
    (leaf "i").ascending rightGrouped ≤ 0 ∧ rightGrouped.ascending leftGrouped ≤ 0 ∧
      (leaf "i").ascending leftGrouped ≤ 0 ∧
      rightGrouped.same rightGrouped = true ∧ rightGrouped.ascending rightGrouped = 0 ∧
      sort [rightGrouped, leaf "i", leftGrouped] = sort [rightGrouped, leftGrouped, leaf "i"] := by
  have hleaf : (leaf "i").ascending rightGrouped ≤ 0 := by decide +kernel
  have htie : rightGrouped.ascending leftGrouped ≤ 0 := by decide +kernel
  have hsame : rightGrouped.same rightGrouped = true := by decide +kernel
  refine ⟨hleaf, htie, ascending_arranges.2.1 _ _ _ hleaf htie, hsame,
    ascending_arranges.2.2.1 _ _ hsame, ascending_arranges.2.2.2.2.1 _ _ fun t => ?_⟩
  -- No tree ties both with the leaf and with a sum.
  by_cases ht : t.ascending (leaf "i") = 0
  · have hrank : t.rank = (leaf "i").rank := (Rank.ascending_eq_zero_iff _ _).1 ht
    have hne : t.ascending leftGrouped ≠ 0 := by
      rw [ascending, hrank]
      decide +kernel
    simp [List.filter_cons, ht, hne]
  · simp [List.filter_cons, ht]

end Tree

end Derivations
