import Derivations.Proofs.Analysis.Pumping
import Derivations.Proofs.Analysis.Sweep
import Mathlib.Algebra.Order.BigOperators.Group.List
import Mathlib.Algebra.Order.Ring.Nat
import Mathlib.Data.List.Dedup

/-!
# Following Symbols in Place

What a symbol leads to can be found without looking at paths. Every symbol keeps what has been
found for it, to begin with what it leads to in one step. When it has a turn, it goes through
what has been found for it, and adds what has been found for each of these. Nothing is
copied: another symbol that has had its turn before has more to offer than at the beginning of
the sweep, and so does the symbol itself, should it have been found for itself. What it goes
through is what had been found when its turn began, and no more than that. What is added
during the turn is gone through in the next sweep.

Whether a turn has changed something is told by counting. As nothing is ever taken away, and
nothing is there twice, there is as much as before only if it is the same as before. The loop
therefore ends where everything that is found for a symbol has nothing to add. Then it is found
for the symbol whatever it leads to, by induction on the path.

## Main definitions

* `Found`: What has been found for symbols.
* `Found.direct`: What they lead to in one step.
* `Found.absorb`, `Found.turn`: The turn of a symbol.
* `Found.Traces`: What holds at any time.

## Theorems

* `Found.Traces.absorb`, `Found.Traces.turn`: What holds goes on to hold.
* `Found.turn_eq_of_quiet`: A turn after which there is as much as before changes nothing.
* `Found.exists_repeats_turn`: Sweeps end, and find all that is led to.
-/

namespace Derivations

/-- What has been found for symbols so far, without repetition. There may be no entry for a
    symbol. -/
def Found := Symbol → Option (List Symbol)

namespace Found

/-- The symbols that have been found for a symbol. -/
def of (f : Found) (sym : Symbol) : List Symbol :=
  (f sym).getD []

/-- What symbols lead to in one step. Those which lead nowhere have no entry. -/
def direct (next : Symbol → List Symbol) : Found := fun sym =>
  match (next sym).dedup with
  | [] => none
  | found => some found

/-- Symbols with further ones, unless they are there already. -/
def add (found more : List Symbol) : List Symbol :=
  found ++ more.filter (!found.contains ·)

/-- Adds what has been found for `via` to what has been found for `sym`. -/
def absorb (sym : Symbol) (f : Found) (via : Symbol) : Found :=
  match f via with
  | none => f
  | some more => Function.update f sym (some (add (f.of sym) more))

/-- The turn of a symbol, which goes in byte order through the symbols that have been found
    for it when its turn begins. Something has changed if there are more of them at the end. -/
def turn (sym : Symbol) (f : Found) : Found × Bool :=
  match f sym with
  | none => (f, false)
  | some found =>
    let f' : Found := (Text.sort found).foldl (absorb sym) f
    (f', decide (found.length < (f'.of sym).length))

variable {next : Symbol → List Symbol} {f : Found} {sym via : Symbol} {found : List Symbol}

theorem of_direct (next : Symbol → List Symbol) (sym : Symbol) :
    (direct next).of sym = (next sym).dedup := by
  unfold of direct
  cases (next sym).dedup <;> rfl

theorem of_eq (h : f sym = some found) : f.of sym = found := by
  rw [of, h, Option.getD_some]

theorem mem_add {more : List Symbol} {b : Symbol} : b ∈ add found more ↔ b ∈ found ∨ b ∈ more := by
  unfold add
  by_cases hb : b ∈ found <;> simp [hb]

theorem nodup_add {more : List Symbol} (hfound : found.Nodup) (hmore : more.Nodup) :
    (add found more).Nodup := by
  refine List.nodup_append.2 ⟨hfound, hmore.filter _, fun b hb c hc heq => ?_⟩
  have hnew := (List.mem_filter.1 hc).2
  rw [← heq] at hnew
  exact absurd hb (by simpa using hnew)

theorem absorb_of_ne {a : Symbol} (h : a ≠ sym) (f : Found) (via : Symbol) :
    absorb sym f via a = f a := by
  unfold absorb
  cases f via with
  | none => rfl
  | some more => exact Function.update_of_ne h _ f

/-- Having no entry is having nothing to add. -/
theorem absorb_self (h : f sym = some found) (via : Symbol) :
    absorb sym f via sym = some (add found (f.of via)) := by
  unfold absorb of
  cases hvia : f via with
  | none => simp [h, add]
  | some more =>
    simp only [h, Option.getD_some]
    exact Function.update_self sym _ f

/-- What holds at any time: whatever has been found for a symbol is led to, and is there only
    once, and what is led to in one step has been found. -/
structure Traces (next : Symbol → List Symbol) (f : Found) : Prop where
  direct : ∀ a, ∀ b ∈ next a, b ∈ f.of a
  led : ∀ a, ∀ b ∈ f.of a, Relation.TransGen (fun a b => b ∈ next a) a b
  nodup : ∀ a, (f.of a).Nodup

theorem traces_direct (next : Symbol → List Symbol) : Traces next (Found.direct next) := by
  constructor
  · intro a b hb
    rwa [of_direct, List.mem_dedup]
  · intro a b hb
    rw [of_direct, List.mem_dedup] at hb
    exact .single hb
  · intro a
    rw [of_direct]
    exact List.nodup_dedup _

/-- Whatever `via` leads to `sym` leads to as well, if it leads to `via`. -/
theorem Traces.absorb (h : Traces next f) (hsym : f sym = some found) (hvia : via ∈ found) :
    Traces next (absorb sym f via) := by
  have hself : (Found.absorb sym f via).of sym = add found (f.of via) :=
    of_eq (absorb_self hsym via)
  have hother (a : Symbol) (ha : a ≠ sym) : (Found.absorb sym f via).of a = f.of a := by
    rw [of, absorb_of_ne ha, of]
  rw [← of_eq hsym] at hvia hself
  constructor
  · intro a b hb
    by_cases ha : a = sym
    · subst ha
      rw [hself, mem_add]
      exact Or.inl (h.direct a b hb)
    · rw [hother a ha]
      exact h.direct a b hb
  · intro a b hb
    by_cases ha : a = sym
    · subst ha
      rw [hself, mem_add] at hb
      rcases hb with hb | hb
      · exact h.led a b hb
      · exact (h.led a via hvia).trans (h.led via b hb)
    · rw [hother a ha] at hb
      exact h.led a b hb
  · intro a
    by_cases ha : a = sym
    · subst ha
      rw [hself]
      exact nodup_add (h.nodup a) (h.nodup via)
    · rw [hother a ha]
      exact h.nodup a

theorem foldl_absorb_of_ne {a : Symbol} (h : a ≠ sym) (vias : List Symbol) (f : Found) :
    vias.foldl (Found.absorb sym) f a = f a := by
  induction vias generalizing f with
  | nil => rfl
  | cons via vias ih => rw [List.foldl_cons, ih, absorb_of_ne h]

/-- Passing over symbols adds what there is for each of them, and takes nothing away. It makes no
    difference that one of them may be the symbol itself. -/
theorem foldl_absorb_self (h : f sym = some found) (vias : List Symbol) :
    ∃ found', vias.foldl (Found.absorb sym) f sym = some found' ∧ found <+: found' ∧
      ∀ via ∈ vias, f.of via ⊆ found' := by
  induction vias generalizing f found with
  | nil => exact ⟨found, h, List.prefix_rfl, fun via hvia => absurd hvia List.not_mem_nil⟩
  | cons first vias ih =>
    rcases ih (absorb_self h first) with ⟨found', hfound', hprefix, hall⟩
    have hfirst : found <+: add found (f.of first) := List.prefix_append _ _
    refine ⟨found', hfound', hfirst.trans hprefix, List.forall_mem_cons.2 ⟨?_, ?_⟩⟩
    · exact fun b hb => hprefix.subset (mem_add.2 (Or.inr hb))
    · intro via hvia b hb
      refine hall via hvia ?_
      by_cases hsym : via = sym
      · rw [hsym, of_eq h] at hb
        rw [hsym, of_eq (absorb_self h first)]
        exact hfirst.subset hb
      · rwa [of, absorb_of_ne hsym]

theorem Traces.foldl_absorb (h : Traces next f) (hsym : f sym = some found) (vias : List Symbol)
    (hvias : ∀ via ∈ vias, via ∈ found) : Traces next (vias.foldl (Found.absorb sym) f) := by
  induction vias generalizing f found with
  | nil => exact h
  | cons via vias ih =>
    rcases List.forall_mem_cons.1 hvias with ⟨hvia, hrest⟩
    exact ih (h.absorb hsym hvia) (absorb_self hsym via) fun v hv => mem_add.2 (Or.inl (hrest v hv))

/-- What holds before a turn holds after it. -/
theorem Traces.turn (h : Traces next f) (sym : Symbol) : Traces next (turn sym f).1 := by
  unfold Found.turn
  cases hsym : f sym with
  | none => exact h
  | some found => exact h.foldl_absorb hsym _ fun via hvia => Analysis.mem_sort.1 hvia

/-- A turn that says it has changed something has found more for its symbol, and nothing for
    others. -/
theorem length_lt_of_turn (h : (turn sym f).2 = true) :
    (f.of sym).length < ((turn sym f).1.of sym).length ∧
      ∀ a, a ≠ sym → (turn sym f).1.of a = f.of a := by
  unfold turn at h ⊢
  cases hsym : f sym with
  | none =>
    rw [hsym] at h
    exact absurd h Bool.false_ne_true
  | some found =>
    rw [hsym] at h
    rw [of_eq hsym]
    refine ⟨of_decide_eq_true h, fun a ha => ?_⟩
    simp only [of, foldl_absorb_of_ne ha]

/-- If there is as much as before, then it is the same as before, and there was nothing to add
    to it. -/
theorem turn_eq_of_quiet (h : (turn sym f).2 = false) :
    (turn sym f).1 = f ∧ ∀ via ∈ f.of sym, f.of via ⊆ f.of sym := by
  unfold turn at h ⊢
  cases hsym : f sym with
  | none => exact ⟨rfl, by simp [of, hsym]⟩
  | some found =>
    rw [hsym] at h
    rcases foldl_absorb_self hsym (Text.sort found) with ⟨found', hfound', hprefix, hall⟩
    have hsame : found = found' := by
      have hlength : ¬found.length < found'.length := by
        rw [← of_eq hfound']
        exact of_decide_eq_false h
      exact hprefix.eq_of_length (Nat.le_antisymm hprefix.length_le (Nat.le_of_not_lt hlength))
    rw [← hsame] at hfound' hall
    constructor
    · funext a
      by_cases ha : a = sym
      · rw [ha, hsym]
        exact hfound'
      · exact foldl_absorb_of_ne ha _ f
    · rw [of_eq hsym]
      exact fun via hvia => hall via (Analysis.mem_sort.2 hvia)

section Loop

variable {elements : List Symbol}

/-- How much is still to be found for some elements. -/
def missing (next : Symbol → List Symbol) (elements : List Symbol) (f : Found) : Nat :=
  (elements.map fun a => (elements.flatMap next).length - (f.of a).length).sum

-- Whatever is found is what some element leads to in one step.
theorem Traces.length_le (h : Traces next f) (helements : ∀ a, next a ≠ [] → a ∈ elements)
    (a : Symbol) : (f.of a).length ≤ (elements.flatMap next).length := by
  refine (h.nodup a).length_le_of_subset fun b hb => ?_
  rcases Relation.TransGen.tail'_iff.1 (h.led a b hb) with ⟨c, _, hc⟩
  exact List.mem_flatMap.2 ⟨c, helements c (List.ne_nil_of_mem hc), hc⟩

theorem Traces.missing_lt (h : Traces next f) (helements : ∀ a, next a ≠ [] → a ∈ elements)
    (hsym : sym ∈ elements) (hchange : (Found.turn sym f).2 = true) :
    missing next elements (Found.turn sym f).1 < missing next elements f := by
  rcases length_lt_of_turn hchange with ⟨hlt, hothers⟩
  have hbound := (h.turn sym).length_le helements sym
  have hless : (elements.flatMap next).length - ((Found.turn sym f).1.of sym).length <
      (elements.flatMap next).length - (f.of sym).length := by omega
  refine List.sum_lt_sum _ _ (fun a _ => ?_) ⟨sym, hsym, hless⟩
  by_cases ha : a = sym
  · rw [ha]
    exact Nat.le_of_lt hless
  · rw [hothers a ha]

theorem sweepInvariant_turn (helements : ∀ a, next a ≠ [] → a ∈ elements) :
    SweepInvariant Found.turn (fun _ => elements)
      (fun waiting f => Traces next f ∧ waiting ⊆ elements) (missing next elements) where
  begins _ h := ⟨h.1, List.Subset.refl elements⟩
  step sym _ _ h := ⟨h.1.turn sym, fun _ ha => h.2 (List.mem_cons_of_mem sym ha)⟩
  quiet _ _ _ _ hquiet := (turn_eq_of_quiet hquiet).1
  less _ _ _ h hchange := h.1.missing_lt helements (h.2 List.mem_cons_self) hchange

/-- When nobody has anything to add, everything that is led to has been found. -/
theorem Traces.mem_of_iff (h : Traces next f) (helements : ∀ a, next a ≠ [] → a ∈ elements)
    (hquiet : ∀ a ∈ elements, (Found.turn a f).2 = false) (a b : Symbol) :
    b ∈ f.of a ↔ Relation.TransGen (fun a b => b ∈ next a) a b := by
  refine ⟨h.led a b, fun hpath => ?_⟩
  have ha : a ∈ elements := by
    rcases Relation.TransGen.head'_iff.1 hpath with ⟨c, hc, _⟩
    exact helements a (List.ne_nil_of_mem hc)
  induction hpath with
  | single hb => exact h.direct a _ hb
  | @tail c d _ hd ih =>
    -- What `c` leads to in one step has been found for `c`, which has been found for `a`.
    exact (turn_eq_of_quiet (hquiet a ha)).2 c ih (h.direct c d hd)

/-- Sweeps end, and what has been found then is all that is led to. -/
theorem exists_repeats_turn (helements : ∀ a, next a ≠ [] → a ∈ elements) :
    ∃ f, Repeats (sweep Found.turn elements) (Found.direct next) f ∧
      ∀ a b, b ∈ f.of a ↔ Relation.TransGen (fun a b => b ∈ next a) a b := by
  rcases (sweepInvariant_turn helements).exists_repeats
    ⟨traces_direct next, List.nil_subset elements⟩ with ⟨f, hrepeats, ⟨htraces, _⟩, hquiet⟩
  exact ⟨f, hrepeats, htraces.mem_of_iff helements hquiet⟩

end Loop

end Found

end Derivations
