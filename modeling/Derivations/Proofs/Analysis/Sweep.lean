/-!
# Sweeping until Nothing Changes

A loop may look at the same elements again and again. In a sweep each of them has a turn, and
a turn sees what the turns in front of it have done. The loop notes whether any turn has
changed something, and ends with the first sweep in which none has.

The last sweep is what makes such a loop exact. Its turns have all been looking at the same
state, which is the one the loop ends in, and there was nothing for any of them to do. No
other sweep says as much: a turn may have had nothing to do because of what was still to be
done by others.

What holds in the middle of a sweep may depend on who is still to have a turn, so an invariant
is one of the state together with the elements that are left.

## Main definitions

* `sweep`: A sweep, and whether it has changed anything.
* `Repeats`: What repeating sweeps leads to.
* `SweepInvariant`: What holds at any time, and what gets less with every change.

## Theorems

* `SweepInvariant.after_sweep`: What a sweep does.
* `Repeats.unique`, `SweepInvariant.exists_repeats`: The loop ends, and in one way only. The
  last sweep has left everybody with nothing to do.
-/

namespace Derivations

variable {α : Type u} {σ : Type v}

/-- Every element has a turn, one after the other. The result tells whether any turn has
    changed something. -/
def sweep (turn : α → σ → σ × Bool) : List α → σ → σ × Bool
  | [], s => (s, false)
  | a :: as, s =>
    let now := turn a s
    let later := sweep turn as now.1
    (later.1, now.2 || later.2)

/-- Sweeps are repeated, up to the first one that changes nothing. -/
inductive Repeats (once : σ → σ × Bool) : σ → σ → Prop where
  | stop {s s' : σ} (quiet : once s = (s', false)) : Repeats once s s'
  | again {s s' s'' : σ} (changed : once s = (s', true)) (rest : Repeats once s' s'') :
      Repeats once s s''

/-- There is no choice in where the loop ends. -/
theorem Repeats.unique {once : σ → σ × Bool} {s t t' : σ} (h : Repeats once s t)
    (h' : Repeats once s t') : t = t' := by
  induction h with
  | stop quiet =>
    cases h' with
    | stop quiet' =>
      rw [quiet] at quiet'
      exact (Prod.mk.inj quiet').1
    | again changed' _ =>
      rw [quiet] at changed'
      cases changed'
  | again changed _ ih =>
    cases h' with
    | stop quiet' =>
      rw [changed] at quiet'
      cases quiet'
    | again changed' rest' =>
      rw [changed] at changed'
      cases changed'
      exact ih rest'

/-- What holds of a loop at any time, `as` being those that are still to have a turn in the
    sweep. Turns that say they have changed nothing have changed nothing, and whenever
    something changes, there is less to do. -/
structure SweepInvariant (turn : α → σ → σ × Bool) (order : σ → List α) (inv : List α → σ → Prop)
    (measure : σ → Nat) : Prop where
  /-- When all turns are over, the next sweep may begin. -/
  begins : ∀ s, inv [] s → inv (order s) s
  step : ∀ a as s, inv (a :: as) s → inv as (turn a s).1
  quiet : ∀ a as s, inv (a :: as) s → (turn a s).2 = false → (turn a s).1 = s
  less : ∀ a as s, inv (a :: as) s → (turn a s).2 = true → measure (turn a s).1 < measure s

namespace SweepInvariant

variable {turn : α → σ → σ × Bool} {order : σ → List α} {inv : List α → σ → Prop}
  {measure : σ → Nat}

/-- What a sweep does. Either it says so, and there is less to do, or nobody had anything to
    do in the state that it has found. -/
theorem after_sweep (h : SweepInvariant turn order inv measure) {as : List α} {s : σ}
    (hs : inv as s) :
    inv [] (sweep turn as s).1 ∧
      ((sweep turn as s).2 = false →
        (sweep turn as s).1 = s ∧ ∀ a ∈ as, (turn a s).2 = false) ∧
      ((sweep turn as s).2 = true → measure (sweep turn as s).1 < measure s) := by
  induction as generalizing s with
  | nil =>
    refine ⟨hs, fun _ => ⟨rfl, fun a ha => absurd ha List.not_mem_nil⟩, fun hchange => ?_⟩
    exact absurd hchange Bool.false_ne_true
  | cons a as ih =>
    rcases ih (h.step a as s hs) with ⟨hinv, hquiet, hless⟩
    simp only [sweep]
    refine ⟨hinv, fun hchange => ?_, fun hchange => ?_⟩
    · -- The first turn leaves everything as it is, and then the others do.
      rcases Bool.or_eq_false_iff.1 hchange with ⟨hnow, hlater⟩
      have hsame : (turn a s).1 = s := h.quiet a as s hs hnow
      rw [hsame] at hquiet hlater ⊢
      rcases hquiet hlater with ⟨hrest, hall⟩
      exact ⟨hrest, List.forall_mem_cons.2 ⟨hnow, hall⟩⟩
    · cases hnow : (turn a s).2 with
      | false =>
        rw [hnow, Bool.false_or] at hchange
        have hlt := hless hchange
        rwa [h.quiet a as s hs hnow] at hlt ⊢
      | true =>
        have hfirst := h.less a as s hs hnow
        cases hlater : (sweep turn as (turn a s).1).2 with
        | false =>
          rw [(hquiet hlater).1]
          exact hfirst
        | true => exact Nat.lt_trans (hless hlater) hfirst

/-- The loop ends, and when it does, nobody has anything left to do. -/
theorem exists_repeats (h : SweepInvariant turn order inv measure) {s : σ} (hs : inv [] s) :
    ∃ t, Repeats (fun s => sweep turn (order s) s) s t ∧ inv [] t ∧
      ∀ a ∈ order t, (turn a t).2 = false := by
  -- Induction on what is left to do.
  induction hm : measure s using Nat.strongRecOn generalizing s with
  | _ m ih =>
    rcases h.after_sweep (h.begins s hs) with ⟨hinv, hquiet, hless⟩
    cases hchange : (sweep turn (order s) s).2 with
    | false =>
      rcases hquiet hchange with ⟨hsame, hall⟩
      exact ⟨s, .stop (Prod.ext hsame hchange), hs, hall⟩
    | true =>
      rcases ih _ (hm ▸ hless hchange) hinv rfl with ⟨t, hrest, ht⟩
      exact ⟨t, .again (Prod.ext rfl hchange) hrest, ht⟩

end SweepInvariant

end Derivations
