import Derivations.Proofs.Analysis.Pumping
import Derivations.Proofs.Analysis.Sweep
import Derivations.Proofs.Grammar.Sentential

/-!
# Marking Symbols One by One

What is settled in rounds may as well be found in a loop which looks at the symbols again
and again, and marks one of them as soon as it has an alternative of marked symbols only.
It does not matter in which order they are looked at, nor that a mark already counts for
the symbols that are looked at next. There are fewer symbols left with every mark, so the
loop ends; whatever is marked is settled; and when no more symbol can be marked, all that
is settled has been marked, since a settled symbol without a mark would lead to another
one that is settled earlier, and so on. The rounds themselves are such a loop.

The same loop can be run on what is left instead. To begin with, no non-terminal is known
to be productive, and one after the other is taken out as soon as it has an alternative
without any symbol that is left. Terminals are never left, so this is the loop for the
alternatives without their terminals, seen from the other side.

Both loops sweep over symbols until a sweep has found nothing to do. The first one gives
every non-terminal a turn in every sweep, the second one those that are left when the sweep
begins, although fewer and fewer of them are. A sweep in which nothing is marked, or taken
out, has looked at every symbol in the state it ends in, so there is nothing left to do.

What the loops find is nullable or productive. Both can be told from derivation trees and
from steps alike: a symbol is nullable if it derives the empty sequence, and productive if
it derives any sequence of terminals.

## Main definitions

* `MarksOne`, `MarksAll`: One turn of the loop, and what the loop marks before it ends.
* `Grammar.choices`: The alternatives among which the loop looks for nullable symbols.
* `Grammar.RemovesOne`, `Grammar.RemovesAll`: The loop that takes productive symbols out.
* `Grammar.remaining`: The non-terminals that are not marked.
* `Grammar.markTurn`, `Grammar.removeTurn`: The turn of a symbol in a sweep.

## Theorems

* `wellFounded_marksOne`: The loop ends.
* `MarksAll.perm_settled`, `marksAll_settled`: It marks what is settled, and the rounds do
  so in its way.
* `Grammar.removesOne_remaining_iff`: Taking a symbol out is marking it.
* `Grammar.exists_repeats_markTurn`, `Grammar.repeats_removeTurn`: What sweeps end with.
* `Analysis.mem_nullable_iff`: The nullable symbols are those which derive nothing.
* `Analysis.mem_productive_iff`: The productive symbols are those which derive terminals.
-/

namespace Derivations

/-- One more symbol is marked, as one of its alternatives has marked symbols only. -/
inductive MarksOne (choices : List Choices) : List Symbol → List Symbol → Prop where
  | mark {marked : List Symbol} {c : Choices} {rhs : List Symbol} (listed : c ∈ choices)
      (new : c.1 ∉ marked) (alternative : rhs ∈ c.2) (known : ∀ sym ∈ rhs, sym ∈ marked) :
      MarksOne choices marked (marked ++ [c.1])

/-- With nothing marked to begin with, symbols are marked until there is none left that
    can be. -/
def MarksAll (choices : List Choices) (marked : List Symbol) : Prop :=
  Relation.ReflTransGen (MarksOne choices) [] marked ∧ ∀ more, ¬MarksOne choices marked more

section Marking

variable {choices : List Choices} {marked marked' : List Symbol}

/-- The choices whose symbols are not marked. -/
def unmarked (choices : List Choices) (marked : List Symbol) : List Choices :=
  choices.filter fun c => !marked.contains c.1

-- There is one symbol less to mark, or more if several choices are for the same one.
theorem MarksOne.length_unmarked_lt (h : MarksOne choices marked marked') :
    (unmarked choices marked').length < (unmarked choices marked).length := by
  cases h with
  | @mark c rhs listed new alternative known =>
    have hfewer : unmarked choices (marked ++ [c.1]) =
        (unmarked choices marked).filter fun d => d.1 != c.1 := by
      unfold unmarked
      rw [List.filter_filter]
      refine List.filter_congr fun d _ => ?_
      by_cases hd : d.1 = c.1 <;> simp [hd]
    rw [hfewer, List.length_filter_lt_length_iff_exists]
    exact ⟨c, List.mem_filter.2 ⟨listed, by simpa using new⟩, by simp⟩

/-- Marking comes to an end, in whatever order symbols are looked at. -/
theorem wellFounded_marksOne (choices : List Choices) :
    WellFounded fun marked' marked => MarksOne choices marked marked' :=
  Subrelation.wf MarksOne.length_unmarked_lt
    (InvImage.wf (fun marked => (unmarked choices marked).length) wellFounded_lt)

theorem nodup_of_reaches (h : Relation.ReflTransGen (MarksOne choices) [] marked) :
    marked.Nodup := by
  induction h with
  | refl => exact List.nodup_nil
  | tail _ hone ih =>
    cases hone with
    | mark listed new alternative known =>
      rw [List.nodup_append]
      refine ⟨ih, List.nodup_singleton _, fun sym hsym other hother heq => ?_⟩
      rw [List.mem_singleton.1 hother] at heq
      exact new (heq ▸ hsym)

-- Nothing is marked that is not settled.
theorem mem_settled_of_reaches (h : Relation.ReflTransGen (MarksOne choices) [] marked) :
    ∀ sym ∈ marked, sym ∈ settled choices := by
  induction h with
  | refl =>
    intro sym hsym
    exact absurd hsym List.not_mem_nil
  | tail _ hone ih =>
    cases hone with
    | mark listed new alternative known =>
      intro sym hsym
      rcases List.mem_append.1 hsym with hsym | hsym
      · exact ih sym hsym
      · rw [List.mem_singleton.1 hsym]
        exact mem_settled_of_alternative listed alternative fun s hs => ih s (known s hs)

-- When the loop has ended, nothing is settled that is not marked.
theorem mem_of_not_marksOne (h : ∀ more, ¬MarksOne choices marked more) {sym : Symbol}
    (hsym : sym ∈ settled choices) : sym ∈ marked := by
  refine settled_induction hsym fun c hc rhs hrhs hall => ?_
  by_contra hnew
  exact h _ (.mark hc hnew hrhs hall)

-- Symbols that have alternatives of marked symbols can all be marked, in any order.
theorem reaches_append (syms : List Symbol) (hnodup : syms.Nodup)
    (hnew : ∀ sym ∈ syms, sym ∉ marked)
    (h : ∀ sym ∈ syms, ∃ c ∈ choices, c.1 = sym ∧ ∃ rhs ∈ c.2, ∀ s ∈ rhs, s ∈ marked) :
    Relation.ReflTransGen (MarksOne choices) marked (marked ++ syms) := by
  induction syms generalizing marked with
  | nil =>
    rw [List.append_nil]
  | cons sym syms ih =>
    rcases h sym List.mem_cons_self with ⟨c, hc, rfl, rhs, hrhs, hall⟩
    rcases List.nodup_cons.1 hnodup with ⟨hfirst, hrest⟩
    have hone : MarksOne choices marked (marked ++ [c.1]) :=
      .mark hc (hnew c.1 List.mem_cons_self) hrhs hall
    have hmany : Relation.ReflTransGen (MarksOne choices) (marked ++ [c.1])
        (marked ++ [c.1] ++ syms) := by
      refine ih hrest ?_ ?_
      · intro s hs hmem
        rcases List.mem_append.1 hmem with hmem | hmem
        · exact hnew s (List.mem_cons_of_mem _ hs) hmem
        · rw [List.mem_singleton.1 hmem] at hs
          exact hfirst hs
      · intro s hs
        rcases h s (List.mem_cons_of_mem _ hs) with ⟨d, hd, hds, rhs', hrhs', hall'⟩
        exact ⟨d, hd, hds, rhs', hrhs', fun u hu => List.mem_append_left _ (hall' u hu)⟩
    rw [List.append_assoc, List.singleton_append] at hmany
    exact .head hone hmany

/-- What is left of a choice in later rounds: marked symbols may be missing from its
    alternatives. -/
def LeftOf (choices : List Choices) (marked : List Symbol) (c : Choices) : Prop :=
  ∃ d ∈ choices, d.1 = c.1 ∧ ∀ rhs ∈ c.2, ∃ rhs' ∈ d.2, ∀ s ∈ rhs', s ∈ marked ∨ s ∈ rhs

theorem LeftOf.without {c : Choices} (h : LeftOf choices marked c) (known : List Symbol) :
    LeftOf choices (marked ++ known) (c.without known) := by
  rcases h with ⟨d, hd, hdc, hall⟩
  refine ⟨d, hd, hdc, fun rhs hrhs => ?_⟩
  rcases List.mem_map.1 hrhs with ⟨rhs', hrhs', rfl⟩
  rcases hall rhs' hrhs' with ⟨whole, hwhole, hsplit⟩
  refine ⟨whole, hwhole, fun s hs => ?_⟩
  by_cases hk : s ∈ known
  · exact Or.inl (List.mem_append_right _ hk)
  · rcases hsplit s hs with hmem | hmem
    · exact Or.inl (List.mem_append_left _ hmem)
    · exact Or.inr (List.mem_filter.2 ⟨hmem, by simpa using hk⟩)

-- An alternative that has become empty has marked symbols only.
theorem LeftOf.exists_of_isSettled {c : Choices} (h : LeftOf choices marked c)
    (hs : c.isSettled = true) :
    ∃ d ∈ choices, d.1 = c.1 ∧ ∃ rhs ∈ d.2, ∀ s ∈ rhs, s ∈ marked := by
  rcases h with ⟨d, hd, hdc, hall⟩
  unfold Choices.isSettled at hs
  rcases List.any_eq_true.1 hs with ⟨rhs, hrhs, hempty⟩
  rcases hall rhs hrhs with ⟨whole, hwhole, hsplit⟩
  refine ⟨d, hd, hdc, whole, hwhole, fun s hs => ?_⟩
  rcases hsplit s hs with hs | hs
  · exact hs
  · rw [List.isEmpty_iff.1 hempty] at hs
    exact absurd hs List.not_mem_nil

theorem reaches_round {pending : List Choices} (hnodup : (pending.map (·.1)).Nodup)
    (hnew : ∀ c ∈ pending, c.1 ∉ marked) (hleft : ∀ c ∈ pending, LeftOf choices marked c) :
    Relation.ReflTransGen (MarksOne choices) marked
      (marked ++ (pending.filter (·.isSettled)).map (·.1)) := by
  refine reaches_append _ (hnodup.sublist (List.filter_sublist.map _)) ?_ ?_
  · intro sym hsym
    rcases List.mem_map.1 hsym with ⟨c, hc, rfl⟩
    exact hnew c (List.mem_filter.1 hc).1
  · intro sym hsym
    rcases List.mem_map.1 hsym with ⟨c, hc, rfl⟩
    rcases List.mem_filter.1 hc with ⟨hc, hs⟩
    exact (hleft c hc).exists_of_isSettled hs

-- No symbol has two choices, one that is settled and one that is not.
theorem not_mem_of_not_isSettled {pending : List Choices} (hnodup : (pending.map (·.1)).Nodup)
    {d : Choices} (hd : d ∈ pending) (hs : d.isSettled = false) :
    d.1 ∉ (pending.filter (·.isSettled)).map (·.1) := by
  intro hmem
  rcases List.mem_map.1 hmem with ⟨e, he, hed⟩
  rcases List.mem_filter.1 he with ⟨he, hes⟩
  rw [List.inj_on_of_nodup_map hnodup he hd hed, hs] at hes
  exact Bool.false_ne_true hes

-- A round marks the symbols that it settles, and then the other rounds go on.
theorem reaches_settledWithin (rounds : Nat) (pending : List Choices)
    (hnodup : (pending.map (·.1)).Nodup) (hnew : ∀ c ∈ pending, c.1 ∉ marked)
    (hleft : ∀ c ∈ pending, LeftOf choices marked c) :
    Relation.ReflTransGen (MarksOne choices) marked
      (marked ++ settledWithin rounds pending) := by
  induction rounds generalizing pending marked with
  | zero =>
    unfold settledWithin
    rw [List.append_nil]
  | succ rounds ih =>
    have hround := reaches_round hnodup hnew hleft
    unfold settledWithin
    cases hknown : (pending.filter (·.isSettled)).map (·.1) with
    | nil =>
      simp only
      rw [List.append_nil]
    | cons first more =>
      simp only
      rw [hknown] at hround
      have hrest : Relation.ReflTransGen (MarksOne choices) (marked ++ first :: more)
          (marked ++ first :: more ++ settledWithin rounds
            ((pending.filter (!·.isSettled)).map (·.without (first :: more)))) := by
        refine ih _ ?_ ?_ ?_
        · rw [List.map_map]
          exact hnodup.sublist (List.filter_sublist.map _)
        · intro c hc hmarked
          rcases List.mem_map.1 hc with ⟨d, hd, rfl⟩
          rcases List.mem_filter.1 hd with ⟨hd, hs⟩
          rw [Bool.not_eq_true'] at hs
          change d.1 ∈ marked ++ first :: more at hmarked
          rw [← hknown] at hmarked
          rcases List.mem_append.1 hmarked with hm | hm
          · exact hnew d hd hm
          · exact not_mem_of_not_isSettled hnodup hd hs hm
        · intro c hc
          rcases List.mem_map.1 hc with ⟨d, hd, rfl⟩
          exact (hleft d (List.mem_filter.1 hd).1).without (first :: more)
      rw [List.append_assoc] at hrest
      exact hround.trans hrest

/-- The rounds mark one symbol after the other, until no more symbol can be marked. -/
theorem marksAll_settled (hnodup : (choices.map (·.1)).Nodup) :
    MarksAll choices (settled choices) := by
  constructor
  · refine reaches_settledWithin choices.length choices hnodup ?_ ?_
    · intro c _ hc
      exact absurd hc List.not_mem_nil
    · intro c hc
      exact ⟨c, hc, rfl, fun rhs hrhs => ⟨rhs, hrhs, fun s hs => Or.inr hs⟩⟩
  · intro more hone
    cases hone with
    | mark listed new alternative known =>
      exact new (mem_settled_of_alternative listed alternative known)

theorem MarksAll.mem_iff (h : MarksAll choices marked) (sym : Symbol) :
    sym ∈ marked ↔ sym ∈ settled choices :=
  ⟨mem_settled_of_reaches h.1 sym, mem_of_not_marksOne h.2⟩

/-- Whenever marking has come to an end, the symbols marked are those which are settled. -/
theorem MarksAll.perm_settled (h : MarksAll choices marked)
    (hnodup : (choices.map (·.1)).Nodup) : marked.Perm (settled choices) := by
  have hsettled : (settled choices).Nodup := nodup_of_reaches (marksAll_settled hnodup).1
  exact (List.perm_ext_iff_of_nodup (nodup_of_reaches h.1) hsettled).2 h.mem_iff

end Marking

namespace Grammar

variable {g : Grammar} {marked left : List Symbol}

/-- The alternatives of all non-terminals. -/
def choices (g : Grammar) : List Choices :=
  g.rules.map fun r => (r.lhs, r.alternatives)

/-- The alternatives of all non-terminals, without the terminals in them. -/
def openChoices (g : Grammar) : List Choices :=
  g.rules.map fun r => (r.lhs, r.alternatives.map (·.filter g.isNonTerminal))

/-- The non-terminals that are not marked, in order of definition. -/
def remaining (g : Grammar) (marked : List Symbol) : List Symbol :=
  g.nonTerminals.filter (!marked.contains ·)

/-- One more symbol is taken out, as one of its alternatives has no symbol that is left. -/
inductive RemovesOne (g : Grammar) : List Symbol → List Symbol → Prop where
  | remove {left : List Symbol} {sym : Symbol} {rhs : List Symbol} (isLeft : sym ∈ left)
      (alternative : rhs ∈ g.expansions sym) (free : ∀ s ∈ rhs, s ∉ left) :
      RemovesOne g left (left.filter (· ≠ sym))

/-- With all non-terminals there to begin with, symbols are taken out until there is none
    left that can be. -/
def RemovesAll (g : Grammar) (left : List Symbol) : Prop :=
  Relation.ReflTransGen g.RemovesOne g.nonTerminals left ∧ ∀ fewer, ¬g.RemovesOne left fewer

theorem RemovesOne.length_lt {fewer : List Symbol} (h : g.RemovesOne left fewer) :
    fewer.length < left.length := by
  cases h with
  | @remove sym rhs isLeft alternative free =>
    exact List.length_filter_lt_length_iff_exists.2 ⟨sym, isLeft, by simp⟩

/-- Taking symbols out comes to an end, in whatever order they are looked at. -/
theorem wellFounded_removesOne (g : Grammar) :
    WellFounded fun fewer left => g.RemovesOne left fewer :=
  Subrelation.wf RemovesOne.length_lt (InvImage.wf List.length wellFounded_lt)

theorem mem_remaining_iff (sym : Symbol) :
    sym ∈ g.remaining marked ↔ g.isNonTerminal sym = true ∧ sym ∉ marked := by
  unfold remaining
  rw [List.mem_filter, isNonTerminal_iff_mem_nonTerminals]
  simp

theorem remaining_concat (sym : Symbol) :
    g.remaining (marked ++ [sym]) = (g.remaining marked).filter (· ≠ sym) := by
  unfold remaining
  rw [List.filter_filter]
  refine List.filter_congr fun s _ => ?_
  by_cases hs : s = sym <;> simp [hs]

/-- Taking a symbol out of those that are not marked is marking it. -/
theorem removesOne_remaining_iff :
    g.RemovesOne (g.remaining marked) left ↔
      ∃ marked', MarksOne g.openChoices marked marked' ∧ g.remaining marked' = left := by
  constructor
  · intro h
    cases h with
    | @remove sym rhs isLeft alternative free =>
      rcases exists_rule_of_mem_expansions alternative with ⟨r, hr, rfl, hrhs⟩
      refine ⟨marked ++ [r.lhs], .mark (List.mem_map_of_mem hr) ?_ (List.mem_map_of_mem hrhs) ?_,
        remaining_concat r.lhs⟩
      · exact ((mem_remaining_iff r.lhs).1 isLeft).2
      · -- A non-terminal that is not left has been marked.
        intro s hs
        rcases List.mem_filter.1 hs with ⟨hs, hn⟩
        by_contra hnew
        exact free s hs ((mem_remaining_iff s).2 ⟨hn, hnew⟩)
  · rintro ⟨marked', hone, rfl⟩
    cases hone with
    | mark listed new alternative known =>
      rcases List.mem_map.1 listed with ⟨r, hr, rfl⟩
      rcases List.mem_map.1 alternative with ⟨rhs, hrhs, rfl⟩
      have hexpansion : rhs ∈ g.expansions r.lhs := by
        rw [expansions_eq_of_mem_rules hr]
        exact hrhs
      rw [remaining_concat]
      refine .remove ((mem_remaining_iff r.lhs).2 ⟨?_, new⟩) hexpansion ?_
      · exact isNonTerminal_of_mem_expansions hexpansion
      · intro s hs hleft
        rcases (mem_remaining_iff s).1 hleft with ⟨hn, hnew⟩
        exact hnew (known s (List.mem_filter.2 ⟨hs, hn⟩))

/-- What is left at the end are the symbols that are not marked at the end. -/
theorem removesAll_iff :
    g.RemovesAll left ↔ ∃ marked, MarksAll g.openChoices marked ∧ g.remaining marked = left := by
  have hnone : g.remaining [] = g.nonTerminals := by
    unfold remaining
    simp
  constructor
  · rintro ⟨hreaches, hend⟩
    have hmarks : ∃ marked, Relation.ReflTransGen (MarksOne g.openChoices) [] marked ∧
        g.remaining marked = left := by
      clear hend
      induction hreaches with
      | refl => exact ⟨[], .refl, hnone⟩
      | tail _ hone ih =>
        rcases ih with ⟨marked, hmarked, rfl⟩
        rcases removesOne_remaining_iff.1 hone with ⟨marked', hmark, heq⟩
        exact ⟨marked', hmarked.tail hmark, heq⟩
    rcases hmarks with ⟨marked, hmarked, rfl⟩
    refine ⟨marked, ⟨hmarked, fun more hmore => ?_⟩, rfl⟩
    exact hend _ (removesOne_remaining_iff.2 ⟨more, hmore, rfl⟩)
  · rintro ⟨marked, ⟨hreaches, hend⟩, rfl⟩
    constructor
    · clear hend
      induction hreaches with
      | refl =>
        rw [hnone]
      | tail _ hmark ih => exact ih.tail (removesOne_remaining_iff.2 ⟨_, hmark, rfl⟩)
    · intro fewer hone
      rcases removesOne_remaining_iff.1 hone with ⟨more, hmore, _⟩
      exact hend more hmore

/-- The same symbols in another order are taken out in the same way. -/
theorem RemovesOne.perm {left' fewer : List Symbol} (h : g.RemovesOne left fewer)
    (hperm : left.Perm left') : ∃ fewer', g.RemovesOne left' fewer' ∧ fewer.Perm fewer' := by
  cases h with
  | @remove sym rhs isLeft alternative free =>
    refine ⟨_, .remove (hperm.mem_iff.1 isLeft) alternative fun s hs hleft => ?_,
      hperm.filter _⟩
    exact free s hs (hperm.mem_iff.2 hleft)

theorem reaches_perm {left' fewer : List Symbol}
    (h : Relation.ReflTransGen g.RemovesOne left fewer) (hperm : left.Perm left') :
    ∃ fewer', Relation.ReflTransGen g.RemovesOne left' fewer' ∧ fewer.Perm fewer' := by
  induction h with
  | refl => exact ⟨left', .refl, hperm⟩
  | tail _ hone ih =>
    rcases ih with ⟨_, hreaches, hp⟩
    rcases hone.perm hp with ⟨fewer', hone', hp'⟩
    exact ⟨fewer', hreaches.tail hone', hp'⟩

theorem map_choices (g : Grammar) : g.choices.map (·.1) = g.nonTerminals := by
  unfold choices nonTerminals
  rw [List.map_map]
  rfl

theorem map_openChoices (g : Grammar) : g.openChoices.map (·.1) = g.nonTerminals := by
  unfold openChoices nonTerminals
  rw [List.map_map]
  rfl

/-- What is left at the end are the non-terminals that are not productive, in order of
    definition. -/
theorem RemovesAll.eq_remaining (h : g.RemovesAll left) : left = g.remaining g.productive := by
  rcases removesAll_iff.1 h with ⟨marked, hmarked, rfl⟩
  unfold remaining
  refine List.filter_congr fun sym _ => ?_
  have hmem : sym ∈ marked ↔ sym ∈ g.productive := hmarked.mem_iff sym
  simp [hmem]

section Sweeps

/-- Whether a symbol has an alternative all of whose symbols are of a kind. -/
def someAlternative (g : Grammar) (kind : Symbol → Bool) (sym : Symbol) : Bool :=
  (g.expansions sym).any (·.all kind)

/-- The turn of a symbol in a sweep that looks for nullable symbols. -/
def markTurn (g : Grammar) (sym : Symbol) (marked : List Symbol) : List Symbol × Bool :=
  if marked.contains sym then (marked, false)
  else if g.someAlternative (fun s => marked.contains s) sym then (marked ++ [sym], true)
  else (marked, false)

/-- The turn of a symbol in a sweep that takes productive symbols out. -/
def removeTurn (g : Grammar) (sym : Symbol) (left : List Symbol) : List Symbol × Bool :=
  if g.someAlternative (fun s => !left.contains s) sym then (left.filter (· ≠ sym), true)
  else (left, false)

theorem someAlternative_iff {kind : Symbol → Bool} {sym : Symbol} :
    g.someAlternative kind sym = true ↔ ∃ rhs ∈ g.expansions sym, ∀ s ∈ rhs, kind s = true := by
  unfold someAlternative
  simp only [List.any_eq_true, List.all_eq_true]

theorem marksOne_iff {more : List Symbol} :
    MarksOne g.choices marked more ↔
      ∃ sym, sym ∉ marked ∧ g.someAlternative (fun s => marked.contains s) sym = true ∧
        more = marked ++ [sym] := by
  simp only [someAlternative_iff, List.contains_iff_mem]
  constructor
  · intro h
    cases h with
    | mark listed new alternative known =>
      rcases List.mem_map.1 listed with ⟨r, hr, rfl⟩
      exact ⟨r.lhs, new, ⟨_, by rwa [expansions_eq_of_mem_rules hr], known⟩, rfl⟩
  · rintro ⟨sym, hnew, ⟨rhs, hrhs, hall⟩, rfl⟩
    rcases exists_rule_of_mem_expansions hrhs with ⟨r, hr, rfl, hmem⟩
    exact .mark (List.mem_map_of_mem hr) hnew hmem hall

theorem removesOne_iff {fewer : List Symbol} :
    g.RemovesOne left fewer ↔
      ∃ sym ∈ left, g.someAlternative (fun s => !left.contains s) sym = true ∧
        fewer = left.filter (· ≠ sym) := by
  simp only [someAlternative_iff, Bool.not_eq_true', ← Bool.not_eq_true, List.contains_iff_mem]
  constructor
  · intro h
    cases h with
    | remove isLeft alternative free => exact ⟨_, isLeft, ⟨_, alternative, free⟩, rfl⟩
  · rintro ⟨sym, hleft, ⟨rhs, hrhs, hfree⟩, rfl⟩
    exact .remove hleft hrhs hfree

/-- A turn marks its symbol, or there is no reason to do so. -/
theorem markTurn_cases (g : Grammar) (sym : Symbol) (marked : List Symbol) :
    g.markTurn sym marked = (marked ++ [sym], true) ∧
        MarksOne g.choices marked (marked ++ [sym]) ∨
      g.markTurn sym marked = (marked, false) ∧
        ¬MarksOne g.choices marked (marked ++ [sym]) := by
  have hmarks : MarksOne g.choices marked (marked ++ [sym]) ↔
      sym ∉ marked ∧ g.someAlternative (fun s => marked.contains s) sym = true := by
    rw [marksOne_iff]
    constructor
    · rintro ⟨other, hnew, halternative, heq⟩
      rw [List.append_cancel_left_eq, List.cons.injEq] at heq
      rw [heq.1]
      exact ⟨hnew, halternative⟩
    · rintro ⟨hnew, halternative⟩
      exact ⟨sym, hnew, halternative, rfl⟩
  unfold markTurn
  rw [hmarks]
  by_cases hmem : sym ∈ marked
  · rw [if_pos (List.contains_iff_mem.2 hmem)]
    exact Or.inr ⟨rfl, fun h => h.1 hmem⟩
  · rw [if_neg (mt List.contains_iff_mem.1 hmem)]
    by_cases halternative : g.someAlternative (fun s => marked.contains s) sym = true
    · rw [if_pos halternative]
      exact Or.inl ⟨rfl, hmem, halternative⟩
    · rw [if_neg halternative]
      exact Or.inr ⟨rfl, fun h => halternative h.2⟩

/-- At any time, the symbols marked have been marked one after the other. -/
theorem sweepInvariant_markTurn (g : Grammar) :
    SweepInvariant g.markTurn (fun _ => g.nonTerminals)
      (fun _ marked => Relation.ReflTransGen (MarksOne g.choices) [] marked)
      fun marked => (unmarked g.choices marked).length where
  begins _ h := h
  step sym _ marked h := by
    rcases g.markTurn_cases sym marked with ⟨heq, hone⟩ | ⟨heq, _⟩ <;> rw [heq]
    · exact h.tail hone
    · exact h
  quiet sym _ marked _ hquiet := by
    rcases g.markTurn_cases sym marked with ⟨heq, _⟩ | ⟨heq, _⟩ <;> rw [heq] at hquiet ⊢
    exact absurd hquiet.symm Bool.false_ne_true
  less sym _ marked _ hchange := by
    rcases g.markTurn_cases sym marked with ⟨heq, hone⟩ | ⟨heq, _⟩ <;> rw [heq] at hchange ⊢
    · exact hone.length_unmarked_lt
    · exact absurd hchange Bool.false_ne_true

/-- Sweeps over the non-terminals end, and no more symbol can be marked then. -/
theorem exists_repeats_markTurn (g : Grammar) :
    ∃ marked, Repeats (sweep g.markTurn g.nonTerminals) [] marked ∧ MarksAll g.choices marked := by
  rcases g.sweepInvariant_markTurn.exists_repeats .refl with ⟨marked, hrepeats, hreaches, hquiet⟩
  refine ⟨marked, hrepeats, hreaches, fun more hmore => ?_⟩
  rcases marksOne_iff.1 hmore with ⟨sym, _, halternative, rfl⟩
  -- Whoever can be marked is a non-terminal, and has had a turn in the last sweep.
  rcases someAlternative_iff.1 halternative with ⟨rhs, hrhs, _⟩
  have hn := (g.isNonTerminal_iff_mem_nonTerminals sym).1 (isNonTerminal_of_mem_expansions hrhs)
  rcases g.markTurn_cases sym marked with ⟨heq, _⟩ | ⟨_, hnone⟩
  · have hturn := hquiet sym hn
    rw [heq] at hturn
    exact absurd hturn.symm Bool.false_ne_true
  · exact hnone hmore

/-- A turn takes out its symbol, which is left so far, or there is no reason to do so. -/
theorem removeTurn_cases {sym : Symbol} (hleft : sym ∈ left) :
    g.removeTurn sym left = (left.filter (· ≠ sym), true) ∧
        g.RemovesOne left (left.filter (· ≠ sym)) ∨
      g.removeTurn sym left = (left, false) ∧ ¬g.RemovesOne left (left.filter (· ≠ sym)) := by
  have hremoves : g.RemovesOne left (left.filter (· ≠ sym)) ↔
      g.someAlternative (fun s => !left.contains s) sym = true := by
    rw [removesOne_iff]
    constructor
    · rintro ⟨other, _, halternative, heq⟩
      have hgone : sym ∉ left.filter (· ≠ other) := by
        rw [← heq]
        simp
      have hsame : sym = other := by
        by_contra hne
        exact hgone (List.mem_filter.2 ⟨hleft, decide_eq_true hne⟩)
      rwa [hsame]
    · intro halternative
      exact ⟨sym, hleft, halternative, rfl⟩
  unfold removeTurn
  rw [hremoves]
  by_cases halternative : g.someAlternative (fun s => !left.contains s) sym = true
  · rw [if_pos halternative]
    exact Or.inl ⟨rfl, halternative⟩
  · rw [if_neg halternative]
    exact Or.inr ⟨rfl, halternative⟩

/-- At any time, symbols have been taken out one after the other of all non-terminals, and
    those that are still to have a turn are left. -/
theorem sweepInvariant_removeTurn (g : Grammar) :
    SweepInvariant g.removeTurn (fun left => left)
      (fun waiting left => Relation.ReflTransGen g.RemovesOne (Text.sort g.nonTerminals) left ∧
        left.Sublist (Text.sort g.nonTerminals) ∧ waiting.Sublist left)
      List.length where
  begins left h := ⟨h.1, h.2.1, List.Sublist.refl left⟩
  step sym waiting left h := by
    rcases h with ⟨hreaches, hsub, hwaiting⟩
    rcases removeTurn_cases (hwaiting.subset List.mem_cons_self) with ⟨heq, hone⟩ | ⟨heq, _⟩ <;>
      rw [heq]
    · refine ⟨hreaches.tail hone, List.filter_sublist.trans hsub, ?_⟩
      -- No symbol is there twice, so none of the others goes with this one.
      have hdistinct : (sym :: waiting).Nodup :=
        ((Analysis.perm_sort _).nodup_iff.2 g.distinct).sublist (hwaiting.trans hsub)
      have hothers : (sym :: waiting).filter (· ≠ sym) = waiting := by
        rw [List.filter_cons_of_neg (by simp), List.filter_eq_self]
        intro other hother
        have hne : other ≠ sym := fun heq => (List.nodup_cons.1 hdistinct).1 (heq ▸ hother)
        exact decide_eq_true hne
      have hfilter := hwaiting.filter (fun s => decide (s ≠ sym))
      rwa [hothers] at hfilter
    · exact ⟨hreaches, hsub, (List.sublist_cons_self sym waiting).trans hwaiting⟩
  quiet sym waiting left h hquiet := by
    rcases removeTurn_cases (h.2.2.subset List.mem_cons_self) with ⟨heq, _⟩ | ⟨heq, _⟩ <;>
      rw [heq] at hquiet ⊢
    exact absurd hquiet.symm Bool.false_ne_true
  less sym waiting left h hchange := by
    rcases removeTurn_cases (h.2.2.subset List.mem_cons_self) with ⟨heq, hone⟩ | ⟨heq, _⟩ <;>
      rw [heq] at hchange ⊢
    · exact hone.length_lt
    · exact absurd hchange Bool.false_ne_true

/-- Sweeps over what is left end with the non-terminals that are not productive. -/
theorem repeats_removeTurn (g : Grammar) :
    Repeats (fun left => sweep g.removeTurn left left) (Text.sort g.nonTerminals)
      (Text.sort (g.remaining g.productive)) := by
  rcases g.sweepInvariant_removeTurn.exists_repeats
    ⟨.refl, List.Sublist.refl _, List.nil_sublist _⟩ with
    ⟨left, hrepeats, ⟨hreaches, hsub, _⟩, hquiet⟩
  -- They are taken out of a sorted list, which makes no difference.
  rcases reaches_perm hreaches (Analysis.perm_sort g.nonTerminals) with
    ⟨left', hreaches', hperm⟩
  have hremoves : g.RemovesAll left' := by
    refine ⟨hreaches', fun fewer hone => ?_⟩
    rcases hone.perm hperm.symm with ⟨_, hone', _⟩
    rcases removesOne_iff.1 hone' with ⟨sym, hleft, _, rfl⟩
    rcases removeTurn_cases hleft with ⟨heq, _⟩ | ⟨_, hnone⟩
    · have hturn := hquiet sym hleft
      rw [heq] at hturn
      exact absurd hturn.symm Bool.false_ne_true
    · exact hnone hone'
  rw [hremoves.eq_remaining] at hperm
  have hsorted : left.Pairwise (· < ·) := (Analysis.pairwise_lt_sort g.distinct).sublist hsub
  rwa [Analysis.sort_eq_of_perm hperm.symm hsorted]

end Sweeps

-- Every settled symbol has a choice, and all choices here are for non-terminals.
theorem isNonTerminal_of_mem_settled {choices : List Choices} {sym : Symbol}
    (hchoices : choices.map (·.1) = g.nonTerminals) (h : sym ∈ settled choices) :
    g.isNonTerminal sym = true := by
  rw [isNonTerminal_iff_mem_nonTerminals, ← hchoices]
  exact settled_induction h fun c hc _ _ _ => List.mem_map_of_mem hc

theorem isNonTerminal_of_mem_nullable {sym : Symbol} (h : sym ∈ g.nullable) :
    g.isNonTerminal sym = true :=
  isNonTerminal_of_mem_settled g.map_choices h

theorem isNonTerminal_of_mem_productive {sym : Symbol} (h : sym ∈ g.productive) :
    g.isNonTerminal sym = true :=
  isNonTerminal_of_mem_settled g.map_openChoices h

/-- The nullable symbols are those with a derivation tree that has no leaves. -/
theorem mem_nullable_iff_exists_tree (sym : Symbol) :
    sym ∈ g.nullable ↔ ∃ t, g.IsDerivation t ∧ t.symbol = sym ∧ t.frontier = [] := by
  constructor
  · intro h
    rcases exists_tree_of_mem_nullable h with ⟨t, ⟨ht, hf⟩, hsym⟩
    exact ⟨t, ht, hsym, hf⟩
  · rintro ⟨t, ht, rfl, hf⟩
    exact mem_nullable_of_isDerivation ht hf

/-- The nullable symbols are those that can be made to vanish step by step. -/
theorem mem_nullable_iff_derives (sym : Symbol) : sym ∈ g.nullable ↔ g.Derives [sym] [] := by
  rw [mem_nullable_iff_exists_tree, derives_iff_exists_tree]
  intro s hs
  exact absurd hs List.not_mem_nil

/-- The productive symbols are the non-terminals with a derivation tree. -/
theorem mem_productive_iff_exists_tree {sym : Symbol} (hn : g.isNonTerminal sym = true) :
    sym ∈ g.productive ↔ ∃ t, g.IsDerivation t ∧ t.symbol = sym ∧
      ∀ s ∈ t.frontier, g.isNonTerminal s = false := by
  constructor
  · intro h
    rcases exists_tree_of_mem_productive h with ⟨t, ht, hsym⟩
    exact ⟨t, ht, hsym, ht.terminal_of_mem_frontier⟩
  · rintro ⟨t, ht, rfl, _⟩
    exact mem_productive_of_isDerivation ht hn

/-- The productive symbols are the non-terminals that derive terminals step by step. -/
theorem mem_productive_iff_derives {sym : Symbol} (hn : g.isNonTerminal sym = true) :
    sym ∈ g.productive ↔
      ∃ word, g.Derives [sym] word ∧ ∀ s ∈ word, g.isNonTerminal s = false := by
  rw [mem_productive_iff_exists_tree hn]
  constructor
  · rintro ⟨t, ht, rfl, hterminal⟩
    exact ⟨t.frontier, ht.derives, hterminal⟩
  · rintro ⟨word, h, hterminal⟩
    rcases (derives_iff_exists_tree hterminal).1 h with ⟨t, ht, hsym, rfl⟩
    exact ⟨t, ht, hsym, hterminal⟩

/-- Marked non-terminals and those that are not marked are all there are. -/
theorem perm_append_remaining (hnodup : marked.Nodup)
    (hn : ∀ sym ∈ marked, g.isNonTerminal sym = true) :
    (marked ++ g.remaining marked).Perm g.nonTerminals := by
  have hmarked : marked.Perm (g.nonTerminals.filter (marked.contains ·)) := by
    refine (List.perm_ext_iff_of_nodup hnodup (g.distinct.filter _)).2 fun sym => ?_
    rw [List.mem_filter, List.contains_iff_mem]
    exact ⟨fun h => ⟨(g.isNonTerminal_iff_mem_nonTerminals sym).1 (hn sym h), h⟩, And.right⟩
  exact (hmarked.append_right _).trans (List.filter_append_perm _ g.nonTerminals)

/-- A grammar where `S` derives nothing because `C` does, which is three rules away and
    defined last, while `D` derives `d` and no more, and `E` does not get anywhere. -/
def fading : Grammar :=
  .ofProductions "fading"
    [("S", ["A", "B"]), ("A", ["B", "B"]), ("A", ["D"]), ("B", ["C"]), ("D", ["d", "B"]),
      ("E", ["d", "E"]), ("C", []), ("C", ["c", "C"])]

end Grammar

namespace Analysis

theorem exists_of?_eq {g : Grammar} {start : Symbol} (hg : g.start? = some start) :
    ∃ a, of? g = some a := by
  rw [of?, hg]
  exact ⟨_, rfl⟩

theorem nullable_eq_sort {g : Grammar} {a : Analysis} (ha : of? g = some a) :
    a.nullable = Text.sort g.nullable := by
  rw [of?, Option.map_eq_some_iff] at ha
  rcases ha with ⟨start, _, rfl⟩
  rfl

theorem productive_eq_sort {g : Grammar} {a : Analysis} (ha : of? g = some a) :
    a.productive = Text.sort g.productive := by
  rw [of?, Option.map_eq_some_iff] at ha
  rcases ha with ⟨start, _, rfl⟩
  rfl

-- What is not productive is listed as unrealizable.
theorem unrealizable_eq_sort {g : Grammar} {a : Analysis} (ha : of? g = some a) :
    a.unrealizable = Text.sort (g.remaining g.productive) := by
  rw [of?, Option.map_eq_some_iff] at ha
  rcases ha with ⟨start, _, rfl⟩
  unfold unrealizable others Grammar.remaining
  congr 1
  refine List.filter_congr fun sym _ => ?_
  simp [mem_sort]

/-- The nullable symbols are the non-terminals that have a derivation tree with an empty
    frontier, which are those that derive the empty sequence. They are listed in strictly
    ascending order. The loop that marks them ends, and what it has marked then is this. It
    does so if it sweeps over the non-terminals until nothing changes. -/
theorem mem_nullable_iff {g : Grammar} {start : Symbol} (hg : g.start? = some start) :
    ∃ a, of? g = some a ∧
      (∀ sym, sym ∈ a.nullable ↔ g.isNonTerminal sym = true ∧
        ∃ t, g.IsDerivation t ∧ t.symbol = sym ∧ t.frontier = []) ∧
      (∀ sym, sym ∈ a.nullable ↔ g.Derives [sym] []) ∧
      a.nullable.Pairwise (· < ·) ∧
      WellFounded (fun marked' marked => MarksOne g.choices marked marked') ∧
      MarksAll g.choices g.nullable ∧
      (∀ marked, MarksAll g.choices marked → marked.Perm a.nullable) ∧
      ∃ marked, Repeats (sweep g.markTurn g.nonTerminals) [] marked ∧
        MarksAll g.choices marked ∧ Text.sort marked = a.nullable := by
  have hdistinct : (g.choices.map (·.1)).Nodup := g.map_choices ▸ g.distinct
  have hmarks : MarksAll g.choices g.nullable := marksAll_settled hdistinct
  rcases exists_of?_eq hg with ⟨a, ha⟩
  refine ⟨a, ha, ?_⟩
  rw [nullable_eq_sort ha]
  refine ⟨fun sym => ?_, fun sym => ?_, ?_, wellFounded_marksOne _, hmarks, fun marked h => ?_, ?_⟩
  · rw [mem_sort, ← Grammar.mem_nullable_iff_exists_tree]
    exact ⟨fun h => ⟨Grammar.isNonTerminal_of_mem_nullable h, h⟩, And.right⟩
  · rw [mem_sort, Grammar.mem_nullable_iff_derives]
  · exact pairwise_lt_sort (nodup_of_reaches hmarks.1)
  · have hperm : marked.Perm g.nullable := h.perm_settled hdistinct
    exact hperm.trans (perm_sort _).symm
  · rcases g.exists_repeats_markTurn with ⟨marked, hrepeats, hall⟩
    have hperm : marked.Perm g.nullable := hall.perm_settled hdistinct
    exact ⟨marked, hrepeats, hall, sort_eq_of_perm (hperm.trans (perm_sort _).symm)
      (pairwise_lt_sort (nodup_of_reaches hmarks.1))⟩

theorem mem_nullable_iff_fading :
    Grammar.fading.start? = some (Text.ofString "S") ∧
      ∃ a, of? Grammar.fading = some a ∧ a.nullable = [Text.ofString "A", "B", "C", "S"] ∧
        (∃ t, Grammar.fading.IsDerivation t ∧ t.symbol = "S" ∧ t.frontier = []) ∧
        ¬Grammar.fading.Derives ["D"] [] ∧
        (∀ marked, MarksAll Grammar.fading.choices marked →
          marked.Perm [Text.ofString "A", "B", "C", "S"]) ∧
        ∃ marked, Repeats (sweep Grammar.fading.markTurn Grammar.fading.nonTerminals) [] marked ∧
          Text.sort marked = [Text.ofString "A", "B", "C", "S"] := by
  have hg : Grammar.fading.start? = some (Text.ofString "S") := rfl
  rcases mem_nullable_iff hg with ⟨a, ha, htree, hderives, _, _, _, hmarks, hsweeps⟩
  have hnullable : a.nullable = [Text.ofString "A", "B", "C", "S"] := by
    have hsettled : Grammar.fading.nullable = [Text.ofString "C", "B", "A", "S"] := by
      decide +kernel
    rw [nullable_eq_sort ha, hsettled]
    exact sort_eq_of_perm (by decide) (by decide)
  rw [hnullable] at htree hderives hmarks hsweeps
  rcases hsweeps with ⟨marked, hrepeats, _, hsorted⟩
  refine ⟨hg, a, ha, hnullable, ((htree "S").1 (by decide)).2, ?_, hmarks, marked, hrepeats,
    hsorted⟩
  rw [← hderives]
  decide

/-- A non-terminal is productive if it has a derivation tree, whose leaves are terminals,
    which is so if it derives a sequence of terminals, and unrealizable otherwise. Both are
    listed in strictly ascending order, and together they are the non-terminals, each of
    them once. The loop that takes productive symbols out ends, and what is left then are
    the unrealizable ones. It does so if it sweeps over what is left until nothing changes. -/
theorem mem_productive_iff {g : Grammar} {start : Symbol} (hg : g.start? = some start) :
    ∃ a, of? g = some a ∧
      (∀ sym, g.isNonTerminal sym = true →
        (sym ∈ a.productive ↔ ∃ t, g.IsDerivation t ∧ t.symbol = sym ∧
          ∀ s ∈ t.frontier, g.isNonTerminal s = false) ∧
        (sym ∈ a.productive ↔ ∃ word, g.Derives [sym] word ∧
          ∀ s ∈ word, g.isNonTerminal s = false) ∧
        (sym ∈ a.unrealizable ↔ sym ∉ a.productive)) ∧
      a.productive.Pairwise (· < ·) ∧ a.unrealizable.Pairwise (· < ·) ∧
      (a.productive ++ a.unrealizable).Perm g.nonTerminals ∧
      WellFounded (fun fewer left => g.RemovesOne left fewer) ∧
      g.RemovesAll (g.remaining g.productive) ∧
      (∀ left, g.RemovesAll left → left.Perm a.unrealizable) ∧
      Repeats (fun left => sweep g.removeTurn left left) (Text.sort g.nonTerminals)
        a.unrealizable := by
  have hdistinct : (g.openChoices.map (·.1)).Nodup := g.map_openChoices ▸ g.distinct
  have hmarks : MarksAll g.openChoices g.productive := marksAll_settled hdistinct
  have hnodup : g.productive.Nodup := nodup_of_reaches hmarks.1
  rcases exists_of?_eq hg with ⟨a, ha⟩
  refine ⟨a, ha, ?_⟩
  rw [productive_eq_sort ha, unrealizable_eq_sort ha]
  refine ⟨fun sym hn => ⟨?_, ?_, ?_⟩, ?_, ?_, ?_, g.wellFounded_removesOne, ?_, fun left h => ?_,
    g.repeats_removeTurn⟩
  · rw [mem_sort, Grammar.mem_productive_iff_exists_tree hn]
  · rw [mem_sort, Grammar.mem_productive_iff_derives hn]
  · rw [mem_sort, mem_sort, Grammar.mem_remaining_iff]
    exact ⟨And.right, fun h => ⟨hn, h⟩⟩
  · exact pairwise_lt_sort hnodup
  · exact pairwise_lt_sort (g.distinct.filter _)
  · have hsorted : (Text.sort g.productive ++ Text.sort (g.remaining g.productive)).Perm
        (g.productive ++ g.remaining g.productive) :=
      (perm_sort _).append (perm_sort _)
    exact hsorted.trans (Grammar.perm_append_remaining hnodup
      fun sym h => Grammar.isNonTerminal_of_mem_productive h)
  · exact Grammar.removesAll_iff.2 ⟨g.productive, hmarks, rfl⟩
  · rw [h.eq_remaining]
    exact (perm_sort _).symm

theorem mem_productive_iff_fading :
    Grammar.fading.start? = some (Text.ofString "S") ∧
      ∃ a, of? Grammar.fading = some a ∧
        a.productive = [Text.ofString "A", "B", "C", "D", "S"] ∧
        a.unrealizable = [Text.ofString "E"] ∧ (∃ word, Grammar.fading.Derives ["S"] word) ∧
        (¬∃ t, Grammar.fading.IsDerivation t ∧ t.symbol = "E" ∧
          ∀ s ∈ t.frontier, Grammar.fading.isNonTerminal s = false) ∧
        (∀ left, Grammar.fading.RemovesAll left → left.Perm [Text.ofString "E"]) ∧
        Repeats (fun left => sweep Grammar.fading.removeTurn left left)
          (Text.sort Grammar.fading.nonTerminals) [Text.ofString "E"] := by
  have hg : Grammar.fading.start? = some (Text.ofString "S") := rfl
  rcases mem_productive_iff hg with ⟨a, ha, hsym, _, _, _, _, _, hremoves, hsweeps⟩
  have hsettled : Grammar.fading.productive = [Text.ofString "C", "B", "A", "D", "S"] := by
    decide +kernel
  have hproductive : a.productive = [Text.ofString "A", "B", "C", "D", "S"] := by
    rw [productive_eq_sort ha, hsettled]
    exact sort_eq_of_perm (by decide) (by decide)
  have hunrealizable : a.unrealizable = [Text.ofString "E"] := by
    have hleft : Grammar.fading.remaining Grammar.fading.productive = [Text.ofString "E"] := by
      decide +kernel
    rw [unrealizable_eq_sort ha, hleft]
    exact sort_eq_of_perm (by decide) (by decide)
  rw [hproductive, hunrealizable] at hsym
  rw [hunrealizable] at hremoves hsweeps
  rcases (hsym "S" rfl).2.1.1 (by decide) with ⟨word, hword, _⟩
  refine ⟨hg, a, ha, hproductive, hunrealizable, ⟨word, hword⟩, ?_, hremoves, hsweeps⟩
  rw [← (hsym "E" rfl).1]
  decide

end Analysis

end Derivations
