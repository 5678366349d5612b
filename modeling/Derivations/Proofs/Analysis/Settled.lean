import Derivations.Analysis.Basic
import Derivations.Proofs.Grammar.Derivation

/-!
# What the Rounds Settle

Settling goes on as long as some alternative has become empty. When it ends, every
alternative left has a symbol that is not settled, so a symbol with an alternative
of settled symbols only is settled itself. A round that goes on settles a symbol,
so there are never fewer rounds than needed.

Derivation trees follow the same path from their leaves to their roots. If the
frontier of a tree is empty, all its nodes are of nullable symbols, and in any case
all of them are of productive ones.

Nothing is settled without a reason either. Whatever holds of a symbol as soon as it
holds of all symbols of an alternative, holds of all symbols that are settled. Having
a derivation tree is a property of that kind, and so is having one with an empty
frontier.

## Theorems

* `mem_settled_of_alternative`: An alternative of settled symbols settles its
  symbol.
* `settled_induction`: What passes from alternatives to symbols holds of settled
  symbols.
* `Grammar.mem_nullable_of_isDerivation`, `Grammar.exists_tree_of_mem_nullable`: The
  nullable symbols are those which derive the empty sequence.
* `Grammar.mem_productive_of_isDerivation`, `Grammar.exists_tree_of_mem_productive`: The
  productive symbols are those which derive terminals.
-/

namespace Derivations

/-- An alternative of settled symbols settles its symbol, provided that there is a
    round for every symbol pending. -/
theorem mem_settledWithin_of_alternative (rounds : Nat) (pending : List Choices)
    (hrounds : pending.length ≤ rounds) {c : Choices} (hc : c ∈ pending) (rhs : List Symbol)
    (hrhs : rhs ∈ c.2) (hall : ∀ sym ∈ rhs, sym ∈ settledWithin rounds pending) :
    c.1 ∈ settledWithin rounds pending := by
  induction rounds generalizing pending c rhs with
  | zero =>
    rw [List.length_eq_zero_iff.1 (Nat.le_zero.1 hrounds)] at hc
    exact absurd hc List.not_mem_nil
  | succ rounds ih =>
    have hmem : ∀ {d : Choices}, d ∈ pending → d.isSettled = true →
        d.1 ∈ (pending.filter (·.isSettled)).map (·.1) :=
      fun hd hs => List.mem_map_of_mem (List.mem_filter.2 ⟨hd, hs⟩)
    rw [settledWithin] at hall ⊢
    cases hknown : (pending.filter (·.isSettled)).map (·.1) with
    | nil =>
      -- No symbol is settled, so the alternative is empty, which settles its symbol.
      rw [hknown] at hall hmem
      have hnil : rhs = [] := by
        cases rhs with
        | nil => rfl
        | cons sym _ => exact absurd (hall sym List.mem_cons_self) List.not_mem_nil
      refine absurd (hmem hc ?_) List.not_mem_nil
      rw [Choices.isSettled, List.any_eq_true]
      exact ⟨rhs, hrhs, by rw [hnil]; rfl⟩
    | cons first more =>
      rw [hknown] at hall hmem
      simp only at hall ⊢
      rw [List.mem_append]
      by_cases hs : c.isSettled = true
      · exact Or.inl (hmem hc hs)
      · refine Or.inr (ih _ ?_ (c := c.without (first :: more)) ?_
          (rhs.filter (!(first :: more).contains ·)) ?_ ?_)
        · -- Somebody has been settled, so fewer are left.
          have hne : pending.filter (·.isSettled) ≠ [] := by
            intro hnil
            rw [hnil] at hknown
            exact absurd hknown (List.cons_ne_nil _ _).symm
          rcases List.exists_mem_of_ne_nil _ hne with ⟨d, hd⟩
          rcases List.mem_filter.1 hd with ⟨hdp, hds⟩
          have hlt : (pending.filter (!·.isSettled)).length < pending.length :=
            List.length_filter_lt_length_iff_exists.2 ⟨d, hdp, by rw [hds]; simp⟩
          rw [List.length_map]
          omega
        · exact List.mem_map_of_mem
            (List.mem_filter.2 ⟨hc, by rw [Bool.eq_false_iff.2 hs]; rfl⟩)
        · exact List.mem_map_of_mem hrhs
        · intro sym hsym
          rcases List.mem_filter.1 hsym with ⟨hmemr, hnot⟩
          rcases List.mem_append.1 (hall sym hmemr) with hin | hin
          · rw [List.contains_iff_mem.2 hin] at hnot
            exact absurd hnot Bool.false_ne_true
          · exact hin

/-- An alternative of settled symbols settles its symbol. -/
theorem mem_settled_of_alternative {choices : List Choices} {c : Choices} (hc : c ∈ choices)
    {rhs : List Symbol} (hrhs : rhs ∈ c.2) (hall : ∀ sym ∈ rhs, sym ∈ settled choices) :
    c.1 ∈ settled choices :=
  mem_settledWithin_of_alternative choices.length choices (Nat.le_refl _) hc rhs hrhs hall

theorem settledWithin_induction {holds : Symbol → Prop} (rounds : Nat) (pending : List Choices)
    (h : ∀ c ∈ pending, ∀ rhs ∈ c.2, (∀ sym ∈ rhs, holds sym) → holds c.1) :
    ∀ sym ∈ settledWithin rounds pending, holds sym := by
  induction rounds generalizing pending with
  | zero => exact fun sym hsym => absurd hsym List.not_mem_nil
  | succ rounds ih =>
    -- A symbol is known at once if it has an alternative without symbols.
    have hnow : ∀ sym ∈ (pending.filter (·.isSettled)).map (·.1), holds sym := by
      intro sym hsym
      rcases List.mem_map.1 hsym with ⟨c, hc, rfl⟩
      rcases List.mem_filter.1 hc with ⟨hc, hs⟩
      unfold Choices.isSettled at hs
      rcases List.any_eq_true.1 hs with ⟨rhs, hrhs, hempty⟩
      rw [List.isEmpty_iff.1 hempty] at hrhs
      exact h c hc [] hrhs fun sym hsym => absurd hsym List.not_mem_nil
    intro sym hsym
    unfold settledWithin at hsym
    cases hknown : (pending.filter (·.isSettled)).map (·.1) with
    | nil =>
      rw [hknown] at hsym
      exact absurd hsym List.not_mem_nil
    | cons first more =>
      rw [hknown] at hsym hnow
      rcases List.mem_append.1 hsym with hsym | hsym
      · exact hnow sym hsym
      · refine ih _ ?_ sym hsym
        -- The symbols that were taken out of an alternative are known already.
        intro c hc rhs hrhs hall
        rcases List.mem_map.1 hc with ⟨d, hd, rfl⟩
        rcases List.mem_map.1 hrhs with ⟨rhs', hrhs', rfl⟩
        refine h d (List.mem_filter.1 hd).1 rhs' hrhs' fun s hs => ?_
        by_cases hks : s ∈ first :: more
        · exact hnow s hks
        · exact hall s (List.mem_filter.2 ⟨hs, by simpa using hks⟩)

/-- Whatever holds of a symbol if it holds of all symbols of an alternative, holds of
    all symbols that are settled. -/
@[elab_as_elim]
theorem settled_induction {motive : Symbol → Prop} {choices : List Choices} {sym : Symbol}
    (hsym : sym ∈ settled choices)
    (h : ∀ c ∈ choices, ∀ rhs ∈ c.2, (∀ sym ∈ rhs, motive sym) → motive c.1) : motive sym :=
  settledWithin_induction choices.length choices h sym hsym

namespace Grammar

variable {g : Grammar}

theorem mem_nullable_of_mem_expansions {sym : Symbol} {rhs : List Symbol}
    (hrhs : rhs ∈ g.expansions sym) (hall : ∀ s ∈ rhs, s ∈ g.nullable) : sym ∈ g.nullable := by
  rcases exists_rule_of_mem_expansions hrhs with ⟨r, hr, hl, ha⟩
  unfold nullable at hall ⊢
  rw [← hl]
  exact mem_settled_of_alternative
    (List.mem_map_of_mem (f := fun r : Rule => (r.lhs, r.alternatives)) hr) ha hall

/-- The symbol at the root of a derivation tree with an empty frontier is nullable. -/
theorem mem_nullable_of_isDerivation {t : Tree} (h : g.IsDerivation t) (hf : t.frontier = []) :
    t.symbol ∈ g.nullable := by
  induction h with
  | leaf terminal => exact absurd hf (List.cons_ne_nil _ _)
  | @node sym children applied derived ih =>
    rw [Tree.frontier, Tree.frontierAll_eq_nil_iff] at hf
    refine mem_nullable_of_mem_expansions applied fun s hs => ?_
    rcases List.mem_map.1 hs with ⟨c, hc, rfl⟩
    exact ih c hc (hf c hc)

/-- A non-terminal at the root of a derivation tree is productive. -/
theorem mem_productive_of_isDerivation {t : Tree} (h : g.IsDerivation t)
    (hn : g.isNonTerminal t.symbol = true) : t.symbol ∈ g.productive := by
  induction h with
  | leaf terminal =>
    rw [Tree.symbol, terminal] at hn
    exact absurd hn Bool.false_ne_true
  | @node sym children applied derived ih =>
    rcases exists_rule_of_mem_expansions applied with ⟨r, hr, hl, ha⟩
    change sym ∈ settled (g.rules.map fun r =>
      (r.lhs, r.alternatives.map (·.filter g.isNonTerminal)))
    rw [← hl]
    refine mem_settled_of_alternative
      (List.mem_map_of_mem (f := fun r : Rule =>
        (r.lhs, r.alternatives.map (·.filter g.isNonTerminal))) hr)
      (List.mem_map_of_mem ha) fun s hs => ?_
    rcases List.mem_filter.1 hs with ⟨hs, hsn⟩
    rcases List.mem_map.1 hs with ⟨c, hc, rfl⟩
    exact ih c hc hsn

/-- A nullable symbol has a derivation tree with an empty frontier. -/
theorem exists_tree_of_mem_nullable {sym : Symbol} (h : sym ∈ g.nullable) :
    ∃ t, (g.IsDerivation t ∧ t.frontier = []) ∧ t.symbol = sym := by
  unfold nullable at h
  refine settled_induction h fun c hc rhs hrhs hall => ?_
  rcases List.mem_map.1 hc with ⟨r, hr, rfl⟩
  rcases Tree.exists_trees_of_symbols hall with ⟨ts, hts, hkind⟩
  refine ⟨.node r.lhs ts, ⟨.node ?_ fun t ht => (hkind t ht).1, ?_⟩, rfl⟩
  · rw [expansions_eq_of_mem_rules hr, hts]
    exact hrhs
  · rw [Tree.frontier, Tree.frontierAll_eq_nil_iff]
    exact fun t ht => (hkind t ht).2

-- Only non-terminals can be without a derivation tree, terminals have leaves.
theorem exists_tree_of_nonTerminal {sym : Symbol}
    (h : g.isNonTerminal sym = true → ∃ t, g.IsDerivation t ∧ t.symbol = sym) :
    ∃ t, g.IsDerivation t ∧ t.symbol = sym := by
  by_cases hn : g.isNonTerminal sym = true
  · exact h hn
  · exact ⟨.leaf sym, .leaf (Bool.eq_false_iff.2 hn), rfl⟩

/-- A productive symbol has a derivation tree. -/
theorem exists_tree_of_mem_productive {sym : Symbol} (h : sym ∈ g.productive) :
    ∃ t, g.IsDerivation t ∧ t.symbol = sym := by
  unfold productive at h
  refine settled_induction h fun c hc rhs hrhs hall => ?_
  rcases List.mem_map.1 hc with ⟨r, hr, rfl⟩
  rcases List.mem_map.1 hrhs with ⟨rhs', hrhs', rfl⟩
  have htrees : ∀ sym ∈ rhs', ∃ t, g.IsDerivation t ∧ t.symbol = sym := fun sym hsym =>
    exists_tree_of_nonTerminal fun hn => hall sym (List.mem_filter.2 ⟨hsym, hn⟩)
  rcases Tree.exists_trees_of_symbols htrees with ⟨ts, hts, hkind⟩
  refine ⟨.node r.lhs ts, .node ?_ hkind, rfl⟩
  rw [expansions_eq_of_mem_rules hr, hts]
  exact hrhs'

end Grammar

end Derivations
