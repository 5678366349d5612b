import Derivations.Proofs.Grammar.Fingerprint.Spelling
import Mathlib.Algebra.BigOperators.Group.List.Basic
import Mathlib.Algebra.Ring.Nat
import Mathlib.Data.List.Nodup

/-!
# What Fingerprints Tell Apart

The text that a fingerprint is a digest of spells out the non-terminals in their order and
then the rules. Left-hand sides may be any words, with quotation marks in them, and these
are not marked in any way. So the text cannot always be read back: the order of `a` and
`a","a` is spelled like the order of `a","a` and `a`, and when the rules are spelled out in
their sorted order there is nothing left that tells two such grammars apart.

If no left-hand side has a quotation mark followed by a comma, the text can be read back. A
left-hand side that is not the last one in the order then ends where the first quotation
mark with a comma behind it stands. It is not so clear where the last one ends, as a longer
one might take in the beginning of the rules and go on. But then it has taken in the comma
in front of `Rules`. Commas followed by an `R` can be counted. There is one in front of
`Rules`, and all others are within left-hand sides, where each is counted twice, once in
the order and once in the rules. So two grammars that are spelled in the same way have the
same number of them in their left-hand sides, and none can have taken in one more.

Once the orders are known to be the same, so are the left-hand sides of the sorted rules,
and their alternatives can be read back one after the other.

## Main definitions

* `Text.marks`: The number of commas followed by an `R`.
* `Grammar.following`: What is spelled out behind the first symbol of the order.

## Theorems

* `Grammar.marks_canonical`: The marks in the spelling of a grammar.
* `Grammar.eq_of_following_eq`: Orders with the same spelling and as many marks are the
  same.
* `Grammar.rules_eq_of_canonical_eq`: Grammars with the same spelling have the same rules.
* `Grammar.rules_eq_of_productions_eq`: So have grammars with the same productions.
* `Grammar.canonical_separates`: What fingerprints tell apart.
-/

namespace Derivations

namespace Text

/-- How many commas are followed by an `R`. -/
def marks : Text → Nat
  | [] => 0
  | [_] => 0
  | a :: b :: t => (if a = ','.toUInt8 ∧ b = 'R'.toUInt8 then 1 else 0) + marks (b :: t)

theorem marks_cons_of_ne {a : UInt8} (h : a ≠ ','.toUInt8) (t : Text) :
    marks (a :: t) = marks t := by
  cases t with
  | nil => rfl
  | cons b t => rw [marks, if_neg fun hab => h hab.1, Nat.zero_add]

theorem marks_cons_cons_of_ne {b : UInt8} (h : b ≠ 'R'.toUInt8) (a : UInt8) (t : Text) :
    marks (a :: b :: t) = marks (b :: t) := by
  rw [marks, if_neg fun hab => h hab.2, Nat.zero_add]

-- A quotation mark has no part in any mark.
theorem marks_append_quote (s t : Text) : marks (s ++ '"'.toUInt8 :: t) = marks s + marks t := by
  induction s using marks.induct with
  | case1 => rw [List.nil_append, marks_cons_of_ne (by decide), marks, Nat.zero_add]
  | case2 a =>
    rw [List.singleton_append, marks_cons_cons_of_ne (by decide), marks_cons_of_ne (by decide),
      marks, Nat.zero_add]
  | case3 a b s ih =>
    rw [List.cons_append, List.cons_append, marks, ← List.cons_append, ih, marks, Nat.add_assoc]

theorem marks_eq_zero {t : Text} (h : ∀ b ∈ t, b ≠ ','.toUInt8) : marks t = 0 := by
  induction t with
  | nil => rfl
  | cons a t ih =>
    rw [List.forall_mem_cons] at h
    rw [marks_cons_of_ne h.1, ih h.2]

theorem IsCharacter.marks_eq_zero {t : Text} (h : t.IsCharacter) : marks t = 0 := by
  rcases h with ⟨b, _, rfl⟩ | ⟨_, hhigh⟩
  · rfl
  · -- A comma is below 128.
    refine Text.marks_eq_zero fun b hb hcomma => ?_
    rw [hcomma] at hb
    exact absurd (hhigh _ hb) (by decide)

end Text

namespace Grammar

open Text

section

variable {α : Type u} {spell : α → Text} (weight : α → Nat)

theorem marks_flatMap_append (hopens : Opens spell) (as : List α)
    (h : ∀ a ∈ as, ∀ t, marks (spell a ++ t) = weight a + marks t) (t : Text) :
    marks ((as.map spell).flatMap (','.toUInt8 :: ·) ++ ']'.toUInt8 :: t) =
      (as.map weight).sum + marks t := by
  induction as with
  | nil =>
    rw [List.map_nil, List.flatMap_nil, List.nil_append, marks_cons_of_ne (by decide),
      List.map_nil, List.sum_nil, Nat.zero_add]
  | cons a as ih =>
    rw [List.forall_mem_cons] at h
    rw [List.map_cons, List.flatMap_cons, List.append_assoc, List.cons_append]
    -- The comma is not followed by an `R`, as spellings open in another way.
    have hcomma : ∀ r : Text, marks (','.toUInt8 :: (spell a ++ r)) = marks (spell a ++ r) := by
      intro r
      rcases hopens a with ⟨b, rest, hb, hopen⟩
      rw [hb, List.cons_append]
      refine marks_cons_cons_of_ne (fun hR => ?_) _ _
      rw [hR] at hopen
      exact absurd hopen (by decide)
    rw [hcomma, h.1, ih h.2, List.map_cons, List.sum_cons, Nat.add_assoc]

theorem marks_bracketedList_append (hopens : Opens spell) (as : List α)
    (h : ∀ a ∈ as, ∀ t, marks (spell a ++ t) = weight a + marks t) (t : Text) :
    marks (bracketedList (as.map spell) ++ t) = (as.map weight).sum + marks t := by
  cases as with
  | nil =>
    rw [List.map_nil, bracketedList_nil_append, marks_cons_of_ne (by decide),
      marks_cons_of_ne (by decide), List.map_nil, List.sum_nil, Nat.zero_add]
  | cons a as =>
    rw [List.forall_mem_cons] at h
    rw [List.map_cons, bracketedList_cons_append, marks_cons_of_ne (by decide), h.1,
      marks_flatMap_append weight hopens as h.2, List.map_cons, List.sum_cons, Nat.add_assoc]

end

theorem marks_quotedSymbol_append (sym : Symbol) (t : Text) :
    marks (quotedSymbol sym ++ t) = marks sym + marks t := by
  rw [quotedSymbol_append, marks_cons_of_ne (by decide), marks_append_quote]

theorem marks_spelledAlternatives_append {alternatives : List (List Symbol)}
    (h : ∀ rhs ∈ alternatives, ∀ sym ∈ rhs, IsCharacter sym) (t : Text) :
    marks (spelledAlternatives alternatives ++ t) = marks t := by
  have hrhs : ∀ rhs ∈ alternatives, ∀ t,
      marks (bracketedList (rhs.map quotedSymbol) ++ t) = 0 + marks t := by
    intro rhs hrhs t
    rw [marks_bracketedList_append (fun _ => 0) opens_quotedSymbol rhs]
    · simp
    · intro sym hsym t
      rw [marks_quotedSymbol_append, (h rhs hrhs sym hsym).marks_eq_zero]
  rw [spelledAlternatives, marks_bracketedList_append (fun _ => 0)
    (opens_bracketedList quotedSymbol) alternatives hrhs]
  simp

theorem marks_canonicalRule_append {r : Rule}
    (h : ∀ rhs ∈ r.alternatives, ∀ sym ∈ rhs, IsCharacter sym) (t : Text) :
    marks (canonicalRule r ++ t) = marks r.lhs + marks t := by
  rw [canonicalRule_append, marks_cons_of_ne (by decide), marks_append_quote,
    marks_cons_of_ne (by decide), marks_spelledAlternatives_append h]

/-- What is spelled out behind the first symbol of the order and its quotation marks, with
    the beginning of what follows the order. -/
def following (syms : List Symbol) (t : Text) : Text :=
  (syms.map quotedSymbol).flatMap (','.toUInt8 :: ·) ++
    ']'.toUInt8 :: ','.toUInt8 :: 'R'.toUInt8 :: t

/-- The rules spelled out, with what is in front of them behind the order, but for the
    comma and the `R`. -/
def spelledRules (g : Grammar) : Text :=
  "ules:" ++ bracketedList (g.sortedRules.map canonicalRule) ++ "\x7d"

theorem following_cons (sym : Symbol) (syms : List Symbol) (t : Text) :
    following (sym :: syms) t =
      ','.toUInt8 :: '"'.toUInt8 :: (sym ++ '"'.toUInt8 :: following syms t) := by
  rw [following, List.map_cons, List.flatMap_cons, List.append_assoc, List.cons_append,
    quotedSymbol_append]
  rfl

variable {g g₁ g₂ : Grammar}

theorem canonical_eq_append {sym : Symbol} {syms : List Symbol}
    (h : g.nonTerminals = sym :: syms) :
    g.canonical =
      Text.ofString "\x7bOrder:[\"" ++ (sym ++ '"'.toUInt8 :: following syms g.spelledRules) := by
  rw [canonical, h, List.map_cons]
  simp only [List.append_assoc]
  rw [bracketedList_cons_append, quotedSymbol_append]
  rfl

/-- In the spelling of a grammar there is one mark in front of the rules, and all others
    are within left-hand sides, each of them twice. -/
theorem marks_canonical (hg : g.InCharacters) :
    marks g.canonical = 1 + 2 * (g.nonTerminals.map marks).sum := by
  -- Sorting does not change the sum.
  have hperm : (g.sortedRules.map (marks ·.lhs)).sum = (g.nonTerminals.map marks).sum := by
    rw [nonTerminals, List.map_map]
    exact ((List.mergeSort_perm g.rules _).map _).sum_eq
  have hrules : marks g.spelledRules = (g.nonTerminals.map marks).sum := by
    change marks ('u'.toUInt8 :: 'l'.toUInt8 :: 'e'.toUInt8 :: 's'.toUInt8 :: ':'.toUInt8 ::
      bracketedList (g.sortedRules.map canonicalRule) ++ "\x7d") = _
    simp only [List.cons_append]
    iterate 5 rw [marks_cons_of_ne (by decide)]
    rw [marks_bracketedList_append (marks ·.lhs) opens_canonicalRule, hperm]
    · rfl
    · intro r hr t
      exact marks_canonicalRule_append (hg r ((List.mergeSort_perm g.rules _).mem_iff.1 hr)) t
  have hcanonical : g.canonical = Text.ofString "\x7bOrder:" ++
      (bracketedList (g.nonTerminals.map quotedSymbol) ++
        ','.toUInt8 :: 'R'.toUInt8 :: g.spelledRules) := by
    rw [canonical]
    simp only [List.append_assoc]
    rfl
  rw [hcanonical]
  change marks ('\x7b'.toUInt8 :: 'O'.toUInt8 :: 'r'.toUInt8 :: 'd'.toUInt8 :: 'e'.toUInt8 ::
    'r'.toUInt8 :: ':'.toUInt8 :: (bracketedList (g.nonTerminals.map quotedSymbol) ++ _)) = _
  iterate 7 rw [marks_cons_of_ne (by decide)]
  rw [marks_bracketedList_append marks opens_quotedSymbol _
    fun sym _ => marks_quotedSymbol_append sym, marks, if_pos ⟨rfl, rfl⟩,
    marks_cons_of_ne (by decide), hrules]
  omega

/-- A symbol that goes on where another one ends in its place has taken in a mark, and the
    other one is the last symbol. -/
theorem marks_lt_of_longer {sym more : Symbol} {syms syms' : List Symbol} {t t' : Text}
    (hplain : ¬Text.ofString "\"," <:+: sym ++ more) (hmore : more ≠ [])
    (h : '"'.toUInt8 :: following syms t = more ++ '"'.toUInt8 :: following syms' t') :
    syms = [] ∧ marks sym < marks (sym ++ more) := by
  rcases List.exists_cons_of_ne_nil hmore with ⟨b, s, rfl⟩
  rcases List.cons.inj h with ⟨hquote, h⟩
  rw [← hquote] at hplain ⊢
  cases syms with
  | nil =>
    refine ⟨rfl, ?_⟩
    -- The symbol that goes on cannot end in front of the `R`.
    rcases s with _ | ⟨b₁, s⟩
    · exact absurd (List.cons.inj h).1 (by decide)
    rcases List.cons.inj h with ⟨hb₁, h⟩
    rcases s with _ | ⟨b₂, s⟩
    · exact absurd (List.cons.inj h).1 (by decide)
    rcases List.cons.inj h with ⟨hb₂, h⟩
    rcases s with _ | ⟨b₃, s⟩
    · exact absurd (List.cons.inj h).1 (by decide)
    rcases List.cons.inj h with ⟨hb₃, _⟩
    rw [← hb₁, ← hb₂, ← hb₃, marks_append_quote, marks_cons_of_ne (by decide), marks,
      if_pos ⟨rfl, rfl⟩]
    omega
  | cons next syms =>
    -- Another symbol follows, so the longer one has taken in the comma in front of it.
    rw [following_cons] at h
    rcases s with _ | ⟨b₁, s⟩
    · exact absurd (List.cons.inj h).1 (by decide)
    rw [← (List.cons.inj h).1] at hplain
    exact absurd ⟨sym, s, by rw [List.append_assoc]; rfl⟩ hplain

-- Of different symbols in one place, one goes on where the other one ends.
theorem head_eq_of_marks_eq {sym sym' : Symbol} {syms syms' : List Symbol} {t t' : Text}
    (hplain : ¬Text.ofString "\"," <:+: sym) (hplain' : ¬Text.ofString "\"," <:+: sym')
    (hmarks : ((sym :: syms).map marks).sum = ((sym' :: syms').map marks).sum)
    (h : sym ++ '"'.toUInt8 :: following syms t = sym' ++ '"'.toUInt8 :: following syms' t') :
    sym = sym' := by
  by_contra hne
  simp only [List.map_cons, List.sum_cons] at hmarks
  rcases List.append_eq_append_iff.1 h with ⟨more, rfl, hmore⟩ | ⟨more, rfl, hmore⟩
  · have hlonger : more ≠ [] := by
      rintro rfl
      exact hne (List.append_nil sym).symm
    rcases marks_lt_of_longer hplain' hlonger hmore with ⟨rfl, hlt⟩
    rw [List.map_nil, List.sum_nil] at hmarks
    omega
  · have hlonger : more ≠ [] := by
      rintro rfl
      exact hne (List.append_nil sym')
    rcases marks_lt_of_longer hplain hlonger hmore with ⟨rfl, hlt⟩
    rw [List.map_nil, List.sum_nil] at hmarks
    omega

/-- Orders that are spelled in the same way are the same if no symbol has a quotation mark
    in front of a comma and there are as many marks in one as in the other. -/
theorem eq_of_following_eq {sym sym' : Symbol} {syms syms' : List Symbol} {t t' : Text}
    (hplain : ∀ s ∈ sym :: syms, ¬Text.ofString "\"," <:+: s)
    (hplain' : ∀ s ∈ sym' :: syms', ¬Text.ofString "\"," <:+: s)
    (hmarks : ((sym :: syms).map marks).sum = ((sym' :: syms').map marks).sum)
    (h : sym ++ '"'.toUInt8 :: following syms t = sym' ++ '"'.toUInt8 :: following syms' t') :
    sym :: syms = sym' :: syms' ∧ t = t' := by
  induction syms generalizing sym sym' syms' with
  | nil =>
    rcases head_eq_of_marks_eq (hplain _ List.mem_cons_self) (hplain' _ List.mem_cons_self)
      hmarks h with rfl
    rcases List.cons.inj (List.append_cancel_left h) with ⟨_, h⟩
    cases syms' with
    | nil =>
      rcases List.cons.inj (List.cons.inj (List.cons.inj h).2).2 with ⟨_, ht⟩
      exact ⟨rfl, ht⟩
    | cons next' syms' =>
      rw [following_cons] at h
      exact absurd (List.cons.inj h).1 (by decide)
  | cons next syms ih =>
    rcases head_eq_of_marks_eq (hplain _ List.mem_cons_self) (hplain' _ List.mem_cons_self)
      hmarks h with rfl
    rcases List.cons.inj (List.append_cancel_left h) with ⟨_, h⟩
    cases syms' with
    | nil =>
      rw [following_cons] at h
      exact absurd (List.cons.inj h).1 (by decide)
    | cons next' syms' =>
      rw [following_cons, following_cons] at h
      replace hmarks : ((next :: syms).map marks).sum = ((next' :: syms').map marks).sum :=
        Nat.add_left_cancel hmarks
      rcases ih (List.forall_mem_cons.1 hplain).2 (List.forall_mem_cons.1 hplain').2 hmarks
        (List.cons.inj (List.cons.inj h).2).2 with ⟨hrest, ht⟩
      exact ⟨congrArg (sym :: ·) hrest, ht⟩

-- The rules are sorted by their left-hand sides, in quotation marks.
theorem map_lhs_sortedRules (g : Grammar) :
    g.sortedRules.map (·.lhs) =
      g.nonTerminals.mergeSort fun s t => decide (quotedSymbol s ≤ quotedSymbol t) :=
  List.map_mergeSort fun _ _ _ _ => rfl

theorem lhs_eq_of_mem_zip {rs ss : List Rule} (h : rs.map (·.lhs) = ss.map (·.lhs)) :
    ∀ p ∈ rs.zip ss, p.1.lhs = p.2.lhs := by
  induction rs generalizing ss with
  | nil => exact fun p hp => absurd hp List.not_mem_nil
  | cons r rs ih =>
    cases ss with
    | nil => exact fun p hp => absurd hp List.not_mem_nil
    | cons s ss =>
      rw [List.zip_cons_cons, List.forall_mem_cons]
      exact ⟨(List.cons.inj h).1, ih (List.cons.inj h).2⟩

-- Rules in different orders are the same if their left-hand sides are in the same order.
theorem eq_of_perm_of_map_lhs_eq {rs ss : List Rule} (hperm : rs.Perm ss)
    (h : rs.map (·.lhs) = ss.map (·.lhs)) (hnodup : (ss.map (·.lhs)).Nodup) : rs = ss := by
  have hlength : rs.length = ss.length := hperm.length_eq
  refine List.ext_getElem hlength fun i hi hi' => ?_
  refine List.inj_on_of_nodup_map hnodup (hperm.subset (List.getElem_mem hi))
    (List.getElem_mem hi') ?_
  have hget : (rs.map (·.lhs))[i]? = (ss.map (·.lhs))[i]? := by rw [h]
  rw [List.getElem?_map, List.getElem?_map, List.getElem?_eq_getElem hi,
    List.getElem?_eq_getElem hi'] at hget
  exact Option.some.inj hget

theorem sortedRules_eq_of_perm (h : g₁.rules.Perm g₂.rules) :
    g₁.sortedRules = g₂.sortedRules := by
  have hsorted : ∀ g : Grammar,
      g.sortedRules.Pairwise fun r s => quotedSymbol r.lhs ≤ quotedSymbol s.lhs := by
    intro g
    refine (List.pairwise_mergeSort (fun r s t hrs hst => ?_) (fun r s => ?_) g.rules).imp
      of_decide_eq_true
    · exact decide_eq_true (List.le_trans (of_decide_eq_true hrs) (of_decide_eq_true hst))
    · simpa using List.le_total (quotedSymbol r.lhs) (quotedSymbol s.lhs)
  have hperm : g₁.sortedRules.Perm g₂.sortedRules :=
    ((List.mergeSort_perm _ _).trans h).trans (List.mergeSort_perm _ _).symm
  refine hperm.eq_of_pairwise (fun r s hr hs hrs hsr => ?_) (hsorted g₁) (hsorted g₂)
  -- Two rules of a grammar are the same if they are for the same symbol.
  have hquoted : quotedSymbol r.lhs = quotedSymbol s.lhs := List.le_antisymm hrs hsr
  have hlhs : r.lhs = s.lhs := List.append_cancel_right (List.cons.inj hquoted).2
  exact List.inj_on_of_nodup_map g₂.distinct
    ((List.mergeSort_perm _ _).subset (hperm.subset hr)) ((List.mergeSort_perm _ _).subset hs) hlhs

/-- Rules that are spelled in the same way are the same if they are for the same symbols
    in the same order. -/
theorem rules_eq_of_spelledRules_eq (h₁ : g₁.InCharacters) (h₂ : g₂.InCharacters)
    (hlhs : g₁.nonTerminals = g₂.nonTerminals) (h : g₁.spelledRules = g₂.spelledRules) :
    g₁.rules = g₂.rules := by
  have hperm₁ : g₁.sortedRules.Perm g₁.rules := List.mergeSort_perm _ _
  have hperm₂ : g₂.sortedRules.Perm g₂.rules := List.mergeSort_perm _ _
  have hsorted : g₁.sortedRules = g₂.sortedRules := by
    simp only [spelledRules, List.append_assoc] at h
    refine (tellsApart_bracketedList opens_canonicalRule (fun p hp => ?_) _ _
      (List.append_cancel_left h)).1
    have hmem := List.of_mem_zip hp
    refine tellsApart_canonicalRule (lhs_eq_of_mem_zip ?_ p hp) (h₁ _ (hperm₁.subset hmem.1))
      (h₂ _ (hperm₂.subset hmem.2))
    rw [map_lhs_sortedRules, map_lhs_sortedRules, hlhs]
  refine eq_of_perm_of_map_lhs_eq ?_ hlhs g₂.distinct
  rw [hsorted] at hperm₁
  exact hperm₁.symm.trans hperm₂

/-- Grammars that are spelled in the same way have the same rules if no left-hand side has
    a quotation mark in front of a comma. -/
theorem rules_eq_of_canonical_eq (h₁ : g₁.InCharacters) (h₂ : g₂.InCharacters)
    (hne₁ : g₁.rules ≠ []) (hne₂ : g₂.rules ≠ [])
    (hplain₁ : ∀ sym ∈ g₁.nonTerminals, ¬Text.ofString "\"," <:+: sym)
    (hplain₂ : ∀ sym ∈ g₂.nonTerminals, ¬Text.ofString "\"," <:+: sym)
    (h : g₁.canonical = g₂.canonical) : g₁.rules = g₂.rules := by
  have hmarks : (g₁.nonTerminals.map marks).sum = (g₂.nonTerminals.map marks).sum := by
    have hcount := congrArg marks h
    rw [marks_canonical h₁, marks_canonical h₂] at hcount
    omega
  rcases List.exists_cons_of_ne_nil (mt List.map_eq_nil_iff.1 hne₁) with ⟨sym₁, syms₁, heq₁⟩
  rcases List.exists_cons_of_ne_nil (mt List.map_eq_nil_iff.1 hne₂) with ⟨sym₂, syms₂, heq₂⟩
  change g₁.nonTerminals = _ at heq₁
  change g₂.nonTerminals = _ at heq₂
  rw [canonical_eq_append heq₁, canonical_eq_append heq₂] at h
  rw [heq₁] at hplain₁ hmarks
  rw [heq₂] at hplain₂ hmarks
  rcases eq_of_following_eq hplain₁ hplain₂ hmarks (List.append_cancel_left h) with
    ⟨horder, hrules⟩
  exact rules_eq_of_spelledRules_eq h₁ h₂ (by rw [heq₁, heq₂, horder]) hrules

theorem lhs_of_mem_productions {r : Rule} {p : Production} (h : p ∈ r.productions) :
    p.lhs = r.lhs := by
  rcases List.mem_map.1 h with ⟨q, _, rfl⟩
  rfl

theorem map_rhs_productions (r : Rule) : r.productions.map (·.rhs) = r.alternatives := by
  rw [Rule.productions, List.map_map]
  exact List.zipIdx_map_fst 0 r.alternatives

-- No other rule has productions for the symbol of the first one.
theorem filter_flatMap_productions {r : Rule} {rs : List Rule} (h : r.lhs ∉ rs.map (·.lhs)) :
    ((r :: rs).flatMap Rule.productions).filter (·.lhs = r.lhs) = r.productions := by
  rw [List.flatMap_cons, List.filter_append]
  have hrest : (rs.flatMap Rule.productions).filter (·.lhs = r.lhs) = [] := by
    refine List.filter_eq_nil_iff.2 fun p hp hlhs => h ?_
    rcases List.mem_flatMap.1 hp with ⟨s, hs, hps⟩
    rw [lhs_of_mem_productions hps, decide_eq_true_iff] at hlhs
    exact hlhs ▸ List.mem_map_of_mem hs
  rw [hrest, List.append_nil]
  exact List.filter_eq_self.2 fun p hp => decide_eq_true (lhs_of_mem_productions hp)

theorem rules_eq_of_flatMap_eq {rs ss : List Rule} (hr : (rs.map (·.lhs)).Nodup)
    (hs : (ss.map (·.lhs)).Nodup)
    (h : rs.flatMap Rule.productions = ss.flatMap Rule.productions) : rs = ss := by
  have hne : ∀ r : Rule, r.productions ≠ [] := fun r hnil =>
    r.nonempty (by rw [← map_rhs_productions, hnil]; rfl)
  induction rs generalizing ss with
  | nil =>
    cases ss with
    | nil => rfl
    | cons s ss => exact absurd (List.append_eq_nil_iff.1 h.symm).1 (hne s)
  | cons r rs ih =>
    cases ss with
    | nil => exact absurd (List.append_eq_nil_iff.1 h).1 (hne r)
    | cons s ss =>
      rw [List.map_cons, List.nodup_cons] at hr hs
      -- The first production shows the left-hand side of the first rule.
      have hlhs : r.lhs = s.lhs := by
        rcases List.exists_cons_of_ne_nil (hne r) with ⟨p, ps, hp⟩
        rcases List.exists_cons_of_ne_nil (hne s) with ⟨q, qs, hq⟩
        have hpq : p = q := by
          rw [List.flatMap_cons, List.flatMap_cons, hp, hq] at h
          exact (List.cons.inj h).1
        rw [← lhs_of_mem_productions (hp ▸ List.mem_cons_self : p ∈ r.productions), hpq,
          lhs_of_mem_productions (hq ▸ List.mem_cons_self : q ∈ s.productions)]
      have hfirst : r.productions = s.productions := by
        rw [← filter_flatMap_productions hr.1, h, hlhs, filter_flatMap_productions hs.1]
      have hrule : r = s := Rule.eq_of_alternatives_eq hlhs (by
        rw [← map_rhs_productions, hfirst, map_rhs_productions])
      -- What is left are the productions of the other rules.
      rw [List.flatMap_cons, List.flatMap_cons, hfirst] at h
      rw [hrule, ih hr.2 hs.2 (List.append_cancel_left h)]

theorem rules_eq_of_productions_eq (h : g₁.productions = g₂.productions) :
    g₁.rules = g₂.rules :=
  rules_eq_of_flatMap_eq g₁.distinct g₂.distinct h

theorem canonical_eq_of_rules_eq (h : g₁.rules = g₂.rules) : g₁.canonical = g₂.canonical := by
  simp only [canonical, nonTerminals, sortedRules, h]

/-- Whatever their names, grammars with the same productions in the same order have the same
    fingerprint. If two grammars that have been read from texts are spelled in the same way,
    they have the same non-terminals in the same order, the same start symbol and the same
    alternatives, provided that no left-hand side has a quotation mark in front of a
    comma. -/
theorem canonical_separates {name₁ name₂ text₁ text₂ : Text} (h₁ : load name₁ text₁ = .ok g₁)
    (h₂ : load name₂ text₂ = .ok g₂) :
    (g₁.productions = g₂.productions → g₁.fingerprint = g₂.fingerprint) ∧
      ((∀ sym ∈ g₁.nonTerminals ++ g₂.nonTerminals, ¬Text.ofString "\"," <:+: sym) →
        g₁.canonical = g₂.canonical →
        g₁.nonTerminals = g₂.nonTerminals ∧ g₁.start? = g₂.start? ∧
          ∀ sym, g₁.expansions sym = g₂.expansions sym) := by
  rcases inCharacters_of_load_eq h₁ with ⟨hg₁, hne₁⟩
  rcases inCharacters_of_load_eq h₂ with ⟨hg₂, hne₂⟩
  refine ⟨fun h => ?_, fun hplain h => ?_⟩
  · rw [fingerprint, fingerprint, canonical_eq_of_rules_eq (rules_eq_of_productions_eq h)]
  · rw [List.forall_mem_append] at hplain
    have hrules := rules_eq_of_canonical_eq hg₁ hg₂ hne₁ hne₂ hplain.1 hplain.2 h
    refine ⟨?_, ?_, fun sym => ?_⟩
    · rw [nonTerminals, nonTerminals, hrules]
    · rw [start?, start?, hrules]
    · rw [expansions, expansions, rule?, rule?, hrules]

/-- A grammar with quotation marks and commas in its left-hand sides. -/
def quotes (name : Text) : Grammar :=
  .ofProductions name [("a\"", ["x"]), ("a\"", ["y"]), (",\"b", ["R"])]

/-- The same productions in another order. -/
def swappedQuotes (name : Text) : Grammar :=
  .ofProductions name [(",\"b", ["R"]), ("a\"", ["x"]), ("a\"", ["y"])]

theorem canonical_separates_quotes :
    load "one" "a\" x|y\n,\"b R\n" = .ok (quotes "one") ∧
      load "two" "a\" x\na\" y\n,\"b R\n" = .ok (quotes "two") ∧
      (quotes "one").fingerprint = (quotes "two").fingerprint ∧
      load "three" ",\"b R\na\" x|y\n" = .ok (swappedQuotes "three") ∧
      (quotes "one").canonical ≠ (swappedQuotes "three").canonical := by
  have h₁ : load "one" "a\" x|y\n,\"b R\n" = .ok (quotes "one") := by
    with_unfolding_all rfl
  have h₂ : load "two" "a\" x\na\" y\n,\"b R\n" = .ok (quotes "two") := by
    with_unfolding_all rfl
  have h₃ : load "three" ",\"b R\na\" x|y\n" = .ok (swappedQuotes "three") := by
    with_unfolding_all rfl
  refine ⟨h₁, h₂, (canonical_separates h₁ h₂).1 (by decide +kernel), h₃, fun h => ?_⟩
  have horder := ((canonical_separates h₁ h₃).2 (by decide +kernel) h).1
  exact absurd horder (by decide +kernel)

/-- The order of `a` and `a","a` is spelled like the order of `a","a` and `a`. -/
def shorterFirst : Grammar :=
  .ofProductions "a" [("a", ["x"]), ("a\",\"a", ["y"])]

/-- The same rules the other way round. -/
def longerFirst : Grammar :=
  .ofProductions "b" [("a\",\"a", ["y"]), ("a", ["x"])]

/-- If a left-hand side has a quotation mark in front of a comma, grammars with different
    start symbols may have the same fingerprint. -/
theorem canonical_confuses :
    load "a" "a x\na\",\"a y\n" = .ok shorterFirst ∧
      load "b" "a\",\"a y\na x\n" = .ok longerFirst ∧
      shorterFirst.canonical = longerFirst.canonical ∧
      shorterFirst.fingerprint = longerFirst.fingerprint ∧
      shorterFirst.nonTerminals ≠ longerFirst.nonTerminals ∧
      shorterFirst.start? ≠ longerFirst.start? := by
  have hrules : shorterFirst.rules.Perm longerFirst.rules := by decide
  have horder : bracketedList (shorterFirst.nonTerminals.map quotedSymbol) =
      bracketedList (longerFirst.nonTerminals.map quotedSymbol) := by
    decide
  have hcanonical : shorterFirst.canonical = longerFirst.canonical := by
    rw [canonical, canonical, sortedRules_eq_of_perm hrules, horder]
  exact ⟨by with_unfolding_all rfl, by with_unfolding_all rfl, hcanonical,
    by rw [fingerprint, fingerprint, hcanonical], by decide, by decide⟩

end Grammar

end Derivations
