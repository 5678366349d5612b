import Derivations.Grammar.File.Load
import Derivations.Grammar.Fingerprint
import Derivations.Proofs.Grammar.Derivation
import Derivations.Proofs.Text.Characters
import Mathlib.Data.List.Induction

/-!
# Reading Back What Is Spelled Out

A text that spells something out can be read back if it is known where it ends, whatever
stands behind it. Then two things with different spellings are told apart at the front of
any text.

A symbol between quotation marks is told apart from others if it is a single character,
as all symbols are on the right-hand sides in a grammar file. A character is a byte below
128 or a run of bytes from there on, and the quotation mark behind it is below 128, so it
ends the run; a quotation mark that is the character itself stands in the first place, where
the closing one cannot be. Sequences are told apart if their members are, as a comma or a
closing bracket follows every member, and no member begins with a closing bracket. So the
alternatives of a rule are told apart from those of any other rule.

## Main definitions

* `TellsApart`: What is spelled out can be told from another thing, whatever follows.
* `Grammar.InCharacters`: All symbols on right-hand sides are characters.

## Theorems

* `Grammar.tellsApart_bracketedList`: Sequences are told apart if their members are.
* `Grammar.tellsApart_canonicalRule`: Rules for one symbol are told apart by their
  alternatives.
* `Grammar.exists_symbols_of_load_eq`, `Grammar.inCharacters_of_load_eq`: A grammar file has
  words on the right, and so characters.
-/

namespace Derivations

/-- The spellings of two things at the front of any texts tell whether they are the same,
    and what stands behind them. -/
def TellsApart {α : Type u} (spell : α → Text) (a b : α) : Prop :=
  ∀ r r' : Text, spell a ++ r = spell b ++ r' → a = b ∧ r = r'

/-- All spellings begin with a quotation mark or an opening bracket. -/
def Opens {α : Type u} (spell : α → Text) : Prop :=
  ∀ a, ∃ b rest, spell a = b :: rest ∧ (b = '"'.toUInt8 ∨ b = '['.toUInt8)

namespace Text

-- A run of bytes from 128 on ends where a byte below 128 follows.
theorem takeWhile_append_quote {t : Text} (h : ∀ b ∈ t, 128 ≤ b) (r : Text) :
    (t ++ '"'.toUInt8 :: r).takeWhile (128 ≤ ·) = t := by
  rw [List.takeWhile_append_of_pos fun b hb => decide_eq_true (h b hb), List.takeWhile_cons,
    if_neg (by decide), List.append_nil]

theorem IsCharacter.eq_of_append_quote {s t : Text} (hs : s.IsCharacter) (ht : t.IsCharacter)
    {r r' : Text} (h : s ++ '"'.toUInt8 :: r = t ++ '"'.toUInt8 :: r') : s = t := by
  rcases hs with ⟨b, hb, rfl⟩ | ⟨hs, hhigh⟩
  · rcases ht with ⟨c, _, rfl⟩ | ⟨ht, hhigh'⟩
    · rw [(List.cons.inj h).1]
    · -- The first byte cannot be below 128 and not below it.
      rcases List.exists_cons_of_ne_nil ht with ⟨c, rest, rfl⟩
      rw [(List.cons.inj h).1, ← UInt8.not_le] at hb
      exact absurd (hhigh' c List.mem_cons_self) hb
  · rcases ht with ⟨c, hc, rfl⟩ | ⟨_, hhigh'⟩
    · rcases List.exists_cons_of_ne_nil hs with ⟨b, rest, rfl⟩
      rw [← (List.cons.inj h).1, ← UInt8.not_le] at hc
      exact absurd (hhigh b List.mem_cons_self) hc
    · -- Both runs end at the first byte below 128.
      rw [← takeWhile_append_quote hhigh r, h, takeWhile_append_quote hhigh' r']

end Text

theorem Rule.eq_of_alternatives_eq {r s : Rule} (hlhs : r.lhs = s.lhs)
    (h : r.alternatives = s.alternatives) : r = s := by
  rcases r with ⟨lhs, alternatives, _⟩
  rcases s with ⟨lhs', alternatives', _⟩
  cases hlhs
  cases h
  rfl

namespace Grammar

/-- Every symbol on a right-hand side is a single character. -/
def InCharacters (g : Grammar) : Prop :=
  ∀ r ∈ g.rules, ∀ rhs ∈ r.alternatives, ∀ sym ∈ rhs, Text.IsCharacter sym

/-- The alternatives of a rule, spelled out. -/
def spelledAlternatives (alternatives : List (List Symbol)) : Text :=
  bracketedList (alternatives.map fun rhs => bracketedList (rhs.map quotedSymbol))

theorem quotedSymbol_append (sym : Symbol) (r : Text) :
    quotedSymbol sym ++ r = '"'.toUInt8 :: (sym ++ '"'.toUInt8 :: r) := by
  change '"'.toUInt8 :: sym ++ ['"'.toUInt8] ++ r = _
  rw [List.append_assoc]
  rfl

theorem bracketedList_nil_append (r : Text) :
    bracketedList [] ++ r = '['.toUInt8 :: ']'.toUInt8 :: r :=
  rfl

-- Every member of a sequence but the first one has the separator in front.
theorem intercalate_cons (separator part : Text) (parts : List Text) :
    List.intercalate separator (part :: parts) = part ++ parts.flatMap (separator ++ ·) := by
  induction parts generalizing part with
  | nil => rw [List.intercalate_singleton, List.flatMap_nil, List.append_nil]
  | cons next parts ih =>
    rw [List.intercalate_cons_cons, ih, List.flatMap_cons]
    simp only [List.append_assoc]

theorem bracketedList_cons_append (part : Text) (parts : List Text) (r : Text) :
    bracketedList (part :: parts) ++ r =
      '['.toUInt8 :: (part ++ (parts.flatMap (','.toUInt8 :: ·) ++ ']'.toUInt8 :: r)) := by
  rw [bracketedList, intercalate_cons]
  change '['.toUInt8 :: (part ++ parts.flatMap (','.toUInt8 :: ·)) ++ [']'.toUInt8] ++ r = _
  simp only [List.append_assoc, List.cons_append, List.nil_append]

theorem canonicalRule_append (r : Rule) (t : Text) :
    canonicalRule r ++ t =
      '"'.toUInt8 :: (r.lhs ++ '"'.toUInt8 :: ':'.toUInt8 ::
        (spelledAlternatives r.alternatives ++ t)) := by
  rw [canonicalRule, List.append_assoc, List.append_assoc, quotedSymbol_append]
  rfl

theorem opens_quotedSymbol : Opens quotedSymbol := fun _ =>
  ⟨_, _, rfl, Or.inl rfl⟩

theorem opens_bracketedList {α : Type u} (spell : α → Text) :
    Opens fun as : List α => bracketedList (as.map spell) := fun _ =>
  ⟨_, _, rfl, Or.inr rfl⟩

theorem opens_canonicalRule : Opens canonicalRule := fun _ =>
  ⟨_, _, rfl, Or.inl rfl⟩

section

variable {α : Type u} {spell : α → Text}

-- Behind the first member, a comma says that there is one more, and a bracket that there
-- is none.
theorem eq_of_flatMap_append {as bs : List α} {r r' : Text}
    (happart : ∀ p ∈ as.zip bs, TellsApart spell p.1 p.2)
    (h : (as.map spell).flatMap (','.toUInt8 :: ·) ++ ']'.toUInt8 :: r =
      (bs.map spell).flatMap (','.toUInt8 :: ·) ++ ']'.toUInt8 :: r') : as = bs ∧ r = r' := by
  induction as generalizing bs with
  | nil =>
    cases bs with
    | nil => exact ⟨rfl, (List.cons.inj h).2⟩
    | cons b bs => exact absurd (List.cons.inj h).1 (by decide)
  | cons a as ih =>
    cases bs with
    | nil => exact absurd (List.cons.inj h).1 (by decide)
    | cons b bs =>
      rw [List.zip_cons_cons, List.forall_mem_cons] at happart
      simp only [List.map_cons, List.flatMap_cons, List.append_assoc, List.cons_append] at h
      rcases happart.1 _ _ (List.cons.inj h).2 with ⟨hab, hrest⟩
      rcases ih happart.2 hrest with ⟨htail, hr⟩
      exact ⟨by rw [show a = b from hab, htail], hr⟩

/-- Sequences are told apart if their members are, place by place. -/
theorem tellsApart_bracketedList (hopens : Opens spell) {as bs : List α}
    (happart : ∀ p ∈ as.zip bs, TellsApart spell p.1 p.2) :
    TellsApart (fun as => bracketedList (as.map spell)) as bs := by
  -- No member begins with the bracket that closes an empty sequence.
  have hclose : ∀ (a : α) (s t : Text), spell a ++ s ≠ ']'.toUInt8 :: t := by
    intro a s t h
    rcases hopens a with ⟨b, rest, hb, hopen⟩
    rw [hb] at h
    rw [(List.cons.inj h).1] at hopen
    exact absurd hopen (by decide)
  intro r r' h
  cases as with
  | nil =>
    cases bs with
    | nil => exact ⟨rfl, (List.cons.inj (List.cons.inj h).2).2⟩
    | cons b bs =>
      simp only [List.map_nil, List.map_cons, bracketedList_nil_append,
        bracketedList_cons_append] at h
      exact absurd (List.cons.inj h).2.symm (hclose b _ _)
  | cons a as =>
    cases bs with
    | nil =>
      simp only [List.map_nil, List.map_cons, bracketedList_nil_append,
        bracketedList_cons_append] at h
      exact absurd (List.cons.inj h).2 (hclose a _ _)
    | cons b bs =>
      rw [List.zip_cons_cons, List.forall_mem_cons] at happart
      simp only [List.map_cons, bracketedList_cons_append] at h
      rcases happart.1 _ _ (List.cons.inj h).2 with ⟨hab, hrest⟩
      rcases eq_of_flatMap_append happart.2 hrest with ⟨htail, hr⟩
      exact ⟨by rw [show a = b from hab, htail], hr⟩

end

theorem tellsApart_quotedSymbol {s t : Symbol} (hs : Text.IsCharacter s)
    (ht : Text.IsCharacter t) : TellsApart quotedSymbol s t := by
  intro r r' h
  rw [quotedSymbol_append, quotedSymbol_append] at h
  have hsym : s = t := hs.eq_of_append_quote ht (List.cons.inj h).2
  refine ⟨hsym, ?_⟩
  rw [hsym, List.cons.injEq, List.append_right_inj, List.cons.injEq] at h
  exact h.2.2

theorem tellsApart_spelledAlternatives {as bs : List (List Symbol)}
    (ha : ∀ rhs ∈ as, ∀ sym ∈ rhs, Text.IsCharacter sym)
    (hb : ∀ rhs ∈ bs, ∀ sym ∈ rhs, Text.IsCharacter sym) :
    TellsApart spelledAlternatives as bs := by
  refine tellsApart_bracketedList (opens_bracketedList quotedSymbol) fun p hp => ?_
  -- The members are sequences themselves, with symbols as members.
  have hmem := List.of_mem_zip hp
  refine tellsApart_bracketedList opens_quotedSymbol fun q hq => ?_
  have hmem' := List.of_mem_zip hq
  exact tellsApart_quotedSymbol (ha _ hmem.1 _ hmem'.1) (hb _ hmem.2 _ hmem'.2)

/-- Rules for one symbol are told apart by their alternatives. -/
theorem tellsApart_canonicalRule {r s : Rule} (hlhs : r.lhs = s.lhs)
    (hr : ∀ rhs ∈ r.alternatives, ∀ sym ∈ rhs, Text.IsCharacter sym)
    (hs : ∀ rhs ∈ s.alternatives, ∀ sym ∈ rhs, Text.IsCharacter sym) :
    TellsApart canonicalRule r s := by
  intro t t' h
  simp only [canonicalRule_append, hlhs, List.cons.injEq, List.append_right_inj, true_and] at h
  rcases tellsApart_spelledAlternatives hr hs _ _ h with ⟨halternatives, hrest⟩
  exact ⟨Rule.eq_of_alternatives_eq hlhs halternatives, hrest⟩

/-- What a symbol can be replaced by has been given to it in a production. -/
theorem mem_of_mem_expansions_ofProductions {name : Text} {ps : List (Symbol × List Symbol)}
    {sym : Symbol} {rhs : List Symbol} (h : rhs ∈ (ofProductions name ps).expansions sym) :
    (sym, rhs) ∈ ps := by
  -- Induction from the end, as the last production is added last.
  induction ps using List.reverseRecOn with
  | nil => exact absurd h List.not_mem_nil
  | append_singleton ps p ih =>
    rw [ofProductions, List.foldl_append, List.foldl_cons, List.foldl_nil, expansions_add] at h
    rw [List.mem_append]
    split at h
    · rename_i hsym
      rcases List.mem_append.1 h with h | h
      · exact Or.inl (ih (by rw [hsym]; exact h))
      · rw [List.mem_singleton] at h ⊢
        rw [hsym, h]
        exact Or.inr rfl
    · exact Or.inl (ih h)

theorem isCharacter_of_mem_symbols {word : Text} {sym : Symbol} (h : sym ∈ symbols word) :
    Text.IsCharacter sym :=
  Text.isCharacter_of_count_eq_one (not_blank_of_mem_symbols h).1

-- The right-hand sides on a line are cut into symbols.
theorem exists_symbols_of_read_eq {ts : List Token} {line : Line} (h : Line.read ts = .ok line)
    {p : Symbol × List Symbol} (hp : p ∈ line.productions) : ∃ word, p.2 = symbols word := by
  cases line with
  | blank => exact absurd hp List.not_mem_nil
  | bare lhs => exact absurd hp List.not_mem_nil
  | rule lhs alternatives =>
    rcases List.mem_map.1 hp with ⟨rhs, hrhs, rfl⟩
    -- Only the last way through the reading of a line comes to a rule.
    unfold Line.read at h
    split at h
    · cases h
    · split at h
      · cases h
      · split at h
        · cases h
        · split at h
          · cases h
          · cases h
            rcases List.mem_map.1 hrhs with ⟨part, _, rfl⟩
            exact ⟨_, rfl⟩

theorem exists_symbols_of_mem_productions {groups : List (List Token)}
    {p : Symbol × List Symbol} (hp : p ∈ (Reading.ofLines groups).productions) :
    ∃ word, p.2 = symbols word := by
  induction groups with
  | nil => exact absurd hp List.not_mem_nil
  | cons ts rest ih =>
    unfold Reading.ofLines at hp
    cases hline : Line.read ts with
    | error fault =>
      rw [hline] at hp
      exact absurd hp List.not_mem_nil
    | ok line =>
      rw [hline] at hp
      rcases List.mem_append.1 hp with hp | hp
      · exact exists_symbols_of_read_eq hline hp
      · exact ih hp

/-- In a grammar that has been read from a text, the right-hand sides are the symbols of
    words, and there is a rule. -/
theorem exists_symbols_of_load_eq {name text : Text} {g : Grammar} (h : load name text = .ok g) :
    (∀ r ∈ g.rules, ∀ rhs ∈ r.alternatives, ∃ word, rhs = symbols word) ∧ g.rules ≠ [] := by
  cases hfault : (Reading.ofText text).fault? with
  | some fault =>
    simp only [load, hfault] at h
    cases h
  | none =>
    simp only [load, hfault] at h
    split at h
    · cases h
    · rename_i hstart
      cases h
      refine ⟨fun r hr rhs hrhs => ?_, fun hrules => hstart (by rw [start?, hrules]; rfl)⟩
      rw [← expansions_eq_of_mem_rules hr] at hrhs
      exact exists_symbols_of_mem_productions (mem_of_mem_expansions_ofProductions hrhs)

/-- In a grammar that has been read from a text, there are characters on the right-hand
    sides, and there is a rule. -/
theorem inCharacters_of_load_eq {name text : Text} {g : Grammar} (h : load name text = .ok g) :
    g.InCharacters ∧ g.rules ≠ [] := by
  refine ⟨fun r hr rhs hrhs sym hsym => ?_, (exists_symbols_of_load_eq h).2⟩
  rcases (exists_symbols_of_load_eq h).1 r hr rhs hrhs with ⟨word, rfl⟩
  exact isCharacter_of_mem_symbols hsym

end Grammar

end Derivations
