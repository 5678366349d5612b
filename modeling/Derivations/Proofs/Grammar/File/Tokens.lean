import Derivations.Grammar.File.Line
import Mathlib.Data.List.Chain
import Mathlib.Data.List.DropRight

/-!
# What Tokens Look Like

The tokens of a text are pieces of it, and the pieces tell by their bytes what kind they
are: words and white space have bytes of one class only, a bar is a bar, and a line end
is a line feed, with or without a carriage return in front. Words and white space extend
as far as they can, so no two words stand side by side, and no two pieces of white space
do. This is all that reading a line has to know about how tokens are found.

A carriage return is what makes this less than obvious. It belongs to a line end if a
token begins with it and a line feed follows, and to white space otherwise, so the same
two bytes can be one token or parts of two. In a text cut at its line feeds, the lines of
tokens therefore spell the lines of the text up to a carriage return at the end.

## Main definitions

* `TokenKind.Suits`: The bytes of a token are those of its kind.
* `TokenKind.Apart`: Two tokens may stand side by side.
* `Line.Spells`, `Line.AllSpell`: Tokens spell a line of a text, and all of its lines.

## Theorems

* `Token.measure_cases`: Which token begins at a byte.
* `Token.suits_of_mem_cut`, `Token.isChain_cut`: The pieces of a text suit their kinds
  and keep apart.
* `Line.allSpell_split`: The lines of tokens spell the lines of the text.
* `Line.map_splitAt_bar`: The parts between bars spell the parts of the text between
  bars.
-/

namespace Derivations

namespace TokenKind

/-- The bytes of a token are those of its kind. -/
def Suits : TokenKind → Text → Prop
  | word, t => t ≠ [] ∧ ∀ b ∈ t, Token.isWord b = true
  | space, t => t ≠ [] ∧ ∀ b ∈ t, Token.isSpace b = true
  | bar, t => t = ['|'.toUInt8]
  | newline, t => t = ['\n'.toUInt8] ∨ t = ['\r'.toUInt8, '\n'.toUInt8]

/-- Two tokens may stand side by side: they are not both words, nor both white space. -/
def Apart (k l : TokenKind) : Prop :=
  k = l → k ≠ word ∧ k ≠ space

end TokenKind

namespace Token

open TokenKind (Suits Apart)

-- The three classes of bytes: white space, marks, and whatever words are made of.
theorem isSpace_of_isWord {b : UInt8} (h : isWord b = true) : isSpace b = false := by
  unfold isWord at h
  simp only [Bool.not_eq_true', Bool.or_eq_false_iff] at h
  exact h.1

theorem isMark_of_isWord {b : UInt8} (h : isWord b = true) : isMark b = false := by
  unfold isWord at h
  simp only [Bool.not_eq_true', Bool.or_eq_false_iff] at h
  exact h.2

/-- Which token begins at a byte, and how far it extends. -/
theorem measure_cases (first : UInt8) (rest : Text) :
    (first = '\n'.toUInt8 ∧ measure first rest = (.newline, 0)) ∨
    (first = '\r'.toUInt8 ∧ (∃ more, rest = '\n'.toUInt8 :: more) ∧
      measure first rest = (.newline, 1)) ∨
    (isSpace first = true ∧ measure first rest = (.space, (rest.takeWhile isSpace).length)) ∨
    (first = '|'.toUInt8 ∧ measure first rest = (.bar, 0)) ∨
    (isWord first = true ∧ measure first rest = (.word, (rest.takeWhile isWord).length)) := by
  unfold measure
  by_cases hnewline : first = '\n'.toUInt8
  · exact Or.inl ⟨hnewline, if_pos hnewline⟩
  rw [if_neg hnewline]
  by_cases hreturn : (first = '\r'.toUInt8 && rest.head? == some '\n'.toUInt8) = true
  · rw [if_pos hreturn]
    simp only [Bool.and_eq_true, decide_eq_true_eq, beq_iff_eq, List.head?_eq_some_iff] at hreturn
    exact Or.inr (Or.inl ⟨hreturn.1, hreturn.2, rfl⟩)
  rw [if_neg hreturn]
  by_cases hspace : isSpace first = true
  · exact Or.inr (Or.inr (Or.inl ⟨hspace, if_pos hspace⟩))
  rw [if_neg hspace]
  by_cases hbar : first = '|'.toUInt8
  · exact Or.inr (Or.inr (Or.inr (Or.inl ⟨hbar, if_pos hbar⟩)))
  rw [if_neg hbar]
  refine Or.inr (Or.inr (Or.inr (Or.inr ⟨?_, rfl⟩)))
  simp [isWord, isMark, hspace, hnewline, hbar]

theorem take_length_takeWhile (p : UInt8 → Bool) (t : Text) :
    t.take (t.takeWhile p).length = t.takeWhile p :=
  (List.prefix_iff_eq_take.1 (List.takeWhile_prefix p)).symm

theorem drop_length_takeWhile (p : UInt8 → Bool) (t : Text) :
    t.drop (t.takeWhile p).length = t.dropWhile p := by
  have hsplit : t.takeWhile p ++ t.dropWhile p = t := List.takeWhile_append_dropWhile
  calc t.drop (t.takeWhile p).length
      = (t.takeWhile p ++ t.dropWhile p).drop (t.takeWhile p).length := by rw [hsplit]
    _ = t.dropWhile p := List.drop_left

theorem suits_of_mem_cut (t : Text) : ∀ p ∈ t.cut measure, Suits p.1 p.2 := by
  induction t using Text.cut_induction measure with
  | nil => exact fun p hp => absurd hp List.not_mem_nil
  | cons first rest ih =>
    rw [Text.cut_cons]
    intro p hp
    rcases List.mem_cons.1 hp with rfl | hp
    · rcases measure_cases first rest with
        ⟨hfirst, h⟩ | ⟨hfirst, ⟨more, hrest⟩, h⟩ | ⟨hfirst, h⟩ | ⟨hfirst, h⟩ | ⟨hfirst, h⟩ <;>
        rw [h]
      · exact Or.inl (by rw [hfirst, List.take_zero])
      · exact Or.inr (by rw [hfirst, hrest, List.take_succ_cons, List.take_zero])
      · rw [take_length_takeWhile]
        exact ⟨List.cons_ne_nil _ _, List.forall_mem_cons.2 ⟨hfirst, fun b hb =>
          List.mem_takeWhile_imp hb⟩⟩
      · simp only [Suits, hfirst, List.take_zero]
      · rw [take_length_takeWhile]
        exact ⟨List.cons_ne_nil _ _, List.forall_mem_cons.2 ⟨hfirst, fun b hb =>
          List.mem_takeWhile_imp hb⟩⟩
    · exact ih p hp

-- Behind bytes of a class that has been exhausted, no token begins with such a byte.
theorem head?_map_cut_dropWhile (p : UInt8 → Bool) (kind : TokenKind) (t : Text)
    (h : ∀ first rest, (measure first rest).1 = kind → p first = true) :
    ∀ k ∈ ((Text.cut measure (t.dropWhile p)).map (·.1)).head?, k ≠ kind := by
  intro k hk hkind
  have hnot := List.head?_dropWhile_not p t
  cases hdrop : t.dropWhile p with
  | nil =>
    rw [hdrop] at hk
    exact absurd hk (by simp [Text.cut, Text.cutAfter])
  | cons first rest =>
    rw [hdrop, Text.cut_cons, List.map_cons, List.head?_cons, Option.mem_some_iff] at hk
    rw [hdrop] at hnot
    have hfalse : p first = false := hnot
    rw [h first rest (hk.trans hkind)] at hfalse
    exact absurd hfalse.symm Bool.false_ne_true

theorem isSpace_of_measure_eq {first : UInt8} {rest : Text}
    (h : (measure first rest).1 = .space) : isSpace first = true := by
  rcases measure_cases first rest with
    ⟨_, hm⟩ | ⟨_, _, hm⟩ | ⟨hfirst, _⟩ | ⟨_, hm⟩ | ⟨_, hm⟩
  case inr.inr.inl => exact hfirst
  all_goals
    rw [hm] at h
    exact TokenKind.noConfusion h

theorem isWord_of_measure_eq {first : UInt8} {rest : Text}
    (h : (measure first rest).1 = .word) : isWord first = true := by
  rcases measure_cases first rest with
    ⟨_, hm⟩ | ⟨_, _, hm⟩ | ⟨_, hm⟩ | ⟨_, hm⟩ | ⟨hfirst, _⟩
  case inr.inr.inr.inr => exact hfirst
  all_goals
    rw [hm] at h
    exact TokenKind.noConfusion h

theorem isChain_cut (t : Text) : ((t.cut measure).map (·.1)).IsChain Apart := by
  induction t using Text.cut_induction measure with
  | nil => exact List.isChain_nil
  | cons first rest ih =>
    rw [Text.cut_cons, List.map_cons, List.isChain_cons]
    refine ⟨fun k hk => ?_, ih⟩
    -- Only where a word or white space ends is there something to show.
    rcases measure_cases first rest with ⟨_, h⟩ | ⟨_, _, h⟩ | ⟨_, h⟩ | ⟨_, h⟩ | ⟨_, h⟩ <;>
      rw [h] at hk ⊢
    · exact fun _ => ⟨TokenKind.noConfusion, TokenKind.noConfusion⟩
    · exact fun _ => ⟨TokenKind.noConfusion, TokenKind.noConfusion⟩
    · rw [drop_length_takeWhile] at hk
      exact fun he => absurd he.symm
        (head?_map_cut_dropWhile isSpace .space rest (fun _ _ => isSpace_of_measure_eq) k hk)
    · exact fun _ => ⟨TokenKind.noConfusion, TokenKind.noConfusion⟩
    · rw [drop_length_takeWhile] at hk
      exact fun he => absurd he.symm
        (head?_map_cut_dropWhile isWord .word rest (fun _ _ => isWord_of_measure_eq) k hk)

theorem map_kind_locate (l : Location) (pieces : List (TokenKind × Text)) :
    (locate l pieces).map (·.kind) = pieces.map (·.1) := by
  induction pieces generalizing l with
  | nil => rfl
  | cons p pieces ih => rw [locate, List.map_cons, List.map_cons, ih]

/-- No two tokens of a text are side by side that could be one. -/
theorem isChain_scan (t : Text) : ((scan t).map (·.kind)).IsChain Apart := by
  rw [scan, map_kind_locate]
  exact isChain_cut t

end Token

namespace Location

-- Only line feeds begin a line.
theorem line_pastAll {t : Text} (h : ∀ b ∈ t, b ≠ '\n'.toUInt8) (l : Location) :
    (l.pastAll t).line = l.line := by
  unfold pastAll
  induction t generalizing l with
  | nil => rfl
  | cons b t ih =>
    rw [List.foldl_cons, ih (fun c hc => h c (List.mem_cons_of_mem b hc)), past,
      if_neg (h b List.mem_cons_self)]

end Location

namespace TokenKind

theorem Suits.ne_newline {kind : TokenKind} {t : Text} (h : Suits kind t) (hk : kind ≠ .newline) :
    ∀ b ∈ t, b ≠ '\n'.toUInt8 := by
  rintro b hb rfl
  cases kind with
  | word => exact absurd (h.2 _ hb) (by decide)
  | space => exact absurd (h.2 _ hb) (by decide)
  | bar =>
    rw [show t = ['|'.toUInt8] from h] at hb
    exact absurd hb (by decide)
  | newline => exact hk rfl

theorem Suits.ne_bar {kind : TokenKind} {t : Text} (h : Suits kind t) (hk : kind ≠ .bar)
    (hk' : kind ≠ .newline) : ∀ b ∈ t, b ≠ '|'.toUInt8 := by
  rintro b hb rfl
  cases kind with
  | word => exact absurd (h.2 _ hb) (by decide)
  | space => exact absurd (h.2 _ hb) (by decide)
  | bar => exact hk rfl
  | newline => exact hk' rfl

end TokenKind

namespace Text

theorem exists_splitAt_eq_cons (mark : UInt8) (t : Text) :
    ∃ part parts, splitAt mark t = part :: parts := by
  cases t with
  | nil => exact ⟨_, _, rfl⟩
  | cons b t =>
    unfold splitAt
    split
    · exact ⟨_, _, rfl⟩
    · split <;> exact ⟨_, _, rfl⟩

theorem splitAt_cons_self (mark : UInt8) (t : Text) :
    splitAt mark (mark :: t) = [] :: splitAt mark t := by
  rw [splitAt, if_pos rfl]

-- What stands in front of the first mark belongs to the first part.
theorem splitAt_append {mark : UInt8} {s t part : Text} {parts : List Text}
    (hs : ∀ b ∈ s, b ≠ mark) (ht : splitAt mark t = part :: parts) :
    splitAt mark (s ++ t) = (s ++ part) :: parts := by
  induction s with
  | nil => exact ht
  | cons b s ih =>
    rw [List.cons_append, splitAt, if_neg (hs b List.mem_cons_self),
      ih fun c hc => hs c (List.mem_cons_of_mem b hc)]
    rfl

end Text

namespace Line

open TokenKind (Suits Apart)

theorem exists_splitAt_eq_cons (kind : TokenKind) (ts : List Token) :
    ∃ part parts, splitAt kind ts = part :: parts := by
  cases ts with
  | nil => exact ⟨_, _, rfl⟩
  | cons t ts =>
    unfold splitAt
    split
    · exact ⟨_, _, rfl⟩
    · split <;> exact ⟨_, _, rfl⟩

theorem splitAt_cons_of_ne {kind : TokenKind} {t : Token} {ts part : List Token}
    {parts : List (List Token)} (ht : t.kind ≠ kind) (hts : splitAt kind ts = part :: parts) :
    splitAt kind (t :: ts) = (t :: part) :: parts := by
  rw [splitAt, if_neg ht, hts]

theorem isPrefix_of_splitAt {kind : TokenKind} {ts part : List Token} {parts : List (List Token)}
    (h : splitAt kind ts = part :: parts) : part <+: ts := by
  induction ts generalizing part parts with
  | nil =>
    cases h
    exact List.prefix_refl _
  | cons t ts ih =>
    by_cases ht : t.kind = kind
    · rw [splitAt, if_pos ht] at h
      rw [← (List.cons.inj h).1]
      exact List.nil_prefix
    · rcases exists_splitAt_eq_cons kind ts with ⟨rest, parts', hts⟩
      rw [splitAt_cons_of_ne ht hts] at h
      rw [← (List.cons.inj h).1]
      exact List.cons_prefix_cons.2 ⟨rfl, ih hts⟩

/-- The parts of a sequence of tokens are runs of it. -/
theorem isInfix_of_mem_splitAt {kind : TokenKind} {ts part : List Token}
    (h : part ∈ splitAt kind ts) : part <:+: ts := by
  induction ts generalizing part with
  | nil =>
    rw [splitAt, List.mem_singleton] at h
    subst h
    exact List.infix_refl _
  | cons t ts ih =>
    rcases exists_splitAt_eq_cons kind ts with ⟨rest, parts, hts⟩
    by_cases ht : t.kind = kind
    · rw [splitAt, if_pos ht] at h
      rcases List.mem_cons.1 h with rfl | h
      · exact List.nil_infix
      · exact (ih h).trans (List.suffix_cons t ts).isInfix
    · rw [splitAt_cons_of_ne ht hts] at h
      rcases List.mem_cons.1 h with rfl | h
      · exact (List.cons_prefix_cons.2 ⟨rfl, isPrefix_of_splitAt hts⟩).isInfix
      · refine (ih ?_).trans (List.suffix_cons t ts).isInfix
        rw [hts]
        exact List.mem_cons_of_mem rest h

/-- The tokens spell the line with the given number, without the carriage return of its
    line end, and none of them is a line end. -/
structure Spells (n : Nat) (line : Text) (ts : List Token) : Prop where
  text : line = ts.flatMap (·.lexeme) ∨ line = ts.flatMap (·.lexeme) ++ ['\r'.toUInt8]
  number : ∀ t ∈ ts, t.location.line = n
  suits : ∀ t ∈ ts, Suits t.kind t.lexeme ∧ t.kind ≠ .newline

/-- The lines of tokens spell lines that are numbered from the given number on. -/
inductive AllSpell : Nat → List Text → List (List Token) → Prop
  | nil {n : Nat} : AllSpell n [] []
  | cons {n : Nat} {line : Text} {lines : List Text} {ts : List Token} {groups : List (List Token)}
      (first : Spells n line ts) (others : AllSpell (n + 1) lines groups) :
      AllSpell n (line :: lines) (ts :: groups)

theorem spells_nil (n : Nat) : Spells n [] [] :=
  ⟨Or.inl rfl, fun _ h => absurd h List.not_mem_nil, fun _ h => absurd h List.not_mem_nil⟩

theorem spells_return (n : Nat) : Spells n ['\r'.toUInt8] [] :=
  ⟨Or.inr rfl, fun _ h => absurd h List.not_mem_nil, fun _ h => absurd h List.not_mem_nil⟩

-- A token that ends no line is put in front of a line and belongs to it.
theorem Spells.cons {n : Nat} {line : Text} {ts : List Token} (h : Spells n line ts) {t : Token}
    (hn : t.location.line = n) (hs : Suits t.kind t.lexeme) (hk : t.kind ≠ .newline) :
    Spells n (t.lexeme ++ line) (t :: ts) := by
  refine ⟨?_, List.forall_mem_cons.2 ⟨hn, h.number⟩, List.forall_mem_cons.2 ⟨⟨hs, hk⟩, h.suits⟩⟩
  rw [List.flatMap_cons]
  rcases h.text with ht | ht
  · exact Or.inl (by rw [← ht])
  · exact Or.inr (by rw [List.append_assoc, ← ht])

theorem allSpell_splitAt (l : Location) (pieces : List (TokenKind × Text))
    (h : ∀ p ∈ pieces, Suits p.1 p.2) :
    AllSpell l.line (Text.splitAt '\n'.toUInt8 (pieces.flatMap (·.2)))
      (splitAt .newline (Token.locate l pieces)) := by
  induction pieces generalizing l with
  | nil => exact .cons (spells_nil l.line) .nil
  | cons p pieces ih =>
    rcases p with ⟨kind, lexeme⟩
    have hsuits : Suits kind lexeme := h _ List.mem_cons_self
    have hrest := ih (l.pastAll lexeme) fun q hq => h q (List.mem_cons_of_mem _ hq)
    rw [List.flatMap_cons, Token.locate]
    by_cases hk : kind = .newline
    · -- A line ends here, with or without a carriage return.
      subst hk
      rw [splitAt, if_pos rfl]
      rcases hsuits with rfl | rfl
      · rw [List.singleton_append, Text.splitAt_cons_self]
        exact .cons (spells_nil l.line) hrest
      · rw [List.cons_append, List.singleton_append, Text.splitAt,
          if_neg (by decide), Text.splitAt_cons_self]
        exact .cons (spells_return l.line) hrest
    · have hnone := hsuits.ne_newline hk
      rcases Text.exists_splitAt_eq_cons '\n'.toUInt8 (pieces.flatMap (·.2)) with
        ⟨line, lines, hlines⟩
      rcases exists_splitAt_eq_cons .newline (Token.locate (l.pastAll lexeme) pieces) with
        ⟨ts, groups, hgroups⟩
      rw [hlines, hgroups, Location.line_pastAll hnone] at hrest
      rw [Text.splitAt_append hnone hlines, splitAt_cons_of_ne hk hgroups]
      cases hrest with
      | cons first others =>
        have hfirst : (l.pastAll (lexeme.take 1)).line = l.line :=
          Location.line_pastAll (fun b hb => hnone b (List.mem_of_mem_take hb)) l
        exact .cons (first.cons (t := ⟨kind, lexeme, _⟩) hfirst hsuits hk) others

/-- The lines of the tokens of a text spell the lines of the text. -/
theorem allSpell_split (t : Text) :
    AllSpell 1 (Text.splitAt '\n'.toUInt8 t) (split (Token.scan t)) := by
  have h := allSpell_splitAt Location.start (Text.cut Token.measure t) (Token.suits_of_mem_cut t)
  rwa [Text.flatMap_cut] at h

/-- The parts between bars spell the parts of the text between bars. -/
theorem map_splitAt_bar {ts : List Token}
    (h : ∀ t ∈ ts, Suits t.kind t.lexeme ∧ t.kind ≠ .newline) :
    (splitAt .bar ts).map (·.flatMap (·.lexeme)) =
      Text.splitAt '|'.toUInt8 (ts.flatMap (·.lexeme)) := by
  induction ts with
  | nil => rfl
  | cons t ts ih =>
    rcases h t List.mem_cons_self with ⟨hsuits, hk⟩
    have hrest := ih fun s hs => h s (List.mem_cons_of_mem t hs)
    rw [List.flatMap_cons]
    by_cases hbar : t.kind = .bar
    · have hlexeme : t.lexeme = ['|'.toUInt8] := by
        rw [hbar] at hsuits
        exact hsuits
      rw [splitAt, if_pos hbar, hlexeme, List.singleton_append, Text.splitAt_cons_self,
        List.map_cons, hrest]
      rfl
    · rcases exists_splitAt_eq_cons .bar ts with ⟨part, parts, hparts⟩
      rw [hparts, List.map_cons] at hrest
      rw [splitAt_cons_of_ne hbar hparts, List.map_cons, List.flatMap_cons,
        Text.splitAt_append (hsuits.ne_bar hbar hk) hrest.symm]

end Line

end Derivations
