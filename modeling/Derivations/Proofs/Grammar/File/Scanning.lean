import Derivations.Proofs.Grammar.File.Tokens
import Mathlib.Computability.RegularExpressions

/-!
# Scanning by Patterns

The tokens of a grammar file are given by four regular expressions. A scanner goes through a
text and asks at every place which of them match there. It takes the longest match, and of
several matches of one length that of the earliest expression. Where nothing matches it
complains and goes on behind the bytes it cannot use.

How matches are found is left open here: it is a parameter, and all that is known of it is
which match it takes. This determines the tokens. At every byte some expression matches, so
there are no complaints, and the longest match is the one that `Token.measure` reads off the
first bytes. A carriage return is where this has to be looked at closely. It matches as white
space by itself, but together with a line feed it is a longer match as a line end, unless
more white space follows it and makes that the longer match. Behind other white space
it is never asked about at all.

No text matches two of the expressions, so their order does not matter after all.

## Main definitions

* `TokenKind.pattern`: The regular expression for a kind of tokens.
* `Token.Longest`: What is to be found at the front of a text.
* `Token.Finder`, `Token.Finder.TakesLongest`: How matches are found.
* `Token.Scans`: A scanner on its way through a text.
* `Token.Covers`: Tokens that lose nothing of a text.

## Theorems

* `TokenKind.suits_iff_matches`: The texts that suit a kind are those its expression matches.
* `Token.longest_measure`: Tokens are measured by the longest match.
* `Token.scans_iff`: A scanner finds the tokens of the text, and nothing to complain of.
* `Location.pastAll_start`: Places count line feeds, and bytes behind the last of them.
* `Token.scan_loses_nothing`: All of this together.
-/

namespace Derivations

namespace Pattern

/-- One out of several bytes. -/
def oneOf (bytes : List UInt8) : RegularExpression UInt8 :=
  (bytes.map .char).sum

/-- A byte that is none of several. -/
def noneOf (bytes : List UInt8) : RegularExpression UInt8 :=
  oneOf (((List.range 256).map UInt8.ofNat).filter (· ∉ bytes))

/-- A pattern once or more often. -/
def many (p : RegularExpression UInt8) : RegularExpression UInt8 :=
  p * p.star

/-- A pattern or nothing. -/
def optional (p : RegularExpression UInt8) : RegularExpression UInt8 :=
  p + 1

theorem mem_oneOf {bytes : List UInt8} {t : Text} :
    t ∈ (oneOf bytes).matches' ↔ ∃ b ∈ bytes, t = [b] := by
  induction bytes with
  | nil => exact ⟨False.elim, fun ⟨b, hb, _⟩ => absurd hb List.not_mem_nil⟩
  | cons b bytes ih =>
    have hsum : oneOf (b :: bytes) = .char b + oneOf bytes := List.sum_cons
    rw [hsum, RegularExpression.matches'_add, Language.mem_add, ih, List.exists_mem_cons_iff]
    rfl

/-- A class of bytes once or more often. -/
theorem mem_many_oneOf {bytes : List UInt8} {t : Text} :
    t ∈ (many (oneOf bytes)).matches' ↔ t ≠ [] ∧ ∀ b ∈ t, b ∈ bytes := by
  rw [many, RegularExpression.matches'_mul, RegularExpression.matches'_star, Language.mem_mul]
  constructor
  · rintro ⟨first, hfirst, rest, hrest, rfl⟩
    rcases mem_oneOf.1 hfirst with ⟨b, hb, rfl⟩
    rcases Language.mem_kstar.1 hrest with ⟨parts, rfl, hparts⟩
    refine ⟨List.cons_ne_nil _ _, List.forall_mem_cons.2 ⟨hb, fun c hc => ?_⟩⟩
    rcases List.mem_flatten.1 hc with ⟨part, hpart, hc⟩
    rcases mem_oneOf.1 (hparts part hpart) with ⟨d, hd, rfl⟩
    rwa [List.mem_singleton.1 hc]
  · rintro ⟨hne, hbytes⟩
    cases t with
    | nil => exact absurd rfl hne
    | cons b t =>
      rcases List.forall_mem_cons.1 hbytes with ⟨hb, hrest⟩
      refine ⟨[b], mem_oneOf.2 ⟨b, hb, rfl⟩, t, ?_, rfl⟩
      refine Language.mem_kstar.2 ⟨t.map ([·]), (List.flatMap_singleton' t).symm, ?_⟩
      intro part hpart
      rcases List.mem_map.1 hpart with ⟨c, hc, rfl⟩
      exact mem_oneOf.2 ⟨c, hrest c hc, rfl⟩

/-- Any byte that is none of the given ones is found among all bytes. -/
theorem mem_many_noneOf {bytes : List UInt8} {t : Text} :
    t ∈ (many (noneOf bytes)).matches' ↔ t ≠ [] ∧ ∀ b ∈ t, b ∉ bytes := by
  have hall (b : UInt8) : b ∈ (List.range 256).map UInt8.ofNat :=
    List.mem_map.2 ⟨b.toNat, List.mem_range.2 b.toNat_lt, UInt8.ofNat_toNat⟩
  rw [noneOf, mem_many_oneOf]
  simp only [List.mem_filter, hall, true_and, decide_eq_true_eq]

end Pattern

namespace TokenKind

/-- The regular expression for a kind of tokens. -/
def pattern : TokenKind → RegularExpression UInt8
  | newline => Pattern.optional (.char '\r'.toUInt8) * .char '\n'.toUInt8
  | space => Pattern.many (Pattern.oneOf [' '.toUInt8, '\t'.toUInt8, '\r'.toUInt8])
  | bar => .char '|'.toUInt8
  | word => Pattern.many (Pattern.noneOf
      [' '.toUInt8, '\t'.toUInt8, '\r'.toUInt8, '\n'.toUInt8, '|'.toUInt8])

/-- The kinds of tokens in the order in which they are given. -/
def given : List TokenKind :=
  [newline, space, bar, word]

/-- The texts that suit a kind are those which its regular expression matches. -/
theorem suits_iff_matches {kind : TokenKind} {t : Text} :
    Suits kind t ↔ t ∈ kind.pattern.matches' := by
  cases kind with
  | word =>
    rw [Suits, pattern, Pattern.mem_many_noneOf]
    simp [Token.isWord, Token.isSpace, Token.isMark, and_assoc]
  | space =>
    rw [Suits, pattern, Pattern.mem_many_oneOf]
    simp [Token.isSpace, or_assoc]
  | bar => exact Iff.rfl
  | newline =>
    rw [Suits, pattern, RegularExpression.matches'_mul, Language.mem_mul]
    constructor
    · rintro (rfl | rfl)
      · exact ⟨[], Or.inr rfl, _, rfl, rfl⟩
      · exact ⟨['\r'.toUInt8], Or.inl rfl, _, rfl, rfl⟩
    · rintro ⟨front, hfront, back, rfl, rfl⟩
      rcases hfront with rfl | rfl
      · exact Or.inr rfl
      · exact Or.inl rfl

theorem mem_given (kind : TokenKind) : kind ∈ given := by
  cases kind <;> decide

end TokenKind

namespace Token

open TokenKind (Suits)

/-- What is to be found at the front of a text: a longest match, and of several of them that of
    the regular expression given first. -/
structure Longest (t : Text) (kind : TokenKind) (n : Nat) : Prop where
  fits : n ≤ t.length
  matched : t.take n ∈ kind.pattern.matches'
  longest : ∀ (k : TokenKind) (m : Nat), m ≤ t.length → t.take m ∈ k.pattern.matches' → m ≤ n
  earliest : ∀ k : TokenKind, t.take n ∈ k.pattern.matches' →
    TokenKind.given.idxOf kind ≤ TokenKind.given.idxOf k

/-- There is no choice in what is to be found. -/
theorem Longest.unique {t : Text} {k l : TokenKind} {m n : Nat} (hk : Longest t k m)
    (hl : Longest t l n) : k = l ∧ m = n := by
  have hlength : m = n :=
    Nat.le_antisymm (hl.longest k m hk.fits hk.matched) (hk.longest l n hl.fits hl.matched)
  subst hlength
  have hplace : TokenKind.given.idxOf k = TokenKind.given.idxOf l :=
    Nat.le_antisymm (hk.earliest l hl.matched) (hl.earliest k hk.matched)
  exact ⟨(List.idxOf_inj (TokenKind.mem_given k)).1 hplace, rfl⟩

theorem length_le_takeWhile {p : UInt8 → Bool} {s t : Text} (h : s <+: t)
    (hs : ∀ b ∈ s, p b = true) : s.length ≤ (t.takeWhile p).length := by
  rcases h with ⟨more, rfl⟩
  rw [List.takeWhile_append_of_pos hs, List.length_append]
  exact Nat.le_add_right _ _

/-- No text that suits a kind extends further than the token is measured, and it is the only
    one that extends as far. -/
theorem le_measure {kind : TokenKind} {first : UInt8} {rest s : Text}
    (hs : Suits kind (first :: s)) (hrest : s <+: rest) :
    s.length ≤ (measure first rest).2 ∧
      (s.length = (measure first rest).2 → kind = (measure first rest).1) := by
  cases kind with
  | word =>
    rcases List.forall_mem_cons.1 hs.2 with ⟨hfirst, hs⟩
    rcases measure_cases first rest with
      ⟨rfl, h⟩ | ⟨rfl, _, h⟩ | ⟨hspace, h⟩ | ⟨rfl, h⟩ | ⟨_, h⟩
    · exact absurd hfirst (by decide)
    · exact absurd hfirst (by decide)
    · rw [isSpace_of_isWord hfirst] at hspace
      exact absurd hspace Bool.false_ne_true
    · exact absurd hfirst (by decide)
    · rw [h]
      exact ⟨length_le_takeWhile hrest hs, fun _ => rfl⟩
  | space =>
    rcases List.forall_mem_cons.1 hs.2 with ⟨hfirst, hs⟩
    rcases measure_cases first rest with
      ⟨rfl, h⟩ | ⟨_, ⟨more, rfl⟩, h⟩ | ⟨_, h⟩ | ⟨rfl, h⟩ | ⟨hword, h⟩
    · exact absurd hfirst (by decide)
    -- The line feed behind the carriage return is no white space.
    · have hnil : s = [] := by
        cases s with
        | nil => rfl
        | cons b s =>
          rw [(List.cons_prefix_cons.1 hrest).1] at hs
          exact absurd (hs _ List.mem_cons_self) (by decide)
      rw [h, hnil]
      exact ⟨Nat.zero_le 1, fun h => absurd h (by decide)⟩
    · rw [h]
      exact ⟨length_le_takeWhile hrest hs, fun _ => rfl⟩
    · exact absurd hfirst (by decide)
    · rw [isSpace_of_isWord hword] at hfirst
      exact absurd hfirst Bool.false_ne_true
  | bar =>
    rcases hs with ⟨⟩
    exact ⟨Nat.zero_le _, fun _ => rfl⟩
  | newline =>
    rcases hs with ⟨⟨⟩⟩ | ⟨⟨⟩⟩
    · exact ⟨Nat.zero_le _, fun _ => rfl⟩
    · rcases hrest with ⟨more, rfl⟩
      exact ⟨Nat.le_refl 1, fun _ => rfl⟩

theorem measure_le (first : UInt8) (rest : Text) : (measure first rest).2 ≤ rest.length := by
  rcases measure_cases first rest with
    ⟨_, h⟩ | ⟨_, ⟨more, rfl⟩, h⟩ | ⟨_, h⟩ | ⟨_, h⟩ | ⟨_, h⟩ <;> rw [h]
  · exact Nat.zero_le _
  · exact Nat.le_add_left 1 more.length
  · exact (List.takeWhile_prefix isSpace).length_le
  · exact Nat.zero_le _
  · exact (List.takeWhile_prefix isWord).length_le

/-- Tokens are measured by the longest match. -/
theorem longest_measure (first : UInt8) (rest : Text) :
    Longest (first :: rest) (measure first rest).1 ((measure first rest).2 + 1) := by
  have hlength (m : Nat) (hm : m ≤ rest.length) : (rest.take m).length = m :=
    List.length_take_of_le hm
  refine ⟨Nat.succ_le_succ (measure_le first rest), ?_, fun k m hm hmatch => ?_,
    fun k hmatch => ?_⟩
  · rw [← TokenKind.suits_iff_matches, List.take_succ_cons]
    refine suits_of_mem_cut (first :: rest) ((measure first rest).1, _) ?_
    rw [Text.cut_cons]
    exact List.mem_cons_self
  · cases m with
    | zero => exact Nat.zero_le _
    | succ m =>
      rw [← TokenKind.suits_iff_matches, List.take_succ_cons] at hmatch
      have hle := (le_measure hmatch (List.take_prefix m rest)).1
      rw [hlength m (Nat.le_of_succ_le_succ hm)] at hle
      exact Nat.succ_le_succ hle
  · rw [← TokenKind.suits_iff_matches, List.take_succ_cons] at hmatch
    have hkind := (le_measure hmatch (List.take_prefix _ rest)).2
      (hlength _ (measure_le first rest))
    rw [hkind]

/-- How matches are found at the front of a text: the kind of the token and the number of its
    bytes, or else the number of bytes that cannot be used. -/
abbrev Finder := Text → Except Nat (TokenKind × Nat)

/-- The longest match is found, and where there is none, no expression matches. -/
structure Finder.TakesLongest (find : Finder) : Prop where
  found : ∀ t kind n, find t = .ok (kind, n) → Longest t kind n
  missed : ∀ t unused, find t = .error unused →
    ∀ (kind : TokenKind) (n : Nat), t.take n ∉ kind.pattern.matches'

/-- Matches found by measuring. -/
def measured : Finder
  | [] => .error 0
  | first :: rest => .ok ((measure first rest).1, (measure first rest).2 + 1)

theorem takesLongest_measured : Finder.TakesLongest measured := by
  refine ⟨fun t kind n h => ?_, fun t unused h kind n hmatch => ?_⟩
  · cases t with
    | nil => cases h
    | cons first rest =>
      cases h
      exact longest_measure first rest
  · cases t with
    | nil =>
      rw [List.take_nil, ← TokenKind.suits_iff_matches] at hmatch
      cases kind with
      | word => exact hmatch.1 rfl
      | space => exact hmatch.1 rfl
      | bar => exact absurd hmatch (List.cons_ne_nil _ _).symm
      | newline => exact hmatch.elim (List.cons_ne_nil _ _).symm (List.cons_ne_nil _ _).symm
    | cons first rest => cases h

theorem Finder.TakesLongest.eq_measured {find : Finder} (h : find.TakesLongest) (first : UInt8)
    (rest : Text) :
    find (first :: rest) = .ok ((measure first rest).1, (measure first rest).2 + 1) := by
  have hlongest := longest_measure first rest
  cases hfind : find (first :: rest) with
  | error unused => exact absurd hlongest.matched (h.missed _ _ hfind _ _)
  | ok p =>
    rcases p with ⟨kind, n⟩
    rcases (h.found _ _ _ hfind).unique hlongest with ⟨rfl, rfl⟩
    rfl

/-- A scanner on its way through a text, from behind a place to the end: the tokens it finds,
    and the places of which it complains. -/
inductive Scans (find : Finder) : Location → Text → List Token → List Location → Prop
  | done (l : Location) : Scans find l [] [] []
  | token {l : Location} {t : Text} {kind : TokenKind} {n : Nat} {ts : List Token}
      {faults : List Location} (more : t ≠ []) (found : find t = .ok (kind, n))
      (others : Scans find (l.pastAll (t.take n)) (t.drop n) ts faults) :
      Scans find l t (⟨kind, t.take n, l.pastAll ((t.take n).take 1)⟩ :: ts) faults
  | fault {l : Location} {t : Text} {unused : Nat} {ts : List Token} {faults : List Location}
      (more : t ≠ []) (missed : find t = .error unused)
      (others : Scans find (l.pastAll (t.take unused)) (t.drop unused) ts faults) :
      Scans find l t ts (l.pastAll (t.take 1) :: faults)

/-- A scanner finds the tokens of the text, and there is nothing to complain of. -/
theorem scans_iff {find : Finder} (h : find.TakesLongest) {l : Location} {t : Text}
    {ts : List Token} {faults : List Location} :
    Scans find l t ts faults ↔ ts = locate l (t.cut measure) ∧ faults = [] := by
  constructor
  · intro hscans
    induction hscans with
    | done l => exact ⟨rfl, rfl⟩
    | @token l t kind n ts faults more found others ih =>
      cases t with
      | nil => exact absurd rfl more
      | cons first rest =>
        rw [h.eq_measured first rest] at found
        cases found
        rw [Text.cut_cons, locate, ih.1]
        exact ⟨rfl, ih.2⟩
    | @fault l t unused ts faults more missed others ih =>
      cases t with
      | nil => exact absurd rfl more
      | cons first rest =>
        rw [h.eq_measured first rest] at missed
        cases missed
  · rintro ⟨rfl, rfl⟩
    induction t using Text.cut_induction measure generalizing l with
    | nil => exact .done l
    | cons first rest ih =>
      rw [Text.cut_cons, locate]
      exact .token (List.cons_ne_nil first rest) (h.eq_measured first rest) ih

end Token

namespace Location

theorem pastAll_append (l : Location) (s t : Text) :
    l.pastAll (s ++ t) = (l.pastAll s).pastAll t :=
  List.foldl_append

/-- The bytes behind the last line feed. -/
def lastLine (t : Text) : Text :=
  t.rtakeWhile (· != '\n'.toUInt8)

theorem lastLine_append_newline (t : Text) : lastLine (t ++ ['\n'.toUInt8]) = [] :=
  List.rtakeWhile_concat_neg _ t _ (by decide)

theorem lastLine_append_of_ne {b : UInt8} (h : b ≠ '\n'.toUInt8) (t : Text) :
    lastLine (t ++ [b]) = lastLine t ++ [b] :=
  List.rtakeWhile_concat_pos _ t b (by simpa using h)

/-- A place is given by the number of line feeds in front of it, and by the number of bytes
    behind the last of them. -/
theorem pastAll_start (t : Text) :
    start.pastAll t = ⟨1 + t.count '\n'.toUInt8, (lastLine t).length⟩ := by
  -- The last byte decides whether a line begins behind it.
  induction t using List.reverseRecOn with
  | nil => rfl
  | append_singleton t b ih =>
    have hstep : start.pastAll (t ++ [b]) = (start.pastAll t).past b := List.foldl_concat ..
    rw [hstep, ih, List.count_append, past]
    by_cases hb : b = '\n'.toUInt8
    · rw [if_pos hb, hb, lastLine_append_newline]
      rfl
    · rw [if_neg hb, lastLine_append_of_ne hb, List.length_append, List.count_singleton,
        if_neg (by simpa using hb)]
      rfl

end Location

namespace Token

open TokenKind (Suits Apart)

/-- Tokens that lose nothing of a text. Their bytes are those of the text, and they are of the
    kinds that their bytes suggest. They extend as far as they can, so no words and no two pieces of
    white space are side by side. There is a line end for every line feed. All of them but bare
    line feeds have the places of their first bytes: the line is counted from one, and so
    is the column. -/
structure Covers (text : Text) (ts : List Token) : Prop where
  lexemes : ts.flatMap (·.lexeme) = text
  nonempty : ∀ t ∈ ts, t.lexeme ≠ []
  suits : ∀ t ∈ ts, Suits t.kind t.lexeme
  apart : (ts.map (·.kind)).IsChain Apart
  lines : ts.countP (·.kind = .newline) = text.count '\n'.toUInt8
  places : ∀ before t after, ts = before ++ t :: after → t.lexeme ≠ ['\n'.toUInt8] →
    t.location = ⟨1 + (before.flatMap (·.lexeme)).count '\n'.toUInt8,
      1 + (Location.lastLine (before.flatMap (·.lexeme))).length⟩

theorem flatMap_lexeme_locate (l : Location) (pieces : List (TokenKind × Text)) :
    (locate l pieces).flatMap (·.lexeme) = pieces.flatMap (·.2) := by
  induction pieces generalizing l with
  | nil => rfl
  | cons p pieces ih => rw [locate, List.flatMap_cons, List.flatMap_cons, ih]

theorem flatMap_lexeme_scan (t : Text) : (scan t).flatMap (·.lexeme) = t := by
  rw [scan, flatMap_lexeme_locate, Text.flatMap_cut]

theorem exists_piece_of_mem_locate {l : Location} {pieces : List (TokenKind × Text)} {t : Token}
    (h : t ∈ locate l pieces) : (t.kind, t.lexeme) ∈ pieces := by
  induction pieces generalizing l with
  | nil => cases h
  | cons p pieces ih =>
    rw [locate] at h
    rcases List.mem_cons.1 h with rfl | h
    · exact List.mem_cons_self
    · exact List.mem_cons_of_mem _ (ih h)

theorem suits_of_mem_scan {text : Text} {t : Token} (h : t ∈ scan text) : Suits t.kind t.lexeme :=
  suits_of_mem_cut text (t.kind, t.lexeme) (exists_piece_of_mem_locate h)

theorem location_of_locate {l : Location} {pieces : List (TokenKind × Text)} {before : List Token}
    {t : Token} {after : List Token} (h : locate l pieces = before ++ t :: after) :
    t.location = (l.pastAll (before.flatMap (·.lexeme))).pastAll (t.lexeme.take 1) := by
  induction before generalizing l pieces with
  | nil =>
    cases pieces with
    | nil => cases h
    | cons p pieces =>
      rw [locate] at h
      rcases h with ⟨⟩
      rfl
  | cons s before ih =>
    cases pieces with
    | nil => cases h
    | cons p pieces =>
      rw [locate] at h
      rcases List.cons.inj h with ⟨rfl, hrest⟩
      rw [ih hrest, List.flatMap_cons, Location.pastAll_append]

end Token

namespace TokenKind

/-- Only line ends have a line feed, and they have one. -/
theorem Suits.count_newline {kind : TokenKind} {t : Text} (h : Suits kind t) :
    t.count '\n'.toUInt8 = if kind = .newline then 1 else 0 := by
  by_cases hk : kind = .newline
  · subst hk
    rcases h with rfl | rfl <;> rfl
  · rw [if_neg hk, List.count_eq_zero]
    exact fun hmem => h.ne_newline hk _ hmem rfl

/-- A token that is no bare line feed begins with another byte. -/
theorem Suits.exists_first {kind : TokenKind} {t : Text} (h : Suits kind t)
    (hbare : t ≠ ['\n'.toUInt8]) : ∃ b rest, t = b :: rest ∧ b ≠ '\n'.toUInt8 := by
  by_cases hk : kind = .newline
  · subst hk
    rcases h with rfl | rfl
    · exact absurd rfl hbare
    · exact ⟨_, _, rfl, by decide⟩
  · cases t with
    | nil =>
      cases kind with
      | word => exact absurd rfl h.1
      | space => exact absurd rfl h.1
      | bar => cases h
      | newline => exact absurd rfl hk
    | cons b rest => exact ⟨b, rest, rfl, h.ne_newline hk b List.mem_cons_self⟩

end TokenKind

namespace Token

open TokenKind (Suits)

theorem countP_newline {ts : List Token} (h : ∀ t ∈ ts, Suits t.kind t.lexeme) :
    ts.countP (·.kind = .newline) = (ts.flatMap (·.lexeme)).count '\n'.toUInt8 := by
  induction ts with
  | nil => rfl
  | cons t ts ih =>
    rw [List.countP_cons, List.flatMap_cons, List.count_append,
      (h t List.mem_cons_self).count_newline, ih fun s hs => h s (List.mem_cons_of_mem t hs),
      Nat.add_comm]
    simp only [decide_eq_true_eq]

/-- The tokens of a text lose nothing of it. -/
theorem covers_scan (text : Text) : Covers text (scan text) := by
  have hsuits : ∀ t ∈ scan text, Suits t.kind t.lexeme := fun t ht => suits_of_mem_scan ht
  refine ⟨flatMap_lexeme_scan text, fun t ht => ?_, hsuits, isChain_scan text, ?_, ?_⟩
  · exact Text.ne_nil_of_mem_cut measure text _ (exists_piece_of_mem_locate ht)
  · rw [countP_newline hsuits, flatMap_lexeme_scan]
  · intro before t after hsplit hbare
    have hmem : t ∈ scan text := by
      rw [hsplit]
      exact List.mem_append_right before List.mem_cons_self
    rcases (hsuits t hmem).exists_first hbare with ⟨b, rest, hlexeme, hb⟩
    rw [location_of_locate hsplit, Location.pastAll_start, hlexeme, List.take_succ_cons,
      List.take_zero, Location.pastAll, List.foldl_cons, List.foldl_nil, Location.past, if_neg hb,
      Nat.add_comm 1 (List.length _)]

/-- However matches are found, if it is the longest one that is found and the earliest
    expression that is preferred, a scanner goes through every text without any complaint, and
    the tokens it finds lose nothing of the text. -/
theorem scan_loses_nothing {find : Finder} (h : find.TakesLongest) (text : Text) :
    (∀ ts faults, Scans find .start text ts faults ↔ ts = scan text ∧ faults = []) ∧
      Covers text (scan text) :=
  ⟨fun _ _ => scans_iff h, covers_scan text⟩

/-- A text with carriage returns behind a blank, before line feeds and at its end. -/
def returns : Text :=
  "S \r\r\na|\r\n\r\n\r"

/-- Carriage returns are white space or parts of line ends, and none is lost. -/
theorem scan_loses_nothing_returns :
    Finder.TakesLongest measured ∧ Scans measured .start returns (scan returns) [] ∧
      Covers returns (scan returns) ∧
      scan returns = [⟨.word, "S", ⟨1, 1⟩⟩, ⟨.space, " \r\r", ⟨1, 2⟩⟩, ⟨.newline, "\n", ⟨2, 0⟩⟩,
        ⟨.word, "a", ⟨2, 1⟩⟩, ⟨.bar, "|", ⟨2, 2⟩⟩, ⟨.newline, "\r\n", ⟨2, 3⟩⟩,
        ⟨.newline, "\r\n", ⟨3, 1⟩⟩, ⟨.space, "\r", ⟨4, 1⟩⟩] := by
  rcases scan_loses_nothing takesLongest_measured returns with ⟨hscans, hcovers⟩
  exact ⟨takesLongest_measured, (hscans _ _).2 ⟨rfl, rfl⟩, hcovers, by decide⟩

end Token

end Derivations
