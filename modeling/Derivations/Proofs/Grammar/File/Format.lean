import Derivations.Grammar.File.Load
import Derivations.Proofs.Grammar.Commits
import Derivations.Proofs.Grammar.File.Tokens

/-!
# The Format of Grammar Files

What a grammar file says can be told without tokens. A file is cut into lines at its line
feeds, and what is around a line, blanks, tabs and carriage returns, is taken off. What is
left begins with a symbol, which extends to the first byte of those or the first bar; the
rest of the line, behind the white space that follows, is cut at its bars, and every part
is an alternative. A line is malformed if it begins with a bar or has one right behind its
symbol. An empty line says nothing, and neither does a line without a rest.

Reading tokens comes to the same. The tokens of a line spell it up to a carriage return at
its end, which would be taken off anyway. White space at the ends of a line is taken off
token by token or byte by byte alike, and since no two words are side by side, the first
token is the whole of what extends to the first blank or bar. The white space behind it is
one token for the same reason.

A grammar that is loaded holds the productions in the text: whatever it is asked, its answers
are those for this sequence of productions.

## Main definitions

* `Format.strip`: A line without white space at either end.
* `Format.productions?`: The productions on a line, unless it is malformed.
* `Format.read`: The productions in a text, or the number of its first malformed line.

## Theorems

* `Line.strip_flatMap`: White space is taken off token by token.
* `Line.read_of_spells`: Reading the tokens of a line gives what the line says.
* `Reading.ofLines_of_allSpell`: The same for all lines up to the first malformed one.
* `Grammar.load_eq_read`: Loading a grammar gives what the text says.
-/

namespace Derivations

namespace Format

/-- A line without blanks, tabs and carriage returns at either end. -/
def strip (line : Text) : Text :=
  (line.dropWhile Token.isSpace).rdropWhile Token.isSpace

/-- Whether the symbol at the beginning of a line ends in front of a byte. -/
def endsSymbol (b : UInt8) : Bool :=
  Token.isSpace b || b = '|'.toUInt8

/-- The productions on a line, in order, or nothing if the line is malformed. -/
def productions? (line : Text) : Option (List (Symbol × List Symbol)) :=
  let content := strip line
  let lhs := content.takeWhile (!endsSymbol ·)
  let rest := content.dropWhile (!endsSymbol ·)
  if content = [] then some []
  else if lhs = [] ∨ rest.head? = some '|'.toUInt8 then none
  else if rest = [] then some []
  else
    some ((Text.splitAt '|'.toUInt8 (rest.dropWhile Token.isSpace)).map
      fun part => (lhs, symbols part))

/-- Whether a line is malformed. -/
def isMalformed (line : Text) : Bool :=
  (productions? line).isNone

/-- The productions in a text, in order, or the number of its first malformed line,
    counted from one. -/
def read (t : Text) : Except Nat (List (Symbol × List Symbol)) :=
  let lines := Text.splitAt '\n'.toUInt8 t
  match lines.findIdx? isMalformed with
  | some i => .error (i + 1)
  | none => .ok (lines.flatMap fun line => (productions? line).getD [])

theorem productions?_of_split {line lhs rest : Text} (hne : strip line ≠ [])
    (hlhs : (strip line).takeWhile (!endsSymbol ·) = lhs)
    (hrest : (strip line).dropWhile (!endsSymbol ·) = rest) :
    productions? line =
      if lhs = [] ∨ rest.head? = some '|'.toUInt8 then none
      else if rest = [] then some []
      else some ((Text.splitAt '|'.toUInt8 (rest.dropWhile Token.isSpace)).map
        fun part => (lhs, symbols part)) := by
  simp only [productions?, if_neg hne, hlhs, hrest]

theorem strip_append_return (line : Text) : strip (line ++ ['\r'.toUInt8]) = strip line := by
  unfold strip
  rw [List.dropWhile_append]
  split
  · -- The line is white space, and nothing is left of it in either case.
    rename_i hempty
    rw [List.isEmpty_iff.1 hempty]
    rfl
  · exact List.rdropWhile_concat_pos _ _ _ rfl

end Format

namespace Line

open TokenKind (Suits Apart)
open Format (strip endsSymbol)

variable {n : Nat} {line : Text} {ts : List Token}

-- A token that is not white space neither begins nor ends with any.
theorem isSpace_eq_false_of_suits {t : Token} (h : Suits t.kind t.lexeme ∧ t.kind ≠ .newline)
    (hk : t.kind ≠ .space) : t.lexeme ≠ [] ∧ ∀ b ∈ t.lexeme, Token.isSpace b = false := by
  rcases t with ⟨kind, lexeme, location⟩
  cases kind with
  | word => exact ⟨h.1.1, fun b hb => Token.isSpace_of_isWord (h.1.2 b hb)⟩
  | space => exact absurd rfl hk
  | bar =>
    have hlexeme : lexeme = ['|'.toUInt8] := h.1
    subst hlexeme
    exact ⟨List.cons_ne_nil _ _, List.forall_mem_singleton.2 rfl⟩
  | newline => exact absurd rfl h.2

theorem suits_space {t : Token} (h : Suits t.kind t.lexeme ∧ t.kind ≠ .newline)
    (hk : t.kind = .space) : ∀ b ∈ t.lexeme, Token.isSpace b = true := by
  have hsuits := h.1
  rw [hk] at hsuits
  exact hsuits.2

theorem dropWhile_flatMap (h : ∀ t ∈ ts, Suits t.kind t.lexeme ∧ t.kind ≠ .newline) :
    (ts.flatMap (·.lexeme)).dropWhile Token.isSpace =
      (ts.dropWhile (·.kind = .space)).flatMap (·.lexeme) := by
  induction ts with
  | nil => rfl
  | cons t ts ih =>
    have ht := h t List.mem_cons_self
    rw [List.flatMap_cons, List.dropWhile_cons]
    by_cases hk : t.kind = .space
    · rw [if_pos (decide_eq_true hk), List.dropWhile_append_of_pos (suits_space ht hk)]
      exact ih fun s hs => h s (List.mem_cons_of_mem t hs)
    · rw [if_neg (by simpa using hk), List.flatMap_cons]
      rcases isSpace_eq_false_of_suits ht hk with ⟨hne, hnone⟩
      rcases List.exists_cons_of_ne_nil hne with ⟨b, lexeme, hb⟩
      rw [hb, List.cons_append, List.dropWhile_cons, if_neg]
      rw [hnone b (by rw [hb]; exact List.mem_cons_self)]
      exact Bool.false_ne_true

theorem rdropWhile_append_of_pos {p : UInt8 → Bool} (s : Text) {t : Text}
    (h : ∀ b ∈ t, p b = true) : (s ++ t).rdropWhile p = s.rdropWhile p := by
  unfold List.rdropWhile
  rw [List.reverse_append, List.dropWhile_append_of_pos fun b hb => h b (List.mem_reverse.1 hb)]

theorem rdropWhile_flatMap (h : ∀ t ∈ ts, Suits t.kind t.lexeme ∧ t.kind ≠ .newline) :
    (ts.flatMap (·.lexeme)).rdropWhile Token.isSpace =
      (ts.rdropWhile (·.kind = .space)).flatMap (·.lexeme) := by
  -- Induction from the end of the line, where the tokens are taken off.
  induction ts using List.reverseRecOn with
  | nil => rfl
  | append_singleton ts t ih =>
    have ht := h t (List.mem_append_right _ List.mem_cons_self)
    rw [List.flatMap_append, List.flatMap_singleton, List.rdropWhile_concat]
    by_cases hk : t.kind = .space
    · rw [if_pos (decide_eq_true hk), rdropWhile_append_of_pos _ (suits_space ht hk)]
      exact ih fun s hs => h s (List.mem_append_left _ hs)
    · rw [if_neg (by simpa using hk), List.flatMap_append, List.flatMap_singleton]
      rcases isSpace_eq_false_of_suits ht hk with ⟨hne, hnone⟩
      rcases List.eq_nil_or_concat' t.lexeme with hnil | ⟨lexeme, b, hb⟩
      · exact absurd hnil hne
      · rw [hb, ← List.append_assoc, List.rdropWhile_concat_neg]
        rw [hnone b (by rw [hb]; exact List.mem_append_right _ List.mem_cons_self)]
        exact Bool.false_ne_true

theorem mem_of_mem_trim {t : Token} (h : t ∈ trim ts) : t ∈ ts :=
  (List.dropWhile_sublist _).subset ((List.rdropWhile_prefix _ _).subset h)

/-- White space is taken off token by token. -/
theorem strip_flatMap (h : ∀ t ∈ ts, Suits t.kind t.lexeme ∧ t.kind ≠ .newline) :
    strip (ts.flatMap (·.lexeme)) = (trim ts).flatMap (·.lexeme) := by
  unfold strip
  rw [dropWhile_flatMap h, rdropWhile_flatMap]
  · rfl
  · exact fun t ht => h t ((List.dropWhile_sublist _).subset ht)

theorem Spells.strip_eq (h : Spells n line ts) :
    strip line = (trim ts).flatMap (·.lexeme) := by
  rw [← strip_flatMap h.suits]
  rcases h.text with rfl | rfl
  · rfl
  · exact Format.strip_append_return _

-- What is left of a line does not begin with white space.
theorem kind_ne_space_of_trim {t : Token} {rest : List Token} (h : trim ts = t :: rest) :
    t.kind ≠ .space := by
  have hprefix : t :: rest <+: ts.dropWhile (·.kind = .space) := by
    rw [← h]
    exact List.rdropWhile_prefix _ _
  have hhead := List.head?_dropWhile_not (fun s : Token => decide (s.kind = .space)) ts
  rcases hprefix with ⟨more, hmore⟩
  rw [← hmore] at hhead
  exact of_decide_eq_false hhead

theorem trim_isInfix (ts : List Token) : trim ts <:+: ts :=
  (List.rdropWhile_prefix _ _).isInfix.trans (List.dropWhile_suffix _).isInfix

theorem endsSymbol_of_isWord {b : UInt8} (h : Token.isWord b = true) : endsSymbol b = false := by
  have hm := Token.isMark_of_isWord h
  unfold Token.isMark at hm
  rw [Bool.or_eq_false_iff] at hm
  rw [endsSymbol, Token.isSpace_of_isWord h, hm.2, Bool.or_false]

-- The symbol at the beginning of a line ends where the first token ends.
theorem endsSymbol_of_ne_word {t : Token} (h : Suits t.kind t.lexeme ∧ t.kind ≠ .newline)
    (hk : t.kind ≠ .word) : ∃ b more, t.lexeme = b :: more ∧ endsSymbol b = true ∧
      (b = '|'.toUInt8 ↔ t.kind = .bar) := by
  rcases t with ⟨kind, lexeme, location⟩
  cases kind with
  | word => exact absurd rfl hk
  | space =>
    rcases List.exists_cons_of_ne_nil h.1.1 with ⟨b, more, hlexeme⟩
    have hb : Token.isSpace b = true := h.1.2 b (hlexeme ▸ List.mem_cons_self)
    refine ⟨b, more, hlexeme, by rw [endsSymbol, hb, Bool.true_or], ?_, TokenKind.noConfusion⟩
    rintro rfl
    exact absurd hb (by decide)
  | bar => exact ⟨_, [], h.1, rfl, iff_of_true rfl rfl⟩
  | newline => exact absurd rfl h.2

-- Words and white space extend as far as they can, so the next token is of another kind.
theorem kind_ne_of_isChain {s t : Token} {rest : List Token}
    (hc : ((s :: t :: rest).map (·.kind)).IsChain Apart)
    (hk : s.kind = .word ∨ s.kind = .space) : t.kind ≠ s.kind := by
  intro he
  have hneither := (List.isChain_cons_cons.1 hc).1 he.symm
  rcases hk with hk | hk
  · exact hneither.1 hk
  · exact hneither.2 hk

theorem splitsAt_symbol {lhs : Token} {rest : List Token}
    (h : ∀ t ∈ lhs :: rest, Suits t.kind t.lexeme ∧ t.kind ≠ .newline)
    (hc : ((lhs :: rest).map (·.kind)).IsChain Apart) (hk : lhs.kind = .word) :
    ((lhs :: rest).flatMap (·.lexeme)).takeWhile (!endsSymbol ·) = lhs.lexeme ∧
      ((lhs :: rest).flatMap (·.lexeme)).dropWhile (!endsSymbol ·) = rest.flatMap (·.lexeme) := by
  have hlhs : ∀ b ∈ lhs.lexeme, (!endsSymbol b) = true := by
    have hsuits := (h lhs List.mem_cons_self).1
    rw [hk] at hsuits
    intro b hb
    rw [endsSymbol_of_isWord (hsuits.2 b hb)]
    rfl
  have hrest : (rest.flatMap (·.lexeme)).takeWhile (!endsSymbol ·) = [] := by
    cases rest with
    | nil => rfl
    | cons gap body =>
      -- Another word would have been part of the first one.
      have hgap : gap.kind ≠ .word := hk ▸ kind_ne_of_isChain hc (Or.inl hk)
      rcases endsSymbol_of_ne_word (h gap (List.mem_cons_of_mem _ List.mem_cons_self)) hgap with
        ⟨b, more, hb, hends, _⟩
      rw [List.flatMap_cons, hb, List.cons_append, List.takeWhile_cons, hends]
      rfl
  rw [List.flatMap_cons, List.takeWhile_append_of_pos hlhs, List.dropWhile_append_of_pos hlhs,
    hrest, List.append_nil]
  refine ⟨rfl, ?_⟩
  have hsplit := List.takeWhile_append_dropWhile (p := (!endsSymbol ·))
    (l := rest.flatMap (·.lexeme))
  rwa [hrest, List.nil_append] at hsplit

-- White space is one token, so the next one is something else.
theorem dropWhile_gap {gap : Token} {body : List Token}
    (hc : ((gap :: body).map (·.kind)).IsChain Apart) (hk : gap.kind = .space) :
    (gap :: body).dropWhile (·.kind = .space) = body := by
  rw [List.dropWhile_cons, if_pos (decide_eq_true hk)]
  cases body with
  | nil => rfl
  | cons t body =>
    have ht : t.kind ≠ .space := hk ▸ kind_ne_of_isChain hc (Or.inr hk)
    rw [List.dropWhile_cons, if_neg (by simpa using ht)]

-- Behind a symbol stands a bar, which is a fault, or white space and the alternatives.
theorem read_of_trim_eq {lhs gap : Token} {body : List Token} (htrim : trim ts = lhs :: gap :: body)
    (hstrip : strip line = (lhs :: gap :: body).flatMap (·.lexeme))
    (hsuits : ∀ t ∈ lhs :: gap :: body, Suits t.kind t.lexeme ∧ t.kind ≠ .newline)
    (hc : ((lhs :: gap :: body).map (·.kind)).IsChain Apart) (hword : lhs.kind = .word) :
    match Format.productions? line with
    | none => read ts = .error (.whitespaceExpected lhs)
    | some ps => ∃ l, read ts = .ok l ∧ l.productions = ps := by
  have hlhs : lhs.lexeme ≠ [] := by
    have hlhs := (hsuits lhs List.mem_cons_self).1
    rw [hword] at hlhs
    exact hlhs.1
  have hne : strip line ≠ [] := by
    rw [hstrip, List.flatMap_cons]
    exact List.append_ne_nil_of_left_ne_nil hlhs _
  rcases splitsAt_symbol hsuits hc hword with ⟨hsymbol, hbehind⟩
  rw [← hstrip] at hsymbol hbehind
  rw [Format.productions?_of_split hne hsymbol hbehind]
  have hgap := hsuits gap (List.mem_cons_of_mem _ List.mem_cons_self)
  have hgapword : gap.kind ≠ .word := hword ▸ kind_ne_of_isChain hc (Or.inl hword)
  rcases endsSymbol_of_ne_word hgap hgapword with ⟨b, more, hb, _, hbar⟩
  have hhead : ((gap :: body).flatMap (·.lexeme)).head? = some b := by
    rw [List.flatMap_cons, hb]
    rfl
  by_cases hgapbar : gap.kind = .bar
  · rw [if_pos (Or.inr (by rw [hhead, hbar.2 hgapbar]))]
    simp [read, htrim, hword, hgapbar]
  · have hgapspace : gap.kind = .space := by
      cases hkind : gap.kind with
      | word => exact absurd hkind hgapword
      | space => rfl
      | bar => exact absurd hkind hgapbar
      | newline => exact absurd hkind hgap.2
    have hnobar : ¬(lhs.lexeme = [] ∨
        ((gap :: body).flatMap (·.lexeme)).head? = some '|'.toUInt8) := by
      rw [hhead, Option.some.injEq, hbar]
      exact fun hor => hor.elim hlhs hgapbar
    have hrest : (gap :: body).flatMap (·.lexeme) ≠ [] := fun hnil => by
      rw [hnil] at hhead
      exact absurd hhead (by simp)
    rw [if_neg hnobar, if_neg hrest,
      dropWhile_flatMap fun t ht => hsuits t (List.mem_cons_of_mem lhs ht),
      dropWhile_gap hc.tail hgapspace, ← map_splitAt_bar fun t ht =>
        hsuits t (List.mem_cons_of_mem lhs (List.mem_cons_of_mem gap ht))]
    refine ⟨.rule lhs.lexeme (alternatives body), by simp [read, htrim, hword, hgapspace], ?_⟩
    simp only [productions, alternatives, List.map_map]
    rfl

/-- Reading the tokens of a line gives what the line says, and a fault if it is
    malformed. -/
theorem read_of_spells (h : Spells n line ts) (hc : (ts.map (·.kind)).IsChain Apart) :
    match Format.productions? line with
    | none => ∃ fault, read ts = .error fault ∧ fault.line = n
    | some ps => ∃ l, read ts = .ok l ∧ l.productions = ps := by
  have hsuits : ∀ t ∈ trim ts, Suits t.kind t.lexeme ∧ t.kind ≠ .newline := fun t ht =>
    h.suits t (mem_of_mem_trim ht)
  have hnumber : ∀ t ∈ trim ts, t.location.line = n := fun t ht =>
    h.number t (mem_of_mem_trim ht)
  have hchain : ((trim ts).map (·.kind)).IsChain Apart :=
    List.IsChain.infix hc ((trim_isInfix ts).map _)
  have hstrip := h.strip_eq
  cases htrim : trim ts with
  | nil =>
    rw [htrim, List.flatMap_nil] at hstrip
    have hread : Format.productions? line = some [] := by
      simp only [Format.productions?, if_pos hstrip]
    rw [hread]
    exact ⟨.blank, by rw [read, htrim], rfl⟩
  | cons lhs rest =>
    have hspace := kind_ne_space_of_trim htrim
    rw [htrim] at hsuits hnumber hchain hstrip
    have hlhs := hsuits lhs List.mem_cons_self
    have hlhs_ne : lhs.lexeme ≠ [] := (isSpace_eq_false_of_suits hlhs hspace).1
    have hne : strip line ≠ [] := by
      rw [hstrip, List.flatMap_cons]
      exact List.append_ne_nil_of_left_ne_nil hlhs_ne _
    by_cases hword : lhs.kind = .word
    · cases rest with
      | nil =>
        -- A symbol alone says nothing.
        rcases splitsAt_symbol hsuits hchain hword with ⟨hsymbol, hbehind⟩
        rw [← hstrip] at hsymbol hbehind
        rw [Format.productions?_of_split hne hsymbol hbehind, if_neg (by simp [hlhs_ne])]
        exact ⟨.bare lhs, by simp [read, htrim, hword], rfl⟩
      | cons gap body =>
        have hread := read_of_trim_eq htrim hstrip hsuits hchain hword
        cases hdirect : Format.productions? line with
        | none =>
          rw [hdirect] at hread
          exact ⟨_, hread, hnumber lhs List.mem_cons_self⟩
        | some ps =>
          rw [hdirect] at hread
          exact hread
    · -- The line begins with a bar, so there is no symbol.
      have hsymbol : (strip line).takeWhile (!endsSymbol ·) = [] := by
        rcases endsSymbol_of_ne_word hlhs hword with ⟨b, more, hb, hends, _⟩
        rw [hstrip, List.flatMap_cons, hb, List.cons_append, List.takeWhile_cons, hends]
        rfl
      rw [Format.productions?_of_split hne hsymbol rfl, if_pos (Or.inl rfl)]
      exact ⟨.leftHandSideExpected lhs, by simp [read, htrim, hword],
        hnumber lhs List.mem_cons_self⟩

end Line

namespace Reading

open Line (AllSpell)

/-- Reading lines of tokens gives what the lines say up to the first malformed one. -/
theorem ofLines_of_allSpell {n : Nat} {lines : List Text} {groups : List (List Token)}
    (h : AllSpell n lines groups)
    (hc : ∀ ts ∈ groups, (ts.map (·.kind)).IsChain TokenKind.Apart) :
    match lines.findIdx? Format.isMalformed with
    | some i => ∃ fault, (ofLines groups).fault? = some fault ∧ fault.line = n + i
    | none => (ofLines groups).fault? = none ∧
      (ofLines groups).productions =
        lines.flatMap fun line => (Format.productions? line).getD [] := by
  induction h with
  | nil => exact ⟨rfl, rfl⟩
  | @cons n line lines ts groups first others ih =>
    have hline := Line.read_of_spells first (hc ts List.mem_cons_self)
    have hrest := ih fun ts' hts' => hc ts' (List.mem_cons_of_mem ts hts')
    rw [List.findIdx?_cons]
    cases hdirect : Format.productions? line with
    | none =>
      -- Reading stops here.
      rw [hdirect] at hline
      rcases hline with ⟨fault, hread, hnumber⟩
      rw [if_pos (by rw [Format.isMalformed, hdirect]; rfl)]
      exact ⟨fault, by rw [ofLines, hread], hnumber⟩
    | some ps =>
      rw [hdirect] at hline
      rcases hline with ⟨l, hread, hproductions⟩
      have hfault : (ofLines (ts :: groups)).fault? = (ofLines groups).fault? := by
        rw [ofLines, hread]
      have hall : (ofLines (ts :: groups)).productions = ps ++ (ofLines groups).productions := by
        rw [ofLines, hread, Reading.productions, List.flatMap_cons, hproductions]
        rfl
      rw [if_neg (by rw [Format.isMalformed, hdirect]; exact Bool.false_ne_true), hfault, hall]
      cases hfind : lines.findIdx? Format.isMalformed with
      | none =>
        rw [hfind] at hrest
        refine ⟨hrest.1, ?_⟩
        rw [List.flatMap_cons, hdirect, hrest.2]
        rfl
      | some i =>
        rw [hfind] at hrest
        rcases hrest with ⟨fault, hf, hn⟩
        exact ⟨fault, hf, by rw [hn, Nat.add_assoc, Nat.add_comm 1 i]⟩

end Reading

namespace Grammar

theorem start?_add_ne_none (g : Grammar) (lhs : Symbol) (rhs : List Symbol) :
    (g.add lhs rhs).start? ≠ none := by
  change (addTo lhs rhs g.rules).head?.map (·.lhs) ≠ none
  cases hrules : g.rules with
  | nil => simp [addTo]
  | cons r rules =>
    by_cases hr : r.lhs = lhs <;> simp [addTo, hr]

/-- A grammar has a start symbol as soon as it has a production. -/
theorem start?_ofProductions_eq_none_iff (name : Text) (ps : List (Symbol × List Symbol)) :
    (ofProductions name ps).start? = none ↔ ps = [] := by
  -- Induction from the end, as the last production is added last.
  induction ps using List.reverseRecOn with
  | nil => exact iff_of_true rfl rfl
  | append_singleton ps p _ =>
    rw [ofProductions, List.foldl_append]
    refine iff_of_false (start?_add_ne_none _ _ _) ?_
    exact List.append_ne_nil_of_right_ne_nil _ (List.cons_ne_nil _ _)

theorem name_ofProductions (name : Text) (ps : List (Symbol × List Symbol)) :
    (ofProductions name ps).name = name := by
  induction ps using List.reverseRecOn with
  | nil => rfl
  | append_singleton ps p ih =>
    rw [ofProductions_concat]
    exact ih

-- What becomes of the productions once all lines have been read.
theorem load_of_fault?_eq_none (name : Text) {t : Text} (h : (Reading.ofText t).fault? = none) :
    load name t =
      if (Reading.ofText t).productions = [] then .error (.empty name)
      else .ok (ofProductions name (Reading.ofText t).productions) := by
  unfold load
  simp only [h]
  by_cases hps : (Reading.ofText t).productions = []
  · rw [if_pos hps, if_pos]
    rw [Option.isNone_iff_eq_none, start?_ofProductions_eq_none_iff, hps]
  · rw [if_neg hps, if_neg]
    rw [Option.isNone_iff_eq_none, start?_ofProductions_eq_none_iff]
    exact hps

/-- Loading a grammar gives what the text says: a complaint about the first malformed
    line, by its number, if there is any; one about missing productions, if there are none;
    and otherwise the grammar with the productions in the text, in order. It has the given
    name, and answers all questions about its productions as they are in the text. -/
theorem load_eq_read (name t : Text) :
    match Format.read t with
    | .error number => ∃ fault rest, load name t = .error (.malformed name fault) ∧
        fault.line = number ∧
        (LoadFault.malformed name fault).text =
          "grammar " ++ Quoted.text name ++ ": grammar syntax error: " ++
            ("line " ++ Text.decimal number ++ ": " ++ rest)
    | .ok [] => load name t = .error (.empty name)
    | .ok (p :: ps) => ∃ g, load name t = .ok g ∧ g = ofProductions name (p :: ps) ∧
        g.name = name ∧ g.Holds (p :: ps) := by
  have hlines := Reading.ofLines_of_allSpell (Line.allSpell_split t) fun ts hts =>
    List.IsChain.infix (Token.isChain_scan t) ((Line.isInfix_of_mem_splitAt hts).map _)
  change match (Text.splitAt '\n'.toUInt8 t).findIdx? Format.isMalformed with
    | some i => ∃ fault, (Reading.ofText t).fault? = some fault ∧ fault.line = 1 + i
    | none => (Reading.ofText t).fault? = none ∧ (Reading.ofText t).productions = _ at hlines
  cases hfind : (Text.splitAt '\n'.toUInt8 t).findIdx? Format.isMalformed with
  | some i =>
    rw [hfind] at hlines
    rcases hlines with ⟨fault, hfault, hnumber⟩
    rw [Nat.add_comm 1 i] at hnumber
    have hread : Format.read t = .error (i + 1) := by simp only [Format.read, hfind]
    rw [hread]
    have htext : ∃ rest, fault.text = "line " ++ Text.decimal fault.line ++ ": " ++ rest := ⟨_, rfl⟩
    rcases htext with ⟨rest, htext⟩
    refine ⟨fault, rest, by simp only [load, hfault], hnumber, ?_⟩
    rw [LoadFault.text, htext, hnumber]
  | none =>
    rw [hfind] at hlines
    rcases hlines with ⟨hfault, hproductions⟩
    have hread : Format.read t = .ok (Reading.ofText t).productions := by
      simp only [Format.read, hfind, hproductions]
    rw [hread, load_of_fault?_eq_none name hfault]
    cases (Reading.ofText t).productions with
    | nil => exact if_pos rfl
    | cons p ps =>
      exact ⟨_, if_neg (List.cons_ne_nil p ps), rfl, name_ofProductions name (p :: ps),
        holds_ofProductions name (p :: ps)⟩

/-- Files in which a carriage return stands in front of a line feed, between a symbol and its
    alternatives, and at the end. The first one has no alternatives for `B`, and says more
    about `S` in its last line. The fault of the second one is in its fourth line. -/
example :
    (load "g" "S a|\r\n\nA\rb c||\nB\nS A").map
        (fun g => g.nonTerminals.map fun sym => (sym, g.expansions sym)) =
      .ok [("S", [["a"], [], ["A"]]), ("A", [["b", "c"], [], []])] ∧
    Format.read "S a\r\n \t\nA\nB|b\n|c\r" = .error 4 := by decide +kernel

end Grammar

end Derivations
