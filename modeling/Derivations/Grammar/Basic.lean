import Derivations.Symbol

/-!
# Grammars

A context-free grammar is a sequence of rules. A rule has a symbol on its left
and one or more alternatives for it, each a sequence of symbols; the empty
sequence is an ε-production. The symbols on the left of rules are the
non-terminals and all others are terminals, so adding a production may turn a
terminal into a non-terminal. The first rule gives the start symbol.

A grammar grows one production at a time. A production for a symbol that has a
rule already is added to it as a further alternative, even if it repeats one;
other productions begin a rule of their own behind all others. So no symbol
ever has two rules and no rule is ever without alternatives, and the type says
so.

## Main definitions

* `Rule`: A symbol with its alternatives.
* `Grammar`: Rules for distinct symbols, in order of definition.
* `Grammar.add`: Adds a production.
* `Grammar.start?`: The start symbol.
* `Grammar.expansions`: The alternatives for a symbol.
* `Grammar.productions`: All productions, rule by rule.
* `Grammar.terminals`: The terminals in order of first occurrence.

## Theorems

* `Grammar.nonTerminals_add`: What adding a production does to the
  non-terminals.
* `Grammar.expansions_add`: What it does to the alternatives of a symbol.
-/

namespace Derivations

/-- A symbol with its alternatives, of which there is at least one. -/
structure Rule where
  lhs : Symbol
  alternatives : List (List Symbol)
  nonempty : alternatives ≠ []
deriving DecidableEq, Repr

/-- A production: an alternative for a symbol, numbered within its rule. -/
structure Production where
  lhs : Symbol
  index : Nat
  rhs : List Symbol
deriving DecidableEq, Repr

namespace Rule

/-- The rule with a single alternative. -/
def single (lhs : Symbol) (rhs : List Symbol) : Rule :=
  ⟨lhs, [rhs], List.cons_ne_nil _ _⟩

/-- A rule with one more alternative behind the others. -/
def extend (r : Rule) (rhs : List Symbol) : Rule :=
  ⟨r.lhs, r.alternatives ++ [rhs], List.append_ne_nil_of_right_ne_nil _ (List.cons_ne_nil _ _)⟩

/-- The productions of a rule. -/
def productions (r : Rule) : List Production :=
  r.alternatives.zipIdx.map fun (rhs, i) => ⟨r.lhs, i, rhs⟩

end Rule

/-- Rules for distinct symbols, in order of definition, under a name that has
    no influence on what they derive. -/
structure Grammar where
  name : Text
  rules : List Rule
  distinct : (rules.map (·.lhs)).Nodup
deriving DecidableEq, Repr

namespace Grammar

/-- The grammar without rules. -/
def empty (name : Text) : Grammar :=
  ⟨name, [], List.nodup_nil⟩

instance : Inhabited Grammar := ⟨empty []⟩

/-- Rules with one more production. -/
def addTo (lhs : Symbol) (rhs : List Symbol) : List Rule → List Rule
  | [] => [Rule.single lhs rhs]
  | r :: rest => if r.lhs = lhs then r.extend rhs :: rest else r :: addTo lhs rhs rest

/-- Adding a production adds its left-hand side behind the others, unless it is
    among them. -/
theorem map_lhs_addTo (lhs : Symbol) (rhs : List Symbol) (rs : List Rule) :
    (addTo lhs rhs rs).map (·.lhs) =
      if lhs ∈ rs.map (·.lhs) then rs.map (·.lhs) else rs.map (·.lhs) ++ [lhs] := by
  induction rs with
  | nil => rfl
  | cons r rest ih =>
    by_cases h : r.lhs = lhs
    · simp [addTo, h, Rule.extend]
    · by_cases hr : lhs ∈ rest.map (·.lhs)
      · simp [addTo, h, ih, hr]
      · simp [addTo, h, Ne.symm h, ih, hr]

/-- Adds a production. -/
def add (g : Grammar) (lhs : Symbol) (rhs : List Symbol) : Grammar where
  name := g.name
  rules := addTo lhs rhs g.rules
  distinct := by
    rw [map_lhs_addTo]
    split
    · exact g.distinct
    · rename_i h
      exact List.nodup_append.2 ⟨g.distinct, List.pairwise_singleton _ _, by
        intro a ha b hb
        rw [List.mem_singleton.1 hb]
        exact fun e => h (e ▸ ha)⟩

/-- The grammar with the given productions, added in order. -/
def ofProductions (name : Text) (ps : List (Symbol × List Symbol)) : Grammar :=
  ps.foldl (fun g (lhs, rhs) => g.add lhs rhs) (empty name)

/-- The same rules under another name. -/
def rename (g : Grammar) (name : Text) : Grammar :=
  ⟨name, g.rules, g.distinct⟩

/-- The start symbol: the first symbol that was given a production. -/
def start? (g : Grammar) : Option Symbol :=
  g.rules.head?.map (·.lhs)

/-- The non-terminals in order of definition. -/
def nonTerminals (g : Grammar) : List Symbol :=
  g.rules.map (·.lhs)

/-- The rule for a symbol. -/
def rule? (g : Grammar) (sym : Symbol) : Option Rule :=
  g.rules.find? (·.lhs = sym)

/-- The alternatives for a symbol, none for a terminal. -/
def expansions (g : Grammar) (sym : Symbol) : List (List Symbol) :=
  match g.rule? sym with
  | some r => r.alternatives
  | none => []

/-- Adding a production adds its left-hand side behind the other non-terminals,
    unless it is one of them. -/
theorem nonTerminals_add (g : Grammar) (lhs : Symbol) (rhs : List Symbol) :
    (g.add lhs rhs).nonTerminals =
      if lhs ∈ g.nonTerminals then g.nonTerminals else g.nonTerminals ++ [lhs] :=
  map_lhs_addTo lhs rhs g.rules

/-- The rule for a symbol changes only if the symbol is given a production, and
    then by one more alternative. -/
theorem find?_addTo (lhs : Symbol) (rhs : List Symbol) (sym : Symbol) (rs : List Rule) :
    (addTo lhs rhs rs).find? (·.lhs = sym) =
      if sym = lhs then
        some (((rs.find? (·.lhs = lhs)).map (·.extend rhs)).getD (Rule.single lhs rhs))
      else rs.find? (·.lhs = sym) := by
  induction rs with
  | nil =>
    by_cases h : sym = lhs
    · simp [addTo, Rule.single, h]
    · simp [addTo, Rule.single, h, Ne.symm h]
  | cons r rest ih =>
    by_cases hr : r.lhs = lhs
    · by_cases h : sym = lhs
      · simp [addTo, hr, h, Rule.extend]
      · simp [addTo, hr, h, Ne.symm h, Rule.extend]
    · by_cases h : sym = lhs
      · subst h
        simp only [addTo, hr, if_false, List.find?_cons, decide_false, ih, if_true]
      · by_cases hs : r.lhs = sym
        · simp [addTo, h, hs]
        · simp only [addTo, hr, if_false, List.find?_cons, hs, decide_false, ih, h]

/-- A production becomes the last alternative of its left-hand side and does
    not touch any other symbol. -/
theorem expansions_add (g : Grammar) (lhs : Symbol) (rhs : List Symbol) (sym : Symbol) :
    (g.add lhs rhs).expansions sym =
      if sym = lhs then g.expansions lhs ++ [rhs] else g.expansions sym := by
  simp only [expansions, rule?, add, find?_addTo]
  by_cases h : sym = lhs
  · simp only [h, if_true]
    cases g.rules.find? (·.lhs = lhs) <;> simp [Rule.single, Rule.extend]
  · simp only [h, if_false]

/-- Whether a symbol has a rule. -/
def isNonTerminal (g : Grammar) (sym : Symbol) : Bool :=
  (g.rule? sym).isSome

/-- All productions, rule by rule. -/
def productions (g : Grammar) : List Production :=
  g.rules.flatMap Rule.productions

/-- The number of productions. -/
def size (g : Grammar) : Nat :=
  g.productions.length

/-- The terminals on right-hand sides, each once, in order of first
    occurrence. -/
def terminals (g : Grammar) : List Symbol :=
  ((g.productions.flatMap (·.rhs)).filter (!g.isNonTerminal ·)).eraseDups

end Grammar

end Derivations
