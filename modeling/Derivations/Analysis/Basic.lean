import Derivations.Analysis.BitRelation
import Derivations.Analysis.Settled
import Derivations.Collection.OrderedSet
import Derivations.Grammar.Listing

/-!
# Analysis of Grammars

What can be said about a grammar without looking at any input. A non-terminal
is reachable if derivations from the start symbol can get to it, productive if
it derives some sequence of terminals, nullable if it derives the empty
sequence, and cyclic if it derives itself.

Nullable are the symbols that can be settled by the rules, and productive those
which can be settled if terminals are left out. Reachable is what a search finds
that begins with the start symbol and goes on from every symbol to those in its
alternatives. For the fourth property, a symbol leads to its successors, those
it can be replaced by while everything beside them vanishes, and is cyclic if
it leads back to itself.

A cycle that is part of a derivation of a sentence can be repeated at will, so
a grammar with a cyclic symbol that is reachable and productive is reported as
infinitely ambiguous.

The parser does not depend on any of this; analyses are for readers.

## Main definitions

* `Grammar.reachable`, `Grammar.productive`, `Grammar.nullable`,
  `Grammar.cyclic`: The non-terminals with each property.
* `Grammar.successors`: What a symbol can be replaced by without a trace.
* `Analysis`: The properties of a grammar with productions.
* `Analysis.of?`: Analyses a grammar.
-/

namespace Derivations

namespace Grammar

/-- The non-terminals that occur in the alternatives of a symbol. -/
def mentioned (g : Grammar) (sym : Symbol) : List Symbol :=
  (g.expansions sym).flatMap (·.filter g.isNonTerminal)

/-- The non-terminals that derivations from `start` can get to. The search sees
    every non-terminal at most once, so their number bounds it. -/
def reachable (g : Grammar) (start : Symbol) : List Symbol :=
  (OrderedSet.empty.insert start |>.visit g.mentioned g.rules.length 0).1

/-- The non-terminals that derive some sequence of terminals. -/
def productive (g : Grammar) : List Symbol :=
  settled (g.rules.map fun r => (r.lhs, r.alternatives.map (·.filter g.isNonTerminal)))

/-- The non-terminals that derive the empty sequence. -/
def nullable (g : Grammar) : List Symbol :=
  settled (g.rules.map fun r => (r.lhs, r.alternatives))

/-- The symbols that may be left of an alternative when all others vanish. If
    all symbols can vanish, any of them may be left; if all but one can, it is
    that one, provided that it is no terminal; otherwise there is none. -/
def remnants (g : Grammar) (nullable rhs : List Symbol) : List Symbol :=
  match rhs.filter (!nullable.contains ·) with
  | [] => rhs
  | [sym] => if g.isNonTerminal sym then [sym] else []
  | _ => []

/-- The symbols a non-terminal can be replaced by while everything beside them
    vanishes. -/
def successors (g : Grammar) (nullable : List Symbol) (sym : Symbol) : List Symbol :=
  (g.expansions sym).flatMap (g.remnants nullable)

/-- The non-terminals that derive themselves. Only those which have successors
    can do so. -/
def cyclic (g : Grammar) : List Symbol :=
  let nullable := g.nullable
  let replaceable := (g.nonTerminals.map fun sym => (sym, g.successors nullable sym)).filter
    (!·.2.isEmpty)
  returning (replaceable.map (·.1)) fun sym => (replaceable.lookup sym).getD []

end Grammar

/-- The properties of a grammar that has productions. All lists of symbols are
    in byte order. -/
structure Analysis where
  grammar : Grammar
  start : Symbol
  reachable : List Symbol
  productive : List Symbol
  nullable : List Symbol
  cyclic : List Symbol
deriving DecidableEq, Repr

namespace Analysis

/-- Analyses a grammar. There is nothing to say about a grammar without
    productions. -/
def of? (g : Grammar) : Option Analysis :=
  g.start?.map fun start =>
    { grammar := g
      start := start
      reachable := Text.sort (g.reachable start)
      productive := Text.sort g.productive
      nullable := Text.sort g.nullable
      cyclic := Text.sort g.cyclic }

/-- The non-terminals that are not in a list, in byte order. -/
def others (a : Analysis) (listed : List Symbol) : List Symbol :=
  Text.sort (a.grammar.nonTerminals.filter (!listed.contains ·))

/-- The non-terminals that no derivation gets to. -/
def unreachable (a : Analysis) : List Symbol :=
  a.others a.reachable

/-- The non-terminals that derive no sequence of terminals. -/
def unrealizable (a : Analysis) : List Symbol :=
  a.others a.productive

/-- Whether some cyclic non-terminal is both reachable and productive. -/
def infinitelyAmbiguous (a : Analysis) : Bool :=
  a.cyclic.any fun sym => a.reachable.contains sym && a.productive.contains sym

/-- Whether some non-terminal is unreachable, unrealizable or cyclic. -/
def hasProblems (a : Analysis) : Bool :=
  !a.unreachable.isEmpty || !a.unrealizable.isEmpty || !a.cyclic.isEmpty

/-- Symbols between square brackets. -/
def listText (syms : List Symbol) : Text :=
  "[" ++ Text.words syms ++ "]"

/-- The message that analysing a grammar leaves behind. -/
def log (g : Grammar) : Log :=
  match of? g with
  | none => Log.error ("cannot analyse grammar: " ++ noProductions)
  | some a =>
    Log.debug ("grammar " ++ g.name ++ ": unreachable=" ++ listText a.unreachable ++
      ", unrealizable=" ++ listText a.unrealizable ++ ", nullable=" ++ listText a.nullable ++
      ", cyclic=" ++ listText a.cyclic)

end Analysis

end Derivations
