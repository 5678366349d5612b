import Derivations.Grammar.Basic
import Derivations.Digest.Md5

/-!
# Fingerprints

A fingerprint identifies the productions of a grammar independently of the
grammar's name. It is a digest of a text that spells the productions out: the
non-terminals in order of definition, and for each of them, in byte order of
its quoted form, its alternatives in order.

Symbols are put between quotation marks as they are; a quotation mark within a
symbol is not marked in any way.

## Main definitions

* `Grammar.canonical`: The text that spells the productions out.
* `Grammar.fingerprint`: The versioned digest of that text.
-/

namespace Derivations

namespace Grammar

/-- A symbol between quotation marks. -/
def quotedSymbol (sym : Symbol) : Text :=
  "\"" ++ sym ++ "\""

/-- A sequence between square brackets, separated by commas. -/
def bracketedList (parts : List Text) : Text :=
  "[" ++ List.intercalate "," parts ++ "]"

/-- The alternatives of a rule behind its quoted symbol. -/
def canonicalRule (r : Rule) : Text :=
  quotedSymbol r.lhs ++ ":" ++
    bracketedList (r.alternatives.map fun rhs => bracketedList (rhs.map quotedSymbol))

/-- The rules in byte order of their quoted symbols. -/
def sortedRules (g : Grammar) : List Rule :=
  g.rules.mergeSort fun r s => decide (quotedSymbol r.lhs ≤ quotedSymbol s.lhs)

/-- The text that spells the productions out. -/
def canonical (g : Grammar) : Text :=
  "\x7bOrder:" ++ bracketedList (g.nonTerminals.map quotedSymbol) ++
    ",Rules:" ++ bracketedList (g.sortedRules.map canonicalRule) ++ "\x7d"

/-- The versioned digest of the productions. -/
def fingerprint (g : Grammar) : Text :=
  "v1_" ++ Md5.hexDigest g.canonical

end Grammar

end Derivations
