import Derivations.Grammar.Basic
import Derivations.Log

/-!
# Written Productions

How productions are written for readers: an arrow behind the left-hand side,
symbols separated by blanks, `ε` for an empty right-hand side, and bars
between the alternatives of a rule.

## Main definitions

* `productionText`: A single production.
* `Rule.text`: A rule with all its alternatives.
* `Grammar.text`: All rules, one on each line.
* `Grammar.dump`: Messages that list all productions by number.
-/

namespace Derivations

/-- The complaint about a grammar without productions, which has no start
    symbol. -/
def noProductions : Text := "grammar has no productions"

/-- A right-hand side, `ε` if it is empty. -/
def rhsText (rhs : List Symbol) : Text :=
  if rhs.isEmpty then "ε" else Text.words rhs

/-- A single production, such as `S → a S b`. -/
def productionText (lhs : Symbol) (rhs : List Symbol) : Text :=
  lhs ++ " → " ++ rhsText rhs

/-- A rule with all its alternatives, such as `S → a S b | ε`. -/
def Rule.text (r : Rule) : Text :=
  r.lhs ++ " → " ++ List.intercalate " | " (r.alternatives.map rhsText)

namespace Grammar

/-- The rules as texts, in order of definition. -/
def listing (g : Grammar) : List Text :=
  g.rules.map Rule.text

/-- All rules, one on each line. -/
def text (g : Grammar) : Text :=
  g.listing.flatMap (· ++ "\n")

/-- Messages that list all productions by number. -/
def dump (g : Grammar) : Log :=
  Log.debug ("--- grammar " ++ g.name ++ " -----------------------------") ++
    (g.productions.zipIdx.flatMap fun (p, n) =>
      Log.debug ((Text.decimal n).leftpad 3 ' '.toUInt8 ++ ": " ++ productionText p.lhs p.rhs)) ++
    Log.debug "----------------------------------------------"

end Grammar

end Derivations
