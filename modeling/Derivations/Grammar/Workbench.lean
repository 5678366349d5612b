import Derivations.Grammar.Listing
import Derivations.Text.Quoted

/-!
# Building Grammars Step by Step

A workbench is where grammars are put together from drafts of productions. A
draft belongs to the grammar that was being built when it was begun; symbols
are added to it one after the other, and committing it adds a production with
all symbols collected so far. A draft can be continued and committed again.
Committing it as an ε-production leaves its symbols aside, but does not forget
them.

Beside the grammar that drafts are begun for, one grammar is the current one,
which productions can be added to directly. It may be the very grammar that
drafts belong to; then what is added to it in one way shows in the other. There
may also be no current grammar at all.

## Main definitions

* `Draft`: A production to be.
* `Workbench`: The grammars under construction and the drafts for them.
* `Workbench.begin`, `Workbench.extend`, `Workbench.commit`,
  `Workbench.commitEmpty`: The life of a draft.
* `Workbench.adopt`: Makes the grammar under construction the current one.
-/

namespace Derivations

/-- A production to be, for one of the grammars on a workbench. -/
structure Draft where
  home : Nat
  lhs : Symbol
  rhs : List Symbol
deriving DecidableEq, Repr

/-- The grammars under construction, in the order in which they were begun, and
    the drafts for them by their names. -/
structure Workbench where
  grammars : List Grammar
  /-- The number of the grammar that new drafts belong to. -/
  building : Nat
  /-- The number of the current grammar. -/
  current? : Option Nat
  drafts : List (Text × Draft)

namespace Workbench

/-- A workbench with an empty grammar to begin drafts for and another one as the
    current grammar. -/
def start (name : Text) : Workbench :=
  ⟨[.empty name, .empty name], 0, some 1, []⟩

/-- The draft with the given name. -/
def draft? (w : Workbench) (name : Text) : Option Draft :=
  w.drafts.lookup name

/-- Puts a draft in place of an older one with the same name. -/
def setDraft (w : Workbench) (name : Text) (d : Draft) : Workbench :=
  { w with drafts := (name, d) :: w.drafts.filter (·.1 ≠ name) }

/-- Adds a production to the grammar with the given number. -/
def addTo (w : Workbench) (home : Nat) (lhs : Symbol) (rhs : List Symbol) : Workbench :=
  { w with grammars := w.grammars.modify home (·.add lhs rhs) }

/-- Begins a new grammar for the drafts to come. -/
def newBuilding (w : Workbench) (name : Text) : Workbench :=
  { w with grammars := w.grammars ++ [.empty name], building := w.grammars.length }

/-- Begins a new current grammar. -/
def newCurrent (w : Workbench) (name : Text) : Workbench :=
  { w with grammars := w.grammars ++ [.empty name], current? := some w.grammars.length }

/-- Puts the current grammar away. -/
def dropCurrent (w : Workbench) : Workbench :=
  { w with current? := none }

/-- Begins a draft for a left-hand side. -/
def begin (w : Workbench) (name : Text) (lhs : Symbol) : Workbench :=
  w.setDraft name ⟨w.building, lhs, []⟩

/-- Adds symbols to a draft, if there is one with that name. -/
def extend (w : Workbench) (name : Text) (syms : List Symbol) : Option Workbench := do
  let d ← w.draft? name
  return w.setDraft name { d with rhs := d.rhs ++ syms }

/-- Adds the production of a draft to the grammar it belongs to. -/
def commit (w : Workbench) (name : Text) : Option Workbench := do
  let d ← w.draft? name
  return w.addTo d.home d.lhs d.rhs

/-- Adds an ε-production for the left-hand side of a draft. -/
def commitEmpty (w : Workbench) (name : Text) : Option Workbench := do
  let d ← w.draft? name
  return w.addTo d.home d.lhs []

/-- The grammar that new drafts belong to. -/
def buildingGrammar (w : Workbench) : Grammar :=
  w.grammars.getD w.building default

/-- The current grammar. -/
def current (w : Workbench) : Option Grammar :=
  w.current?.map fun i => w.grammars.getD i default

/-- Makes the grammar that new drafts belong to the current one. A grammar
    without productions is refused. -/
def adopt (w : Workbench) : Except Text Workbench :=
  let g := w.buildingGrammar
  if g.start?.isNone then .error ("grammar " ++ Quoted.text g.name ++ ": " ++ noProductions)
  else .ok { w with current? := some w.building }

/-- Changes the current grammar, if there is one. -/
def modifyCurrent (w : Workbench) (change : Grammar → Grammar) : Option Workbench := do
  let i ← w.current?
  return { w with grammars := w.grammars.modify i change }

end Workbench

end Derivations
