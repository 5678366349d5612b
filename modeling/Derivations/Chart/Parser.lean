import Derivations.Chart.StateSet
import Derivations.Collection.Queue
import Derivations.Grammar.Listing
import Derivations.Settings
import Derivations.Text.Quoted

/-!
# The Chart Parser

The parser finds the derivation trees of an input. It works through the input
from its end to its beginning and fills one state set for each position,
starting from the item for the start symbol anchored at the end.

At every position items are taken from a queue. An item that is not there yet
is added, and brings further items along:

* a finished item is completed, and its tree advances the items which wait for
  its left-hand side in the state set at its anchor;
* an unfinished item that waits for a non-terminal brings an item for each of
  its alternatives, anchored at the current position.

A completion can be anchored at the position itself, if the tree is empty. Then
items that come to wait for the same symbol only later would miss it, so empty
trees are kept, and an unfinished item is advanced at once by the empty trees
already known for its symbol.

The items that wait for a terminal are advanced when the parser moves on to the
position in front of it. Non-terminals in the input match nothing.

Since the partial parse is part of an item, every derivation shows up as an
item of its own. There may be infinitely many, so the parser limits the number
of items: it gives up on a position as soon as there are more than the limit
and the queue is not empty. What has been found until then is kept. The room
left at a position decreases with every item added, which is also why the work
at a position comes to an end.

## Main definitions

* `Parser`: A grammar with its start symbol and a limit.
* `Parser.of?`: The parser for a grammar.
* `Front`: The state set being filled and the empty trees known.
* `Parser.expand`: What an item brings along.
* `Parser.fill`: Works through the queue at a position.
* `Parser.extend`: Adds the state set in front of all others.
* `Parser.chart`: Fills the state sets of all positions.
* `Parser.parse`: The derivation trees of an input.
* `Parser.log`, `Outcome.log`: The messages left behind.
-/

namespace Derivations

/-- A grammar with the symbol to start from and the number of items a state set
    may have before it is cut off. -/
structure Parser where
  grammar : Grammar
  start : Symbol
  limit : Nat
deriving DecidableEq, Repr

/-- The result of a parse: the trees in the order in which they were found, and
    the chart. -/
structure Outcome where
  found : List MeasuredTree
  chart : Chart

/-- The trees that were found, in order. -/
def Outcome.trees (o : Outcome) : List Tree :=
  o.found.map (·.tree)

/-- Whether the parse has found all trees: no state set has been cut off. -/
def Outcome.full (o : Outcome) : Bool :=
  o.chart.isFull

/-- The state set that is being filled, and the empty trees found at its
    position so far. -/
structure Front where
  set : StateSet
  empties : OrderedSet MeasuredTree

namespace Parser

/-- The limit that holds unless another one is chosen. -/
def defaultLimit : Nat := 100

/-- The setting that chooses a limit for all parsers. -/
def limitSetting : Text := "earley-expansion-limit"

/-- The setting that turns on messages about every state set. -/
def traceSetting : Text := "earley-trace-states"

/-- A limit overridden by a choice. Choices below one are no choices. -/
def overrideLimit (limit : Nat) (choice : Int) : Nat :=
  if 0 < choice then choice.toNat else limit

/-- The parser for a grammar. The setting overrides the default limit, and the
    choices override the setting, the last one winning. A grammar without
    productions has no start symbol and so no parser. -/
def of? (g : Grammar) (settings : Settings) (choices : List Int) : Option Parser :=
  g.start?.map fun start =>
    { grammar := g
      start := start
      limit := choices.foldl overrideLimit (overrideLimit defaultLimit (settings.int limitSetting)) }

/-- The complaint about a grammar for which there is no parser. -/
def refusal : Text := "cannot create parser: " ++ noProductions

/-- The message that making a parser leaves behind. -/
def log (p : Parser) : Log :=
  Log.debug ("parser for grammar " ++ p.grammar.name ++ ", expansion limit " ++ Text.decimal p.limit)

/-- The same parser with one more production in its grammar. The start symbol
    stays. -/
def addProduction (p : Parser) (lhs : Symbol) (rhs : List Symbol) : Parser :=
  { p with grammar := p.grammar.add lhs rhs }

/-- Advances items by a tree. -/
def advanceAll (items : List Item) (t : MeasuredTree) : Except Fault (List Item) :=
  items.mapM (·.advance t)

/-- The items of a state set that wait for the input symbol in front of it,
    advanced by its leaf. -/
def scan (g : Grammar) (sym : Symbol) (next : StateSet) : Except Fault (List Item) :=
  if g.isNonTerminal sym then .ok [] else advanceAll (next.awaiting sym) (.leaf sym)

/-- The items at a position that wait for a symbol. The position is that of the
    set being filled, or one behind it; `later` holds the sets of those, from
    the last position to the first. -/
def waitingAt? (later : Array StateSet) (current : StateSet) (position : Int) (sym : Symbol) :
    Option (List Item) :=
  if position = current.position then some (current.awaiting sym)
  else if position < current.position then none
  else
    let distance := (position - current.position).toNat
    if distance ≤ later.size then later[later.size - distance]?.map (·.awaiting sym) else none

/-- What a finished item brings along: its tree advances the items that wait
    for its left-hand side at its anchor. A top item brings nothing. -/
def complete (later : Array StateSet) (f : Front) (item : Item) : Except Fault (Front × List Item) :=
  if item.isTop then .ok (f, [])
  else do
    let t ← item.complete
    let f' := if item.anchor = f.set.position then { f with empties := f.empties.insert t } else f
    match waitingAt? later f.set item.anchor item.lhs with
    | none => .error (.noStateSet item.anchor)
    | some waiting =>
      let advanced ← advanceAll waiting t
      return (f', advanced)

/-- The alternatives of a non-terminal as items anchored at a position. -/
def predict (g : Grammar) (sym : Symbol) (position : Int) : List Item :=
  (g.expansions sym).zipIdx.map fun (rhs, i) => .predicted sym i rhs position

/-- What an unfinished item brings along: the alternatives of the non-terminal
    it waits for, and its advances by the empty trees known for it. An item
    that waits for a terminal brings nothing. -/
def await (g : Grammar) (f : Front) (item : Item) : Except Fault (Front × List Item) := do
  let sym ← item.current
  if g.isNonTerminal sym then
    let known := f.empties.filter (·.symbol = sym)
    let advanced ← known.mapM item.advance
    return (f, predict g sym f.set.position ++ advanced)
  else
    return (f, [])

/-- What an item that has just been added brings along. -/
def expand (g : Grammar) (later : Array StateSet) (f : Front) (item : Item) :
    Except Fault (Front × List Item) :=
  if item.isFinished then complete later f item else await g f item

/-- Works through the queue at a position, `room` being the number of items
    that may still be added. Items that are there already are passed over; the
    first one that is not is added, and what it brings along joins the queue.
    Without room, a queue that is not empty cuts the set off. -/
def fill (g : Grammar) (later : Array StateSet) : Nat → Queue Item → Front → Except Fault StateSet
  | 0, queue, f => .ok (if queue.isEmpty then f.set else f.set.cutOff)
  | room + 1, queue, f =>
    match queue.next? f.set.contains with
    | none => .ok f.set
    | some (item, rest) => do
      let (f', found) ← expand g later { f with set := f.set.insert item } item
      fill g later room (rest.join found) f'

/-- The state set at a position, given the items to start with and the sets of
    the positions behind it. -/
def stateSet (p : Parser) (position : Int) (seeds : List Item) (later : Array StateSet) :
    Except Fault StateSet :=
  fill p.grammar later (p.limit + 1) (.ofList seeds) ⟨.empty position, .empty⟩

/-- Adds the state set of the position in front of all others, given the symbol
    of the input between them. -/
def extend (p : Parser) (sym : Symbol) (position : Nat) (later : Array StateSet) :
    Except Fault (Array StateSet) :=
  match later.back? with
  | none => .error (.noStateSet (position + 1 : Nat))
  | some next => do
    let seeds ← scan p.grammar sym next
    let s ← p.stateSet position seeds later
    return later.push s

/-- The chart for an input. -/
def chart (p : Parser) (input : List Symbol) : Except Fault Chart := do
  let final ← p.stateSet input.length [.top p.start input.length] #[]
  let sets ← input.zipIdx.foldrM (fun (sym, position) later => p.extend sym position later) #[final]
  return sets.toList.reverse

/-- The trees found by the finished top items of a chart, in order. -/
def harvest (c : Chart) : Except Fault (List MeasuredTree) :=
  match Chart.at? c 0 with
  | none => .error (.noStateSet 0)
  | some first => (first.toList.filter fun item => item.isTop && item.isFinished).mapM Item.completeTop

/-- The derivation trees of an input. -/
def parse (p : Parser) (input : List Symbol) : Except Fault Outcome := do
  let c ← p.chart input
  let found ← harvest c
  return ⟨found, c⟩

end Parser

namespace Outcome

/-- The messages about one position: a non-terminal in the input, a state set
    that has been cut off, and its items if they are asked for. -/
def positionLog (p : Parser) (trace : Bool) (sym? : Option Symbol) (s : StateSet) : Log :=
  (match sym? with
    | some sym =>
      if p.grammar.isNonTerminal sym then
        Log.debug ("input symbol " ++ Quoted.text sym ++ " is a non-terminal")
      else []
    | none => []) ++
  (if s.truncated then
    Log.info ("state set " ++ Text.integer s.position ++ " exceeds expansion limit of " ++
      Text.decimal p.limit)
  else []) ++
  (if trace then s.dump else [])

/-- The messages that a parse leaves behind, from the last position to the
    first, and one about its result. -/
def log (o : Outcome) (p : Parser) (settings : Settings) (input : List Symbol) : Log :=
  let trace := settings.bool Parser.traceSetting
  let positions := o.chart.zip (input.map some ++ [none])
  (positions.reverse.flatMap fun (s, sym?) => positionLog p trace sym? s) ++
    Log.info ("input of length " ++ Text.decimal input.length ++ ": " ++
      Text.decimal o.found.length ++ " derivation(s), truncated=" ++ Text.truth (!o.full))

end Outcome

end Derivations
