import Derivations.Tree.Measured
import Derivations.Collection.OrderedSet

/-!
# Chart Items

A chart item is a production together with the progress made in finding its
right-hand side in the input. Parsing goes from the end of the input to its
beginning, so the dot that marks the progress starts at the right end of the
right-hand side and moves left, one symbol at a time. The trees for the symbols
right of the dot are the partial parse; moving the dot puts a tree in front of
it, so the trees are always in reading order. The anchor is the input position
at which the right-hand side ends.

The item at the very top stands for a rule that is not part of the grammar and
leads to the start symbol. It is recognised by the number of its alternative,
so the name of its left-hand side may be used by the grammar as well.

Two items are the same if they agree in left-hand side, alternative, dot,
anchor and partial parse. The right-hand side follows from the first two as
long as all items belong to one grammar, and is not compared.

## Main definitions

* `Item`: A production with its progress.
* `Item.predicted`, `Item.top`: Items without any progress.
* `Item.advance`: Progress by one symbol.
* `Item.complete`, `Item.completeTop`: The tree of a finished item.
* `Item.same`: Comparison guided by the hash.
* `Fault`: What can go wrong with items.
-/

namespace Derivations

/-- The hash of the parts that make up the identity of an item, numbers
    counting modulo 2^64. -/
def itemHash (lhs : Symbol) (alternative : Int) (dot : Nat) (anchor : Int)
    (parsedHash : UInt64) : UInt64 :=
  23 * Fnv.hash lhs + 29 * (Int64.ofInt (alternative + 1)).toUInt64 + 19 * UInt64.ofNat dot +
    13 * (Int64.ofInt anchor).toUInt64 + 37 * parsedHash

/-- A production with the progress made in finding its right-hand side. -/
structure Item where
  lhs : Symbol
  alternative : Int
  rhs : List Symbol
  dot : Nat
  /-- The symbols left of the dot, from right to left. -/
  awaited : List Symbol
  anchor : Int
  parsed : Chain MeasuredTree
  hash : UInt64
  dot_le : dot ≤ rhs.length
  awaited_eq : awaited = (rhs.take dot).reverse
  hash_eq : hash = itemHash lhs alternative dot anchor parsed.hash

/-- What can go wrong with items and charts. None of it happens in a parse. -/
inductive Fault where
  /-- A finished item is to be advanced. -/
  | advancingFinished (item : Item)
  /-- A finished item is asked for the symbol it waits for. -/
  | currentOfFinished (item : Item)
  /-- An unfinished item is to be completed. -/
  | completingUnfinished (item : Item)
  /-- A finished top item holds more or less than one tree. -/
  | topTreeCount (item : Item)
  /-- A finished top item holds a leaf. -/
  | topLeaf (item : Item)
  /-- There is no state set for a position. -/
  | noStateSet (position : Int)

namespace Item

/-- The number that marks the rule above the start symbol. -/
def topAlternative : Int := -1

/-- The left-hand side of the rule above the start symbol, as it is shown. -/
def topSymbol : Symbol := "Start"

/-- An item without progress for an alternative, anchored at a position. -/
def predicted (lhs : Symbol) (alternative : Int) (rhs : List Symbol) (anchor : Int) : Item where
  lhs := lhs
  alternative := alternative
  rhs := rhs
  dot := rhs.length
  awaited := rhs.reverse
  anchor := anchor
  parsed := .empty
  hash := itemHash lhs alternative rhs.length anchor Chain.emptyHash
  dot_le := Nat.le_refl _
  awaited_eq := by rw [List.take_length]
  hash_eq := rfl

/-- The item without progress for the rule above the start symbol. -/
def top (start : Symbol) (anchor : Int) : Item :=
  predicted topSymbol topAlternative [start] anchor

instance : Inhabited Item := ⟨top [] 0⟩

/-- Whether the item belongs to the rule above the start symbol. -/
def isTop (item : Item) : Bool :=
  item.alternative == topAlternative

/-- Whether the dot has arrived at the left end. -/
def isFinished (item : Item) : Bool :=
  item.dot == 0

/-- Whether the item is finished and has the given left-hand side. -/
def isFinishedAs (item : Item) (lhs : Symbol) : Bool :=
  item.isFinished && item.lhs == lhs

/-- The symbol just left of the dot, if there is one. -/
def current? (item : Item) : Option Symbol :=
  item.awaited.head?

/-- The symbol just left of the dot has its place in the right-hand side. -/
theorem current?_eq_getElem? (item : Item) :
    item.current? = if item.dot = 0 then none else item.rhs[item.dot - 1]? := by
  rw [current?, item.awaited_eq, List.head?_reverse]
  rcases Nat.eq_zero_or_pos item.dot with h | h
  · simp [h]
  · rw [List.getLast?_take, if_neg (Nat.ne_of_gt h), if_neg (Nat.ne_of_gt h)]
    rw [List.getElem?_eq_getElem (Nat.lt_of_lt_of_le (Nat.sub_lt h Nat.one_pos) item.dot_le)]
    rfl

/-- Whether a symbol stands just left of the dot. -/
def awaits (item : Item) (sym : Symbol) : Bool :=
  item.current? == some sym

/-- The symbol just left of the dot. A finished item has none. -/
def current (item : Item) : Except Fault Symbol :=
  match item.current? with
  | some sym => .ok sym
  | none => .error (.currentOfFinished item)

/-- Moves the dot over one symbol, taking its tree into the partial parse. A
    finished item cannot be advanced. -/
def advance (item : Item) (t : MeasuredTree) : Except Fault Item :=
  if item.dot = 0 then .error (.advancingFinished item)
  else
    .ok {
      lhs := item.lhs
      alternative := item.alternative
      rhs := item.rhs
      dot := item.dot - 1
      awaited := item.awaited.tail
      anchor := item.anchor
      parsed := item.parsed.cons t
      hash := itemHash item.lhs item.alternative (item.dot - 1) item.anchor (item.parsed.cons t).hash
      dot_le := Nat.le_trans (Nat.sub_le _ _) item.dot_le
      awaited_eq := by
        rw [item.awaited_eq, List.tail_reverse, List.dropLast_eq_take, List.length_take,
          Nat.min_eq_left item.dot_le, List.take_take, Nat.min_eq_left (Nat.sub_le _ _)]
      hash_eq := rfl }

/-- The tree of a finished item: its left-hand side over its partial parse. -/
def complete (item : Item) : Except Fault MeasuredTree :=
  if item.isFinished then .ok (.node item.lhs item.parsed)
  else .error (.completingUnfinished item)

/-- The tree that a finished top item has found: the only tree of its partial
    parse, which has to be a node. -/
def completeTop (item : Item) : Except Fault MeasuredTree :=
  if item.isFinished then
    match item.parsed.items with
    | [t] => if t.tree.isLeaf then .error (.topLeaf item) else .ok t
    | _ => .error (.topTreeCount item)
  else
    .error (.completingUnfinished item)

/-- Comparison by left-hand side, alternative, dot, anchor and partial parse,
    which looks at the hashes first. -/
def same (i j : Item) : Bool :=
  i.hash == j.hash && i.anchor == j.anchor && i.dot == j.dot &&
    i.alternative == j.alternative && i.lhs == j.lhs && i.parsed == j.parsed

instance : BEq Item := ⟨same⟩

instance : Hashable Item := ⟨Item.hash⟩

/-- The written form, such as `(S -> a.Sb, 3)`: the symbols still awaited, the
    dot, the symbols found, and the anchor. -/
def text (item : Item) : Text :=
  "(" ++ item.lhs ++ " -> " ++ item.awaited.reverse.flatten ++ "." ++
    item.parsed.items.flatMap (·.symbol) ++ ", " ++ Text.integer item.anchor ++ ")"

end Item

/-- The fault in words. A missing state set has none. -/
def Fault.text? : Fault → Option Text
  | advancingFinished item => some ("earley: advancing finished item " ++ item.text)
  | currentOfFinished item => some ("earley: current symbol of finished item " ++ item.text)
  | completingUnfinished item => some ("earley: completing unfinished item " ++ item.text)
  | topTreeCount item =>
    some ("earley: top item " ++ item.text ++ " has " ++ Text.decimal item.parsed.length ++ " trees")
  | topLeaf item => some ("earley: top item " ++ item.text ++ " holds a terminal")
  | noStateSet _ => none

end Derivations
