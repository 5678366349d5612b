import Derivations.Chart.Item
import Derivations.Log

/-!
# State Sets

A state set holds the items whose part of the input begins at a position, in
the order in which the parser found them. The parser may give up on a position
when it has found too many items there; the state set remembers that it has
been cut off.

A chart is a sequence of state sets for consecutive positions.

## Main definitions

* `StateSet`: The items at a position.
* `StateSet.insert`: Adds an item.
* `StateSet.awaiting`: The items that wait for a symbol.
* `StateSet.text`, `StateSet.lines`, `StateSet.dump`: Its written forms.
* `Chart`: State sets of consecutive positions.
* `Chart.at?`: The state set at a position.
* `Chart.chunks`: The chart as it is printed, piece by piece.

## Theorems

* `StateSet.toList_insert`: An item that is added is found behind all others.
* `StateSet.awaiting_eq_filter`: The items that wait for a symbol are found in
  their order.
-/

namespace Derivations

/-- The items whose part of the input begins at a position. Beside them, a
    search tree holds the unfinished ones by the hash of the symbol they wait
    for, the last one first, so that whoever looks for the items which wait for
    a symbol need not look at all others. -/
structure StateSet where
  position : Int
  items : OrderedSet Item
  waiting : Std.TreeMap UInt64 (List Item)
  /-- Whether the parser stopped looking before all items were found. -/
  truncated : Bool
  waiting_eq : ∀ sym, (waiting.getD (Fnv.hash sym) []).filter (·.awaits sym) =
    (items.toList.filter (·.awaits sym)).reverse

namespace StateSet

/-- The state set without items. -/
def empty (position : Int) : StateSet :=
  ⟨position, .empty, .empty, false, fun _ => by simp⟩

instance : Inhabited StateSet := ⟨empty 0⟩

/-- The items in the order in which they were found. -/
def toList (s : StateSet) : List Item :=
  s.items.toList

/-- The number of items. -/
def size (s : StateSet) : Nat :=
  s.items.size

/-- Whether an item is present. -/
def contains (s : StateSet) (item : Item) : Bool :=
  s.items.contains item

/-- Items by the hash of the symbol they wait for, with one more item. -/
def file (waiting : Std.TreeMap UInt64 (List Item)) (item : Item) :
    Std.TreeMap UInt64 (List Item) :=
  match item.current? with
  | none => waiting
  | some sym => waiting.insert (Fnv.hash sym) (item :: waiting.getD (Fnv.hash sym) [])

/-- The item that is filed is found under the symbol it waits for, and under no
    other. -/
theorem filter_getD_file (waiting : Std.TreeMap UInt64 (List Item)) (item : Item) (sym : Symbol) :
    ((file waiting item).getD (Fnv.hash sym) []).filter (·.awaits sym) =
      [item].filter (·.awaits sym) ++
        (waiting.getD (Fnv.hash sym) []).filter (·.awaits sym) := by
  rw [file]
  cases h : item.current? with
  | none => simp [Item.awaits, h]
  | some c =>
    rw [Std.TreeMap.getD_insert]
    split
    · rename_i heq
      rw [Std.LawfulEqCmp.eq_of_compare heq, ← List.filter_append]
      rfl
    · rename_i hne
      have hc : item.awaits sym = false := by
        rw [Item.awaits, h, beq_eq_false_iff_ne]
        intro hs
        rw [Option.some.inj hs] at hne
        exact hne Std.ReflCmp.compare_self
      simp [hc]

/-- Adds an item unless it is present. -/
def insert (s : StateSet) (item : Item) : StateSet :=
  if h : s.items.contains item then s
  else
    { s with
      items := s.items.insert item
      waiting := file s.waiting item
      waiting_eq := fun sym => by
        rw [filter_getD_file, s.waiting_eq, OrderedSet.toList_insert, if_neg h,
          List.filter_append, List.reverse_append]
        cases hc : item.awaits sym <;> simp [hc] }

/-- The items that wait for a symbol. -/
def awaiting (s : StateSet) (sym : Symbol) : List Item :=
  ((s.waiting.getD (Fnv.hash sym) []).filter (·.awaits sym)).reverse

/-- The items that wait for a symbol are found in their order. -/
theorem awaiting_eq_filter (s : StateSet) (sym : Symbol) :
    s.awaiting sym = s.toList.filter (·.awaits sym) := by
  rw [awaiting, s.waiting_eq, List.reverse_reverse, toList]

/-- An item that is added is found behind all others. -/
theorem toList_insert (s : StateSet) (item : Item) :
    (s.insert item).toList = if s.contains item then s.toList else s.toList ++ [item] := by
  rw [insert]
  by_cases h : s.items.contains item = true
  · simp [h, contains]
  · simp [h, contains, toList, OrderedSet.toList_insert]

/-- The state set cut off. -/
def cutOff (s : StateSet) : StateSet :=
  { s with truncated := true }

/-- The items between braces, separated by commas. -/
def text (s : StateSet) : Text :=
  let items := List.intercalate ", " (s.toList.map Item.text)
  if s.toList.isEmpty then "\x7b \x7d" else "\x7b " ++ items ++ " \x7d"

/-- The state set as it is printed: a heading, a line for every item, and an
    empty line. -/
def lines (s : StateSet) : List Text :=
  ("State " ++ Text.integer s.position ++ ":\n") :: s.toList.map (·.text ++ "\n") ++
    [Text.ofString "\n"]

/-- A number filled up on the left to the given width. -/
def padded (fill : Char) (width : Nat) (n : Nat) : Text :=
  (Text.decimal n).leftpad width fill.toUInt8

/-- Messages that list the items by number. -/
def dump (s : StateSet) : Log :=
  Log.debug ("--- State " ++ padded '0' 4 s.position.toNat ++
      " ------------------------------------") ++
    s.toList.zipIdx.flatMap fun (item, i) =>
      Log.debug ("[" ++ padded ' ' 2 (i + 1) ++ "] " ++ item.text)

end StateSet

/-- State sets of consecutive positions, lowest position first. -/
abbrev Chart := List StateSet

namespace Chart

/-- The state set at a position. -/
def at? (c : Chart) (position : Int) : Option StateSet :=
  c.find? (·.position == position)

/-- Whether no state set has been cut off. -/
def isFull (c : Chart) : Bool :=
  c.all (!·.truncated)

/-- The chart as it is printed, piece by piece. -/
def chunks (c : Chart) : List Text :=
  c.flatMap StateSet.lines

/-- The chart as it is printed. -/
def text (c : Chart) : Text :=
  c.chunks.flatten

end Chart

end Derivations
