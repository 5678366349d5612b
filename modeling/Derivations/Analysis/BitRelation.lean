/-!
# Finite Relations

A relation among numbers is given by rows: the bits of row `i` tell which
numbers `i` is related to. Relating every number to whatever it leads to takes
one step for every number `k`: whoever is related to `k` becomes related to all
that `k` is related to. A step treats the bits of a row all at once, and has
nothing to do if `k` is related to none.

Elements of a list are related by their places in it.

## Main definitions

* `BitRelation`: Rows of bits.
* `BitRelation.row`: The row with bits at given places.
* `BitRelation.through`: Connects what is related by way of a number.
* `BitRelation.transitive`: Connects by way of all numbers.
* `returning`: The elements of a list that lead back to themselves.

## Theorems

* `BitRelation.testBit_row`: What the bits of a row are.
* `BitRelation.holds_through`: What connecting by way of a number adds.
-/

namespace Derivations

/-- A relation among numbers: bit `j` of row `i` tells whether `i` is related
    to `j`. -/
structure BitRelation where
  rows : List Nat
deriving DecidableEq, Repr

namespace BitRelation

/-- Whether a number is related to another. -/
def holds (r : BitRelation) (i j : Nat) : Bool :=
  (r.rows.getD i 0).testBit j

/-- The row with bits at the given places. -/
def row : List Nat → Nat
  | [] => 0
  | place :: rest => 1 <<< place ||| row rest

/-- A relation in which whoever is related to `k` is related to all that `k` is
    related to. -/
def through (r : BitRelation) (k : Nat) : BitRelation :=
  let via := r.rows.getD k 0
  if via = 0 then r
  else ⟨r.rows.map fun row => if row.testBit k then row ||| via else row⟩

/-- A relation in which everything is related to all that it leads to. -/
def transitive (r : BitRelation) : BitRelation :=
  (List.range r.rows.length).foldl through r

/-- The bits of a row are at the places it was made of. -/
theorem testBit_row (places : List Nat) (j : Nat) :
    (row places).testBit j = decide (j ∈ places) := by
  induction places with
  | nil => simp [row]
  | cons place rest ih =>
    rw [row, Nat.testBit_or, Nat.one_shiftLeft, Nat.testBit_two_pow, ih]
    simp [List.mem_cons, eq_comm]

/-- Connecting by way of a number relates two numbers if they were related
    before, or if the first was related to it and it to the second. -/
theorem holds_through (r : BitRelation) (k i j : Nat) :
    (r.through k).holds i j = (r.holds i j || r.holds i k && r.holds k j) := by
  rw [through]
  split
  · rename_i h
    simp only [holds, h, Nat.zero_testBit, Bool.and_false, Bool.or_false]
  · simp only [holds, List.getD_eq_getElem?_getD, List.getElem?_map]
    cases r.rows[i]? with
    | none => simp
    | some row =>
      cases h : row.testBit k <;> simp [h, Nat.testBit_or]

end BitRelation

/-- The elements of a list that lead back to themselves, `next` giving those an
    element leads to in one step. -/
def returning {α : Type} [BEq α] (elements : List α) (next : α → List α) : List α :=
  let direct : BitRelation :=
    ⟨elements.map fun a => BitRelation.row ((next a).filterMap (elements.idxOf? ·))⟩
  (elements.zip direct.transitive.rows).zipIdx.filterMap fun ((a, row), place) =>
    if row.testBit place then some a else none

end Derivations
