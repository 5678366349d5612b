import Derivations.Text.Basic

/-!
# Chains

A chain is a list that knows its length and its hash. Chart items keep their
partial parses in chains: putting an element in front of a chain shares the
rest with every other chain that has it, and comparing two chains looks at
their lengths and hashes before it looks at any element.

The two attributes are determined by the elements, and the type says so. They
are computed once, when an element is put in front, and never again.

## Main definitions

* `Chain.listHash`: The hash of a list of elements.
* `Chain`: A list with its length and hash.
* `Chain.cons`: Puts an element in front.
* `Chain.ofList`: The chain of given elements.
* `Chain.same`: Comparison guided by length and hash.
* `Chain.rounds`: What repeated iterations see that are broken off and resumed.

## Theorems

* `Chain.items_ofList`: A chain holds the elements it was made of.
* `Chain.length_ofList`, `Chain.hash_ofList`: Its attributes are theirs.
-/

namespace Derivations

namespace Chain

/-- The hash of the empty list. It is not zero, which sets the empty list
    apart from a list whose only element hashes to zero. -/
def emptyHash : UInt64 := 1

/-- The hash of a list of elements, front element last. -/
def listHash {α : Type u} [Hashable α] : List α → UInt64
  | [] => emptyHash
  | a :: rest => hash a + 31 * listHash rest

end Chain

/-- A list that knows its length and its hash. -/
structure Chain (α : Type u) [Hashable α] where
  items : List α
  length : Nat
  hash : UInt64
  length_eq : length = items.length
  hash_eq : hash = Chain.listHash items

namespace Chain

variable {α : Type u} [Hashable α]

/-- The chain without elements. -/
def empty : Chain α :=
  ⟨[], 0, emptyHash, rfl, rfl⟩

instance : Inhabited (Chain α) := ⟨empty⟩

/-- Puts an element in front. -/
def cons (c : Chain α) (a : α) : Chain α where
  items := a :: c.items
  length := c.length + 1
  hash := Hashable.hash a + 31 * c.hash
  length_eq := by rw [c.length_eq, List.length_cons]
  hash_eq := by rw [c.hash_eq, listHash]

/-- The chain of the given elements, in the same order. -/
def ofList (as : List α) : Chain α :=
  as.foldr (fun a c => c.cons a) empty

/-- The first element, if there is one. -/
def head? (c : Chain α) : Option α :=
  c.items.head?

/-- The chain without its first element; the empty chain is its own tail. -/
def tail (c : Chain α) : Chain α :=
  ofList c.items.tail

/-- Whether there is no element. -/
def isEmpty (c : Chain α) : Bool :=
  c.items.isEmpty

@[simp] theorem items_empty : (empty : Chain α).items = [] := rfl

@[simp] theorem items_cons (a : α) (c : Chain α) : (c.cons a).items = a :: c.items := rfl

@[simp] theorem items_ofList (as : List α) : (ofList as).items = as := by
  induction as with
  | nil => rfl
  | cons a as ih =>
    have h : (ofList (a :: as)).items = a :: (ofList as).items := rfl
    rw [h, ih]

@[simp] theorem items_tail (c : Chain α) : c.tail.items = c.items.tail := by
  rw [tail, items_ofList]

/-- The length of a chain counts the elements it was made of. -/
theorem length_ofList (as : List α) : (ofList as).length = as.length := by
  rw [(ofList as).length_eq, items_ofList]

/-- Comparison element by element. Chains of different length or hash are told
    apart without looking at their elements. -/
def same [BEq α] (c d : Chain α) : Bool :=
  c.length == d.length && c.hash == d.hash && c.items == d.items

instance [BEq α] : BEq (Chain α) := ⟨same⟩

instance : Hashable (Chain α) := ⟨Chain.hash⟩

/-- The elements between square brackets, each in its written form. -/
def text (form : α → Text) (c : Chain α) : Text :=
  "[" ++ Text.words (c.items.map form) ++ "]"

/-- One round of an iteration over `rest` that is broken off as soon as it has
    seen `stop` elements, or never if `stop` is zero. The result holds the
    elements seen and what the next round will see: a round that was broken
    off is resumed at the element it was broken off at, and behind a complete
    round there is nothing left. -/
def round (stop : Nat) (rest : List α) : List α × List α :=
  if stop = 0 ∨ rest.length < stop then
    (rest, [])
  else
    (rest.take stop, rest.drop (stop - 1))

/-- What a number of rounds of one iteration see. -/
def rounds (stop : Nat) : Nat → List α → List (List α)
  | 0, _ => []
  | times + 1, rest =>
    let (seen, left) := round stop rest
    seen :: rounds stop times left

end Chain

end Derivations
