import Std.Data.TreeMap

/-!
# Ordered Sets

A set that remembers in which order its elements arrived. The elements stand
in an array in order of arrival; beside it, a search tree holds for every hash
the positions of the elements with that hash, so that looking for an element
compares it with few others. Equality is whatever `==` means for the elements,
and hashes may collide freely as long as equal elements have equal hashes.

## Main definitions

* `OrderedSet`: Elements in order of arrival, with buckets of positions.
* `OrderedSet.contains`: Whether an equal element is present.
* `OrderedSet.insert`: Adds an element unless an equal one is present.
* `OrderedSet.visit`: An iteration during which elements are added.

## Theorems

* `OrderedSet.toList_insert`: An element that is added arrives behind all others.
-/

namespace Derivations

/-- Elements in order of arrival, and for every hash the positions of the
    elements with that hash. -/
structure OrderedSet (α : Type u) where
  elems : Array α
  buckets : Std.TreeMap UInt64 (List Nat)

namespace OrderedSet

variable {α : Type u}

/-- The set without elements. -/
def empty : OrderedSet α := ⟨#[], .empty⟩

instance : Inhabited (OrderedSet α) := ⟨empty⟩

/-- The number of elements. -/
def size (s : OrderedSet α) : Nat :=
  s.elems.size

/-- The elements in order of arrival. -/
def toList (s : OrderedSet α) : List α :=
  s.elems.toList

/-- The elements with a property, in order of arrival. -/
def filter (p : α → Bool) (s : OrderedSet α) : List α :=
  s.elems.foldr (fun a found => if p a then a :: found else found) []

/-- Whether there is no element. -/
def isEmpty (s : OrderedSet α) : Bool :=
  s.size == 0

/-- The positions of the elements with the given hash. -/
def bucket (s : OrderedSet α) (h : UInt64) : List Nat :=
  s.buckets.getD h []

/-- Whether the element at a position equals `a`. -/
def matchesAt [BEq α] (s : OrderedSet α) (a : α) (i : Nat) : Bool :=
  match s.elems[i]? with
  | some b => b == a
  | none => false

/-- Whether an element equal to `a` is present. -/
def contains [BEq α] [Hashable α] (s : OrderedSet α) (a : α) : Bool :=
  (s.bucket (hash a)).any (s.matchesAt a)

/-- Adds an element unless an equal one is present. -/
def insert [BEq α] [Hashable α] (s : OrderedSet α) (a : α) : OrderedSet α :=
  if s.contains a then s
  else
    let positions := s.size :: s.bucket (hash a)
    match s with
    | ⟨elems, buckets⟩ => ⟨elems.push a, buckets.insert (hash a) positions⟩

@[simp] theorem toList_empty : (empty : OrderedSet α).toList = [] := rfl

/-- Looking for elements with a property finds them in order of arrival. -/
theorem filter_eq_filter_toList (p : α → Bool) (s : OrderedSet α) :
    s.filter p = s.toList.filter p := by
  rw [filter, ← Array.foldr_toList, toList]
  induction s.elems.toList with
  | nil => rfl
  | cons a as ih => rw [List.foldr_cons, List.filter_cons, ih]

/-- The size counts the elements. -/
theorem size_eq_length (s : OrderedSet α) : s.size = s.toList.length := by
  rw [size, toList, Array.length_toList]

/-- An element that is added arrives behind all others. -/
theorem toList_insert [BEq α] [Hashable α] (s : OrderedSet α) (a : α) :
    (s.insert a).toList = if s.contains a then s.toList else s.toList ++ [a] := by
  rw [insert]
  split
  · rfl
  · exact Array.toList_push

/-- Adds elements one after the other. -/
def insertAll [BEq α] [Hashable α] (s : OrderedSet α) (as : List α) : OrderedSet α :=
  as.foldl insert s

/-- An iteration from position `i` on, during which every element seen adds
    the elements it brings along. Elements added on the way are seen as well.
    At most `steps` elements are seen, since there may be no end of them. The
    result holds the elements seen and the set as it is afterwards. -/
def visit [BEq α] [Hashable α] (brings : α → List α) :
    Nat → Nat → OrderedSet α → List α × OrderedSet α
  | 0, _, s => ([], s)
  | steps + 1, i, s =>
    match s.elems[i]? with
    | none => ([], s)
    | some a =>
      let (seen, s') := visit brings steps (i + 1) (s.insertAll (brings a))
      (a :: seen, s')

/-- What a number of iterations see that are broken off as soon as they have
    seen `stop` elements, or never if `stop` is zero. Every iteration starts
    anew. -/
def rounds (stop times : Nat) (s : OrderedSet α) : List (List α) :=
  List.replicate times (if stop = 0 then s.toList else s.toList.take stop)

end OrderedSet

end Derivations
