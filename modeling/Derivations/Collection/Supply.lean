/-!
# Supplies

A supply is a sequence whose members are made one at a time, each only when it
is asked for. Whoever stops asking early never pays for the rest, which may be
far larger than what was taken.

A supply is built from its end: most functions that make one are given what
comes after it, so that no member is ever moved once it has been made.

## Main definitions

* `Supply`: A sequence made on demand.
* `Supply.toList`: All of its members.
* `Supply.prepend`: Members in front of a supply.
* `Supply.ofList`: The members of a list.
* `Supply.flatMap`: Several members for each member.
-/

namespace Derivations

/-- A sequence of values, made one at a time. -/
inductive Supply (α : Type) where
  | empty
  /-- A value, and how to go on. -/
  | more (first : α) (rest : Unit → Supply α)

namespace Supply

variable {α β : Type}

/-- Asks for all members, from the first to the last. -/
def foldl (f : β → α → β) (b : β) : Supply α → β
  | empty => b
  | more a rest => (rest ()).foldl f (f b a)

/-- The members, in order. -/
def toList (s : Supply α) : List α :=
  (s.foldl (fun made a => a :: made) []).reverse

/-- Members in front of a supply. -/
def prepend : List α → (Unit → Supply α) → Supply α
  | [], rest => rest ()
  | a :: as, rest => more a fun _ => prepend as rest

/-- The members of a list. -/
def ofList (as : List α) : Supply α :=
  prepend as fun _ => empty

/-- Several members for each member, in front of a supply. -/
def flatMap (f : α → List β) : Supply α → (Unit → Supply β) → Supply β
  | empty, after => after ()
  | more a rest, after => prepend (f a) fun _ => (rest ()).flatMap f after

/-- What has been made before stays in front. -/
theorem foldl_cons_eq_append (s : Supply α) (made : List α) :
    s.foldl (fun made a => a :: made) made = s.foldl (fun made a => a :: made) [] ++ made := by
  induction s generalizing made with
  | empty => rfl
  | more a rest ih =>
    rw [foldl, foldl, ih () (a :: made), ih () [a]]
    simp

@[simp]
theorem toList_empty : (empty : Supply α).toList = [] :=
  rfl

@[simp]
theorem toList_more (a : α) (rest : Unit → Supply α) :
    (more a rest).toList = a :: (rest ()).toList := by
  rw [toList, foldl, foldl_cons_eq_append]
  simp [toList]

@[simp]
theorem toList_prepend (as : List α) (rest : Unit → Supply α) :
    (prepend as rest).toList = as ++ (rest ()).toList := by
  induction as with
  | nil => rfl
  | cons a as ih => simp [prepend, ih]

@[simp]
theorem toList_ofList (as : List α) : (ofList as).toList = as := by
  simp [ofList]

@[simp]
theorem toList_flatMap (f : α → List β) (s : Supply α) (after : Unit → Supply β) :
    (s.flatMap f after).toList = s.toList.flatMap f ++ (after ()).toList := by
  induction s with
  | empty => rfl
  | more a rest ih => simp [flatMap, ih]

end Supply

end Derivations
