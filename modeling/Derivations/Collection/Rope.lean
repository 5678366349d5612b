/-!
# Ropes

A rope is a sequence made of parts that are put side by side without being
copied. A part may belong to any number of ropes. Nothing is put beside an
empty rope, so a rope has no more joints than members, however many empty
parts went into it.

## Main definitions

* `Rope`: A sequence in parts.
* `Rope.toList`: Its members, in order.
* `Rope.beside`: One rope behind another.
* `Rope.concat`: Many ropes one behind the other.
* `Rope.ofList`: The rope of the members of a list.
-/

namespace Derivations

/-- A sequence in parts. -/
inductive Rope (α : Type) where
  | empty
  | single (a : α)
  | joint (left right : Rope α)

namespace Rope

variable {α : Type}

/-- The members in front of a list. -/
def before : Rope α → List α → List α
  | empty, rest => rest
  | single a, rest => a :: rest
  | joint left right, rest => left.before (right.before rest)

/-- The members, in order. -/
def toList (r : Rope α) : List α :=
  r.before []

/-- One rope behind another. -/
def beside : Rope α → Rope α → Rope α
  | empty, s => s
  | r, empty => r
  | r, s => joint r s

/-- Ropes one behind the other. -/
def concat (rs : List (Rope α)) : Rope α :=
  rs.foldr beside empty

/-- The rope of the members of a list. -/
def ofList (as : List α) : Rope α :=
  concat (as.map single)

/-- What comes behind the members has no part in them. -/
theorem before_eq_append (r : Rope α) (rest : List α) : r.before rest = r.toList ++ rest := by
  induction r generalizing rest with
  | empty => rfl
  | single a => rfl
  | joint left right ihl ihr =>
    rw [toList, before, before, ihl, ihr, ihl (right.before []), ihr []]
    simp

@[simp]
theorem toList_empty : (empty : Rope α).toList = [] :=
  rfl

@[simp]
theorem toList_single (a : α) : (single a).toList = [a] :=
  rfl

@[simp]
theorem toList_joint (r s : Rope α) : (joint r s).toList = r.toList ++ s.toList := by
  rw [toList, before, before_eq_append]
  rfl

@[simp]
theorem toList_beside (r s : Rope α) : (r.beside s).toList = r.toList ++ s.toList := by
  cases r <;> cases s <;> simp [beside]

@[simp]
theorem toList_concat (rs : List (Rope α)) : (concat rs).toList = rs.flatMap toList := by
  induction rs with
  | nil => rfl
  | cons r rs ih =>
    rw [List.flatMap_cons, ← ih]
    exact toList_beside r _

@[simp]
theorem toList_ofList (as : List α) : (ofList as).toList = as := by
  simp [ofList, List.flatMap_map]

end Rope

end Derivations
