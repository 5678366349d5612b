/-!
# Queues

A queue that is joined by many elements at once. Elements are taken from a
list at the front; batches that have joined later wait in reverse order and
become the front when it is used up. So joining takes one step, however long
the queue is.

## Main definitions

* `Queue`: The front and the batches behind it.
* `Queue.toList`: The elements in order.
* `Queue.join`: A batch joins the queue.
* `Queue.next?`: The first element that is not passed over.

## Theorems

* `Queue.toList_join`: A batch joins behind everything else.
* `Queue.next?_eq_none_iff`: There is no next element if all are passed over.
* `Queue.dropWhile_toList_of_next?`: The next element and what is behind it.
* `Queue.pass_eq_false_of_next?`: The next element is not passed over.
-/

namespace Derivations

/-- A list at the front and the batches behind it, the last one first. -/
structure Queue (α : Type u) where
  front : List α
  batches : List (List α)

namespace Queue

variable {α : Type u}

/-- The elements in order. -/
def toList (q : Queue α) : List α :=
  q.front ++ q.batches.reverse.flatten

/-- The queue of the given elements. -/
def ofList (as : List α) : Queue α :=
  ⟨as, []⟩

/-- Whether nobody waits. -/
def isEmpty (q : Queue α) : Bool :=
  q.front.isEmpty && q.batches.all List.isEmpty

/-- A batch joins the queue. -/
def join (q : Queue α) (batch : List α) : Queue α :=
  ⟨q.front, batch :: q.batches⟩

/-- The first element that is not passed over, and the queue behind it. The
    elements in front of it leave the queue. -/
def next? (pass : α → Bool) (q : Queue α) : Option (α × Queue α) :=
  match q.front.dropWhile pass with
  | a :: rest => some (a, ⟨rest, q.batches⟩)
  | [] =>
    match q.batches.reverse.flatten.dropWhile pass with
    | a :: rest => some (a, ofList rest)
    | [] => none

@[simp] theorem toList_ofList (as : List α) : (ofList as).toList = as := by
  simp [ofList, toList]

@[simp] theorem toList_join (q : Queue α) (batch : List α) :
    (q.join batch).toList = q.toList ++ batch := by
  simp [join, toList]

/-- Nobody waits if and only if there are no elements. -/
theorem isEmpty_iff (q : Queue α) : q.isEmpty = true ↔ q.toList = [] := by
  simp [isEmpty, toList, List.isEmpty_iff]

/-- There is no next element if and only if all elements are passed over. -/
theorem next?_eq_none_iff (pass : α → Bool) (q : Queue α) :
    q.next? pass = none ↔ q.toList.dropWhile pass = [] := by
  rw [next?, toList, List.dropWhile_append]
  cases hf : q.front.dropWhile pass with
  | cons a rest => simp
  | nil => cases hb : q.batches.reverse.flatten.dropWhile pass <;> simp

/-- The next element is the first one left when elements are passed over, and
    the queue behind it holds the others. -/
theorem dropWhile_toList_of_next? {pass : α → Bool} {q r : Queue α} {a : α}
    (h : q.next? pass = some (a, r)) : q.toList.dropWhile pass = a :: r.toList := by
  rw [toList, List.dropWhile_append]
  rw [next?] at h
  cases hf : q.front.dropWhile pass with
  | cons b rest =>
    rw [hf] at h
    simp only [Option.some.injEq, Prod.mk.injEq] at h
    obtain ⟨rfl, rfl⟩ := h
    simp [toList]
  | nil =>
    rw [hf] at h
    cases hb : q.batches.reverse.flatten.dropWhile pass with
    | nil =>
      rw [hb] at h
      exact absurd h (by simp)
    | cons b rest =>
      rw [hb] at h
      simp only [Option.some.injEq, Prod.mk.injEq] at h
      obtain ⟨rfl, rfl⟩ := h
      simp

/-- The next element is one that is not passed over. -/
theorem pass_eq_false_of_next? {pass : α → Bool} {q r : Queue α} {a : α}
    (h : q.next? pass = some (a, r)) : pass a = false := by
  have hhead := List.head?_dropWhile_not pass q.toList
  rw [dropWhile_toList_of_next? h] at hhead
  exact hhead

end Queue

end Derivations
