import Derivations.Proofs.Grammar.Derivation
import Derivations.Tree.Walk

/-!
# Addresses of Nodes

A tree may have the same part at many places, so a part alone does not tell where it lies.
An address does: it lists the child numbers on the way down from the root. The place of a
node follows from its address. As many leaves lie to the left of it as its elder siblings
and those of its ancestors have, and so many symbols of the frontier come in front of its
own.

The parts of the frontier that belong to the children of a node stand side by side and make
up the part that belongs to the node. A node without children has an empty part, which lies
between two symbols.

## Main definitions

* `Tree.at?`: The part of a tree at an address.
* `Tree.leavesBefore`: The number of leaves to the left of an address.
* `Tree.extentAt`: The part of the frontier that belongs to an address.
* `Tree.contextAt`: Where the node at an address lies.
* `Tiled`: Adjacent stretches that make up a whole.

## Theorems

* `Tree.extract_frontier`: The extent of a node holds its frontier.
* `Tree.tiled_extentAt`: The extents of the children tile the extent of a node.
-/

namespace Derivations

/-- Stretches that follow each other without a gap, from one position to another. -/
def Tiled (start stop : Nat) : List (Nat × Nat) → Prop
  | [] => start = stop
  | s :: rest => s.1 = start ∧ s.1 ≤ s.2 ∧ Tiled s.2 stop rest

namespace Tree

/-- The part of a tree at an address. There is none if the address leads out of the tree. -/
def at? : Tree → List Nat → Option Tree
  | t, [] => some t
  | t, i :: path => t.children[i]?.bind fun s => s.at? path

/-- The number of leaves to the left of an address: those of the elder siblings, on every
    level of the way down. -/
def leavesBefore : Tree → List Nat → Nat
  | _, [] => 0
  | t, i :: path =>
    leafCountAll (t.children.take i) + (t.children[i]?.map fun s => s.leavesBefore path).getD 0

/-- The part of the frontier that belongs to an address, as the positions where it starts and
    where it stops. -/
def extentAt (t : Tree) (path : List Nat) : Nat × Nat :=
  (t.leavesBefore path, t.leavesBefore path + ((t.at? path).map leafCount).getD 0)

/-- Where the node at an address lies. -/
def contextAt (t : Tree) (path : List Nat) : Context :=
  ⟨⟨UInt64.ofNat (t.extentAt path).1, UInt64.ofNat (t.extentAt path).2⟩, path.length,
    path.getLast?⟩

@[simp]
theorem at?_nil (t : Tree) : t.at? [] = some t :=
  rfl

theorem at?_cons (t : Tree) (i : Nat) (path : List Nat) :
    t.at? (i :: path) = t.children[i]?.bind fun s => s.at? path :=
  rfl

/-- Going down along one address and then along another is going down along both. -/
theorem at?_append (t : Tree) (path rest : List Nat) :
    t.at? (path ++ rest) = (t.at? path).bind fun s => s.at? rest := by
  induction path generalizing t with
  | nil => rfl
  | cons i path ih =>
    rw [List.cons_append, at?_cons, at?_cons]
    cases t.children[i]? with
    | none => rfl
    | some s => exact ih s

theorem leavesBefore_cons {t s : Tree} {i : Nat} (h : t.children[i]? = some s)
    (path : List Nat) :
    t.leavesBefore (i :: path) = leafCountAll (t.children.take i) + s.leavesBefore path := by
  rw [leavesBefore, h]
  rfl

theorem extentAt_eq {t s : Tree} {path : List Nat} (h : t.at? path = some s) :
    t.extentAt path = (t.leavesBefore path, t.leavesBefore path + s.leafCount) := by
  rw [extentAt, h]
  rfl

mutual

/-- There is one symbol on the frontier for every leaf. -/
theorem length_frontier (t : Tree) : t.frontier.length = t.leafCount := by
  match t with
  | leaf _ => rfl
  | node _ children =>
    rw [frontier, leafCount]
    exact length_frontierAll children

theorem length_frontierAll (ts : List Tree) : (frontierAll ts).length = leafCountAll ts := by
  match ts with
  | [] => rfl
  | t :: ts =>
    rw [frontierAll, leafCountAll, List.length_append, length_frontier t, length_frontierAll ts]

end

theorem leafCountAll_append (ss ts : List Tree) :
    leafCountAll (ss ++ ts) = leafCountAll ss + leafCountAll ts := by
  rw [← length_frontierAll, frontierAll_append, List.length_append, length_frontierAll,
    length_frontierAll]

theorem leafCountAll_take_succ {ts : List Tree} {i : Nat} {t : Tree} (h : ts[i]? = some t) :
    leafCountAll (ts.take (i + 1)) = leafCountAll (ts.take i) + t.leafCount := by
  rw [List.take_add_one, h, leafCountAll_append]
  rfl

-- The children in front of number `i` and those behind it.
theorem frontierAll_eq_append {ts : List Tree} {i : Nat} {t : Tree} (h : ts[i]? = some t) :
    frontierAll ts =
      frontierAll (ts.take i) ++ (t.frontier ++ frontierAll (ts.drop (i + 1))) := by
  rcases List.getElem?_eq_some_iff.1 h with ⟨hi, rfl⟩
  have hsplit : ts = ts.take i ++ ts[i] :: ts.drop (i + 1) := by
    rw [← List.drop_eq_getElem_cons hi, List.take_append_drop]
  calc frontierAll ts
      = frontierAll (ts.take i ++ ts[i] :: ts.drop (i + 1)) := congrArg frontierAll hsplit
    _ = _ := by rw [frontierAll_append, frontierAll]

theorem frontierAll_children {t s : Tree} {i : Nat} (h : t.children[i]? = some s) :
    t.frontier = frontierAll t.children := by
  cases t with
  | leaf _ => simp [children] at h
  | node _ _ => rfl

/-- The frontier of a part is found in the frontier of the tree, behind the leaves to the
    left of it. -/
theorem exists_frontier_eq_append {t s : Tree} {path : List Nat} (h : t.at? path = some s) :
    ∃ front rest, t.frontier = front ++ (s.frontier ++ rest) ∧
      front.length = t.leavesBefore path := by
  induction path generalizing t with
  | nil =>
    cases h
    exact ⟨[], [], by simp, rfl⟩
  | cons i path ih =>
    rcases Option.bind_eq_some_iff.1 h with ⟨child, hchild, hs⟩
    rcases ih hs with ⟨front, rest, hfront, hlength⟩
    refine ⟨frontierAll (t.children.take i) ++ front,
      rest ++ frontierAll (t.children.drop (i + 1)), ?_, ?_⟩
    · rw [frontierAll_children hchild, frontierAll_eq_append hchild, hfront]
      simp only [List.append_assoc]
    · rw [List.length_append, length_frontierAll, hlength, leavesBefore_cons hchild]

/-- The extent of a node holds its frontier. -/
theorem extract_frontier {t s : Tree} {path : List Nat} (h : t.at? path = some s) :
    t.frontier.extract (t.extentAt path).1 (t.extentAt path).2 = s.frontier := by
  rcases exists_frontier_eq_append h with ⟨front, rest, hsplit, hlength⟩
  rw [extentAt_eq h, hsplit, ← hlength, List.extract_eq_take_drop, List.drop_left,
    Nat.add_sub_cancel_left, ← length_frontier, List.take_left]

theorem leavesBefore_append {t s : Tree} {path : List Nat} (h : t.at? path = some s)
    (rest : List Nat) :
    t.leavesBefore (path ++ rest) = t.leavesBefore path + s.leavesBefore rest := by
  induction path generalizing t with
  | nil =>
    cases h
    rw [List.nil_append, leavesBefore, Nat.zero_add]
  | cons i path ih =>
    rcases Option.bind_eq_some_iff.1 h with ⟨child, hchild, hs⟩
    rw [List.cons_append, leavesBefore_cons hchild, leavesBefore_cons hchild, ih hs,
      Nat.add_assoc]

/-- The extent of a child begins behind those of its elder siblings. -/
theorem extentAt_concat {t s child : Tree} {path : List Nat} {i : Nat}
    (h : t.at? path = some s) (hchild : s.children[i]? = some child) :
    t.extentAt (path ++ [i]) =
      (t.leavesBefore path + leafCountAll (s.children.take i),
        t.leavesBefore path + leafCountAll (s.children.take (i + 1))) := by
  have hat : t.at? (path ++ [i]) = some child := by
    rw [at?_append, h, Option.bind_some, at?_cons, hchild]
    rfl
  rw [extentAt_eq hat, leavesBefore_append h, leavesBefore_cons hchild,
    leafCountAll_take_succ hchild, leavesBefore, Nat.add_zero, Nat.add_assoc]

-- The siblings from number `i` on, where those in front of them take the rest of the room.
theorem tiled_from (start : Nat) (ts : List Tree) (extent : Nat → Nat × Nat) (i : Nat)
    (h : ∀ j < ts.length, extent (i + j) =
      (start + leafCountAll (ts.take j), start + leafCountAll (ts.take (j + 1)))) :
    Tiled start (start + leafCountAll ts)
      ((List.range ts.length).map fun j => extent (i + j)) := by
  induction ts generalizing start i with
  | nil => rfl
  | cons t ts ih =>
    rw [List.length_cons, List.range_succ_eq_map, List.map_cons, List.map_map]
    have hfirst := h 0 (Nat.zero_lt_succ _)
    simp only [List.take_zero, List.take_succ_cons, leafCountAll, Nat.add_zero] at hfirst
    have hrest := ih (start + t.leafCount) (i + 1) fun j hj => by
      have hnext := h (j + 1) (Nat.succ_lt_succ hj)
      simp only [List.take_succ_cons, leafCountAll] at hnext
      rw [Nat.add_assoc i 1 j, Nat.add_comm 1 j, hnext]
      simp only [Nat.add_assoc]
    have hshift : ((fun j => extent (i + j)) ∘ Nat.succ) = fun j => extent (i + 1 + j) := by
      funext j
      exact congrArg extent (Nat.succ_add_eq_add_succ i j).symm
    rw [Nat.add_zero, hfirst, hshift, leafCountAll, ← Nat.add_assoc]
    exact ⟨rfl, Nat.le_add_right _ _, hrest⟩

/-- The extents of the children of a node are adjacent and make up the extent of the node. -/
theorem tiled_extentAt {t : Tree} {path : List Nat} {sym : Symbol} {children : List Tree}
    (h : t.at? path = some (node sym children)) :
    Tiled (t.extentAt path).1 (t.extentAt path).2
      ((List.range children.length).map fun i => t.extentAt (path ++ [i])) := by
  rw [extentAt_eq h, leafCount]
  have htiled := tiled_from (t.leavesBefore path) children
    (fun i => t.extentAt (path ++ [i])) 0 fun j hj => by
      rw [Nat.zero_add]
      exact extentAt_concat h (List.getElem?_eq_getElem hj)
  simpa only [Nat.zero_add] using htiled

end Tree

end Derivations
