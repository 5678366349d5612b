import Derivations.Proofs.Chart.Safety
import Derivations.Proofs.Collection.Iteration
import Mathlib.Data.List.Forall2

/-!
# Comparing Step by Step

Comparisons are made in steps. A tree is compared node by node, a chain element by element,
and an item part by part, and each of them looks at hashes on the way: at every node, at
every rest of a chain, and once for an item. What is known to be one and the same thing is
not looked into at all, as it is the case for parts that trees and chains share. None of
this makes a difference. A hash is determined by what is compared, and things that are the
same are equal, so the comparison comes to the result that it would come to without looking
at hashes, whatever is known.

In a chain, the hash has been computed by additions and multiplications that wrap around,
one for every element. It is what one computation with numbers of any size comes to modulo
2^64.

Items are compared without their right-hand sides. Within a chart this is no loss, as every
item there belongs to an alternative of the grammar or to the rule above the start symbol,
whose alternative has a number of its own. This tells it apart from a rule of the grammar
for a non-terminal that happens to have the same name.

## Main definitions

* `Tree.agree`, `Chain.agree`, `Item.agree`: Comparison in steps.
* `Chain.exactHash`: The hash of a list, without wrapping around.

## Theorems

* `Tree.agree_iff`, `Chain.agree_eq_beq`, `Item.agree_eq_beq`: What is known makes no
  difference.
* `Chain.toNat_listHash`: Wrapping around once is enough.
* `Parser.hasRule_of_mem_chart`: Every item in a chart belongs to a rule.
* `Parser.beq_iff_parts_eq`: Comparisons are structural in all three layers.
-/

namespace Derivations

namespace Tree

mutual

/-- Comparison of trees node by node. Trees that are known to be the same and trees with
    different hashes are not looked into. -/
def agree (known : Tree → Tree → Bool) : Tree → Tree → Bool
  | leaf a, leaf b => known (leaf a) (leaf b) || a == b
  | node a ts, node b us =>
    known (node a ts) (node b us) ||
      ((node a ts).hash == (node b us).hash && a == b && ts.length == us.length &&
        agreeAll known ts us)
  | leaf _, node _ _ => false
  | node _ _, leaf _ => false

/-- Comparison of trees one by one. -/
def agreeAll (known : Tree → Tree → Bool) : List Tree → List Tree → Bool
  | [], [] => true
  | t :: ts, u :: us => agree known t u && agreeAll known ts us
  | [], _ :: _ => false
  | _ :: _, [] => false

end

variable {known : Tree → Tree → Bool}

mutual

/-- Trees agree if and only if they have the same variant and symbol at every node and the
    same children in the same order. -/
theorem agree_iff (hknown : ∀ s t, known s t = true → s = t) :
    ∀ s t : Tree, agree known s t = true ↔ s = t
  | leaf a, leaf b => by
    rw [agree, Bool.or_eq_true, beq_iff_eq, leaf.injEq]
    refine ⟨?_, Or.inr⟩
    rintro (h | h)
    · exact leaf.inj (hknown _ _ h)
    · exact h
  | node a ts, node b us => by
    rw [agree, Bool.or_eq_true]
    constructor
    · rintro (h | h)
      · exact hknown _ _ h
      · simp only [Bool.and_eq_true, beq_iff_eq] at h
        rw [h.1.1.2, (agreeAll_iff hknown ts us).1 h.2]
    · -- Nodes that are the same have the same hash and as many children.
      intro h
      have hall : agreeAll known ts us = true := (agreeAll_iff hknown ts us).2 (node.inj h).2
      rw [hall, h, (node.inj h).1, (node.inj h).2]
      simp
  | leaf _, node _ _ => by rw [agree]; simp
  | node _ _, leaf _ => by rw [agree]; simp

theorem agreeAll_iff (hknown : ∀ s t, known s t = true → s = t) :
    ∀ ts us : List Tree, agreeAll known ts us = true ↔ ts = us
  | [], [] => by simp [agreeAll]
  | t :: ts, u :: us => by
    rw [agreeAll, Bool.and_eq_true, agree_iff hknown t u, agreeAll_iff hknown ts us,
      List.cons.injEq]
  | [], _ :: _ => by simp [agreeAll]
  | _ :: _, [] => by simp [agreeAll]

end

theorem same_iff (s t : Tree) : s.same t = true ↔ s = t := by
  rw [same, Bool.and_eq_true, beq_iff_eq, decide_eq_true_iff]
  exact ⟨And.right, fun h => ⟨by rw [h], h⟩⟩

end Tree

namespace Chain

variable {α : Type u} [Hashable α]

/-- The hash of a list of elements in numbers that do not wrap around. -/
def exactHash : List α → Nat
  | [] => 1
  | a :: as => (Hashable.hash a).toNat + 31 * exactHash as

theorem toNat_listHash (as : List α) : (listHash as).toNat = exactHash as % UInt64.size := by
  induction as with
  | nil => rfl
  | cons a as ih =>
    -- Remainders may be taken again or not within sums and products.
    rw [listHash, exactHash, UInt64.toNat_add, UInt64.toNat_mul, ih]
    change (_ + 31 * (exactHash as % UInt64.size) % UInt64.size) % UInt64.size = _
    rw [Nat.mul_mod_mod, Nat.add_mod_mod]

variable [BEq α]

/-- Comparison of the elements of chains one by one. Wherever it has arrived, rests that
    are known to be the same and rests of different lengths or hashes are not looked into. -/
def agree (known : List α → List α → Bool) : List α → List α → Bool
  | [], [] => true
  | a :: as, b :: bs =>
    known (a :: as) (b :: bs) ||
      ((a :: as).length == (b :: bs).length && listHash (a :: as) == listHash (b :: bs) &&
        a == b && agree known as bs)
  | [], _ :: _ => false
  | _ :: _, [] => false

variable {known : List α → List α → Bool} [EquivBEq α] [LawfulHashable α]

/-- Chains agree if and only if their elements are equal. -/
theorem agree_eq_beq (hknown : ∀ as bs, known as bs = true → as = bs) (as bs : List α) :
    agree known as bs = (as == bs) := by
  induction as generalizing bs with
  | nil => cases bs <;> rfl
  | cons a as ih =>
    cases bs with
    | nil => rfl
    | cons b bs =>
      rw [agree, ih]
      cases hk : known (a :: as) (b :: bs) with
      | true => rw [hknown _ _ hk, Bool.true_or, BEq.rfl]
      | false =>
        rw [Bool.false_or, Bool.eq_iff_iff]
        constructor
        · intro h
          rw [Bool.and_assoc, Bool.and_eq_true] at h
          exact h.2
        · intro h
          -- Equal elements have equal hashes, and as many of them the same length.
          rw [List.length_eq_of_beq h, listHash_eq_of_beq _ _ h, Bool.and_assoc]
          simpa using h

/-- Chains are equal if and only if they have the same length and their elements are equal
    in pairs. -/
theorem beq_iff_forall₂ (c d : Chain α) :
    (c == d) = true ↔ List.Forall₂ (fun a b => (a == b) = true) c.items d.items := by
  rw [beq_eq_beq_items]
  generalize c.items = as
  generalize d.items = bs
  induction as generalizing bs with
  | nil => cases bs <;> simp
  | cons a as ih =>
    cases bs with
    | nil => simp
    | cons b bs => rw [List.cons_beq_cons, Bool.and_eq_true, ih, List.forall₂_cons]

end Chain

namespace Item

/-- Comparison of items part by part, unless they are known to be the same or their hashes
    differ. The right-hand side is left out. -/
def agree (known : Item → Item → Bool) (rests : List MeasuredTree → List MeasuredTree → Bool)
    (i j : Item) : Bool :=
  known i j ||
    (i.hash == j.hash && i.anchor == j.anchor && i.dot == j.dot &&
      i.alternative == j.alternative && i.lhs == j.lhs &&
      Chain.agree rests i.parsed.items j.parsed.items)

theorem agree_eq_beq {known : Item → Item → Bool}
    {rests : List MeasuredTree → List MeasuredTree → Bool}
    (hknown : ∀ i j, known i j = true → i = j) (hrests : ∀ as bs, rests as bs = true → as = bs)
    (i j : Item) : i.agree known rests j = (i == j) := by
  rw [agree, Chain.agree_eq_beq hrests, ← Chain.beq_eq_beq_items]
  cases hk : known i j with
  | true => rw [hknown _ _ hk, Bool.true_or, BEq.rfl]
  | false => rw [Bool.false_or]; rfl

end Item

namespace Parser

/-- Every item in a chart belongs to an alternative of the grammar or to the rule above the
    start symbol. -/
theorem hasRule_of_mem_chart {g : Grammar} {start : Symbol} {input : List Symbol} {limit : Nat}
    {sets : Array StateSet} (h : FilledFrom g start input limit 0 sets) {s : StateSet} {i : Item}
    (hs : s ∈ sets.toList.reverse) (hi : i ∈ s.toList) : i.edge.HasRule g start := by
  rcases List.mem_iff_getElem?.1 hs with ⟨k, hk⟩
  rcases h.filled_of_getElem?_reverse hk with ⟨later, hset⟩
  exact (hset.deducible _ (List.mem_map_of_mem hi)).valid.hasRule

/-- Hashes guide the comparison of trees, of chains and of items, and decide none of them.
    Trees are equal if they have the same variant and symbol at every node and the same
    children in the same order. Chains are equal if they have the same length and equal
    elements, whatever equality and hashes the elements have; their length and hash are
    those of the elements. Items in the chart of a parse are equal if they agree in left-hand
    side, alternative, right-hand side, dot, anchor and partial parse. What is equal has the
    same hash. -/
theorem beq_iff_parts_eq :
    (∀ s t : MeasuredTree, ((s == t) = true ↔ s.tree = t.tree) ∧
      (s.tree.same t.tree = true ↔ s.tree = t.tree) ∧
      (∀ known : Tree → Tree → Bool, (∀ s t, known s t = true → s = t) →
        (s.tree.agree known t.tree = true ↔ s.tree = t.tree)) ∧
      ((s == t) = true → s.hash = t.hash)) ∧
    (∀ (α : Type u) [BEq α] [Hashable α] [EquivBEq α] [LawfulHashable α] (c d : Chain α),
      ((c == d) = true ↔ List.Forall₂ (fun a b => (a == b) = true) c.items d.items) ∧
      (∀ known : List α → List α → Bool, (∀ as bs, known as bs = true → as = bs) →
        Chain.agree known c.items d.items = (c == d)) ∧
      ((c == d) = true → c.hash = d.hash) ∧
      c.length = c.items.length ∧ c.hash.toNat = Chain.exactHash c.items % UInt64.size) ∧
    ∀ (g : Grammar) (p : Parser) (input : List Symbol), p.IsFor g →
      ∃ o, p.parse input = .ok o ∧
        ∀ i ∈ o.chart.flatMap StateSet.toList, ∀ j ∈ o.chart.flatMap StateSet.toList,
          ((i == j) = true ↔ i.lhs = j.lhs ∧ i.alternative = j.alternative ∧ i.rhs = j.rhs ∧
            i.dot = j.dot ∧ i.anchor = j.anchor ∧ i.trees = j.trees) ∧
          (∀ known rests, (∀ i j, known i j = true → i = j) →
            (∀ as bs, rests as bs = true → as = bs) → i.agree known rests j = (i == j)) ∧
          ((i == j) = true → i.hash = j.hash) := by
  refine ⟨fun s t => ⟨MeasuredTree.beq_iff_tree_eq s t, Tree.same_iff _ _, ?_, ?_⟩,
    fun α _ _ _ _ c d => ⟨Chain.beq_iff_forall₂ c d, ?_, ?_, c.length_eq, ?_⟩,
    fun g p input hp => ?_⟩
  · exact fun known hknown => Tree.agree_iff hknown s.tree t.tree
  · exact LawfulHashable.hash_eq s t
  · intro known hknown
    rw [Chain.agree_eq_beq hknown, Chain.beq_eq_beq_items]
  · intro h
    rw [Chain.beq_eq_beq_items] at h
    rw [c.hash_eq, d.hash_eq, Chain.listHash_eq_of_beq _ _ h]
  · rw [c.hash_eq, Chain.toNat_listHash]
  · rcases parse_spec hp input with ⟨o, sets, hok, hchart, hfilled, _⟩
    refine ⟨o, hok, ?_⟩
    rw [hchart]
    intro i hi j hj
    rcases List.mem_flatMap.1 hi with ⟨s, hs, his⟩
    rcases List.mem_flatMap.1 hj with ⟨s', hs', hjs⟩
    -- Both items belong to rules of the one grammar, so the right-hand sides follow.
    have hri := hasRule_of_mem_chart hfilled hs his
    have hrj := hasRule_of_mem_chart hfilled hs' hjs
    refine ⟨⟨fun h => ?_, ?_⟩, fun known rests hknown hrests => ?_, LawfulHashable.hash_eq i j⟩
    · have hedge := Item.edge_eq_of_beq h hri hrj
      simpa only [Item.edge, Edge.mk.injEq] using hedge
    · rintro ⟨hl, ha, _, hd, hn, ht⟩
      rw [Item.beq_iff_identity_eq, Item.identity, Item.identity, hl, ha, hd, hn, ht]
    · exact Item.agree_eq_beq hknown hrests i j

open OrderedSet in
/-- Chains of residues, which all have one hash, are still told apart. In the chart of a
    grammar with a non-terminal `Start`, the item above the start symbol is told apart from
    one that is its equal but for the alternative and the right-hand side. -/
theorem beq_iff_parts_eq_unnamed :
    (Chain.ofList [(⟨4⟩ : Residue), ⟨5⟩] == Chain.ofList [⟨1⟩, ⟨8⟩]) = true ∧
    (Chain.ofList [(⟨4⟩ : Residue), ⟨5⟩] == Chain.ofList [⟨5⟩, ⟨4⟩]) = false ∧
    (Chain.ofList [(⟨4⟩ : Residue), ⟨5⟩]).hash.toNat = (3 + 31 * (3 + 31 * 1)) % UInt64.size ∧
    unnamed.IsFor unnamed.grammar ∧ ∃ o, unnamed.parse ["b", "a"] = .ok o ∧
      ∃ i ∈ o.chart.flatMap StateSet.toList, ∃ j ∈ o.chart.flatMap StateSet.toList,
        i.lhs = j.lhs ∧ i.dot = j.dot ∧ i.anchor = j.anchor ∧ i.trees = j.trees ∧
          (i == j) = false := by
  have hp : unnamed.IsFor unnamed.grammar := ⟨rfl, rfl⟩
  rcases beq_iff_parts_eq with ⟨_, hchains, hitems⟩
  rcases hitems unnamed.grammar unnamed ["b", "a"] hp with ⟨o, hok, hall⟩
  have hrun : (unnamed.parse ["b", "a"]).toOption.map (fun o =>
      (o.chart.flatMap StateSet.toList).any fun i =>
        (o.chart.flatMap StateSet.toList).any fun j =>
          i.isTop && !j.isTop && decide (i.lhs = j.lhs ∧ i.dot = j.dot ∧ i.anchor = j.anchor ∧
            i.trees = j.trees)) = some true := by
    decide +kernel
  rw [hok] at hrun
  rcases List.any_eq_true.1 (Option.some.inj hrun) with ⟨i, hi, hrest⟩
  rcases List.any_eq_true.1 hrest with ⟨j, hj, hij⟩
  simp only [Bool.and_eq_true, Bool.not_eq_true', decide_eq_true_iff] at hij
  rcases hij with ⟨⟨htop, hother⟩, hl, hd, hn, ht⟩
  refine ⟨?_, ?_, (hchains Residue _ (.ofList [])).2.2.2.2, hp, o, hok, i, hi, j, hj, hl, hd, hn,
    ht, ?_⟩
  · rw [(hchains Residue _ _).1]
    exact .cons rfl (.cons rfl .nil)
  · rw [Bool.eq_false_iff, Ne, (hchains Residue _ _).1]
    rintro (_ | ⟨h, _⟩)
    exact absurd h (by decide)
  · rw [Bool.eq_false_iff, Ne, (hall i hi j hj).1]
    rintro ⟨_, ha, _⟩
    rw [Item.isTop, ha] at htop
    exact absurd (htop.symm.trans hother) (by decide)

end Parser

end Derivations
