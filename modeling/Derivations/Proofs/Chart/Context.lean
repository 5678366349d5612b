import Derivations.Proofs.Chart.Parse
import Derivations.Proofs.Grammar.Sentential

/-!
# The Right Context of Chart Items

An item is not looked for unless something behind it asks for it. The parser works
from the end of the input, so what has been found behind the anchor of an item is what
justifies it: there is a sentential form in which the left-hand side of the item
occurs, and all that stands to the right of it there derives the rest of the input.

A prediction is where the context changes. The item that waits for a symbol stands in
a form of its own, and replacing its left-hand side by its right-hand side makes a form
with the awaited symbol. Right of that symbol are the symbols the item has found
already, which derive the input from the position to its anchor, and then its own
context, which derives the rest. Scanning and completion leave left-hand side and
anchor as they are, and so the context.

Together with the trees of an item, which spell the input between the position and the
anchor, this accounts for the whole input behind the position of any item, whether or
not state sets have been cut off.

## Main definitions

* `Edge.InContext`: What is behind an edge derives the rest of the input.
* `Item.Justified`: All that holds of an item in a state set.

## Theorems

* `Edge.InContext.exists_form`: The right-hand side of an edge occurs in a sentential
  form as well.
* `Deducible.inContext`: Every edge that can be deduced has a right context.
* `Deducible.justified`: Items whose edges can be deduced are justified.
* `Parser.parse_items_justified`: Every item in a chart is justified.
-/

namespace Derivations

section

variable (g : Grammar) (start : Symbol) (input : List Symbol)

/-- The left-hand side of an edge occurs in a sentential form, and what stands to the
    right of it there derives the input behind the anchor. The rule above the start
    symbol does not occur in any form; it is anchored at the end. -/
def Edge.InContext (e : Edge) : Prop :=
  e.alternative = Item.topAlternative ∧ e.anchor = input.length ∨
    e.alternative ≠ Item.topAlternative ∧ ∃ before after : List Symbol,
      g.Derives [start] (before ++ e.lhs :: after) ∧ g.Derives after (input.drop e.anchor.toNat)

/-- What holds of an item in the state set at position `k`: it has a rule, its trees
    are derivation trees for the symbols right of its dot and spell the input up to
    its anchor, and it has a context that derives the input behind. -/
structure Item.Justified (k : Nat) (item : Item) : Prop where
  /-- The rule above the start symbol, or the alternative with the given number. -/
  hasRule : item.alternative = Item.topAlternative ∧ item.lhs = Item.topSymbol ∧
      item.rhs = [start] ∨
    ∃ i : Nat, item.alternative = i ∧ (g.expansions item.lhs)[i]? = some item.rhs
  dot_le : item.dot ≤ item.rhs.length
  le_anchor : (k : Int) ≤ item.anchor
  anchor_le : item.anchor ≤ input.length
  length_trees : item.trees.length = item.rhs.length - item.dot
  symbols : item.trees.map Tree.symbol = item.rhs.drop item.dot
  derived : ∀ t ∈ item.trees, g.IsDerivation t
  frontier : Tree.frontierAll item.trees = input.extract k item.anchor.toNat
  context : item.edge.InContext g start input

end

variable {g : Grammar} {start : Symbol} {input : List Symbol}

/-- The right-hand side of an edge occurs in a sentential form in place of its
    left-hand side. For the rule above the start symbol this is the first form of
    all. -/
theorem Edge.InContext.exists_form {e : Edge} (h : e.InContext g start input)
    (hr : e.HasRule g start) :
    ∃ before after : List Symbol, g.Derives [start] (before ++ e.rhs ++ after) ∧
      g.Derives after (input.drop e.anchor.toNat) := by
  rcases h with ⟨htop, hn⟩ | ⟨hne, before, after, hform, hafter⟩
  · rcases hr with ⟨_, _, hrhs⟩ | ⟨i, hi, _⟩
    · refine ⟨[], [], ?_, ?_⟩
      · rw [hrhs]
        exact .refl
      · rw [hn, Int.toNat_natCast, List.drop_length]
        exact .refl
    · rw [hi, Item.topAlternative] at htop
      omega
  · rcases hr with ⟨htop, _, _⟩ | ⟨i, _, hi⟩
    · exact absurd htop hne
    · exact ⟨before, after, hform.tail (.replace before after (List.mem_of_getElem? hi)), hafter⟩

/-- The symbols right of the dot derive the input between the position and the
    anchor. -/
theorem Edge.Valid.derives_found {k : Nat} {e : Edge} (h : e.Valid g start input k) :
    g.Derives (e.rhs.drop e.dot) (Tree.frontierAll e.found) := by
  rw [← h.symbols]
  exact Grammar.derives_frontierAll fun t ht => (h.derived t ht).derives

/-- Every edge that can be deduced has a right context. -/
theorem Deducible.inContext {k : Nat} {e : Edge} (h : Deducible g start input k e) :
    e.InContext g start input := by
  induction h with
  | top => exact Or.inl ⟨rfl, rfl⟩
  | @predict k i e sym rhs waiting awaits alternative ih =>
    have hvalid := waiting.valid
    rcases ih.exists_form hvalid.hasRule with ⟨before, after, hform, hafter⟩
    rcases (Edge.awaited?_eq_some_iff e sym).1 awaits with ⟨d, hdot, hd⟩
    rcases List.getElem?_eq_some_iff.1 hd with ⟨hlt, hget⟩
    have hsplit : e.rhs = e.rhs.take d ++ sym :: e.rhs.drop e.dot := by
      rw [hdot, ← hget, ← List.drop_eq_getElem_cons hlt, List.take_append_drop]
    -- What the waiting edge has found lies in front of what its own context derives.
    refine Or.inr ⟨?_, before ++ e.rhs.take d, e.rhs.drop e.dot ++ after, ?_, ?_⟩
    · intro htop
      change (i : Int) = Item.topAlternative at htop
      rw [Item.topAlternative] at htop
      omega
    · change g.Derives [start] (before ++ e.rhs.take d ++ sym :: (e.rhs.drop e.dot ++ after))
      rw [hsplit] at hform
      simpa only [List.append_assoc, List.cons_append] using hform
    · change g.Derives _ (input.drop ((k : Int).toNat))
      rw [Int.toNat_natCast, hvalid.frontier]
      exact hvalid.derives_found.append hafter
  | scan _ _ _ _ ih => exact ih
  | complete _ _ _ _ _ _ ih => exact ih

/-- An item whose edge can be deduced is justified. -/
theorem Deducible.justified {k : Nat} {item : Item} (h : Deducible g start input k item.edge) :
    item.Justified g start input k := by
  have hv := h.valid
  have hk : (k : Int) ≤ item.anchor := hv.le_anchor
  have hn : item.anchor ≤ input.length := hv.anchor_le
  have hfrontier : input.drop k = Tree.frontierAll item.trees ++ input.drop item.anchor.toNat :=
    hv.frontier
  refine ⟨hv.hasRule, hv.dot_le, hk, hn, ?_, hv.symbols, hv.derived, ?_, h.inContext⟩
  · have hlen := congrArg List.length hv.symbols
    rw [List.length_map, List.length_drop] at hlen
    exact hlen
  · -- The frontier is as long as the part of the input from the position to the anchor.
    have hlen := congrArg List.length hfrontier
    simp only [List.length_append, List.length_drop] at hlen
    rw [List.extract_eq_take_drop, hfrontier, List.take_left' (by omega)]

namespace Parser

/-- Every item in the chart of a parse, full or not, is justified by the input behind
    the position of its state set. -/
theorem parse_items_justified {p : Parser} (hp : p.IsFor g) (input : List Symbol) :
    ∃ o, p.parse input = .ok o ∧ o.chart.length = input.length + 1 ∧
      ∀ (k : Nat) (s : StateSet), o.chart[k]? = some s →
        s.position = k ∧ ∀ item ∈ s.toList, item.Justified g p.start input k := by
  rcases parse_spec hp input with ⟨o, sets, hok, hchart, hfilled, _, _⟩
  refine ⟨o, hok, ?_⟩
  rw [hchart]
  refine ⟨hfilled.length_reverse, fun k s hs => ?_⟩
  rcases hfilled.filled_of_getElem?_reverse hs with ⟨later, hset⟩
  refine ⟨hset.position, fun item hitem => ?_⟩
  exact (hset.deducible _ (List.mem_map_of_mem hitem)).justified

theorem parse_items_justified_repeats :
    (repeats 4).IsFor (repeats 4).grammar ∧ ∃ o, (repeats 4).parse ["a", "a"] = .ok o ∧
      o.full = false ∧ o.chart.length = 3 ∧ ∃ s, o.chart[0]? = some s ∧ s.position = 0 ∧
        s.toList.map Item.anchor = [1, 1, 2, 0, 0] ∧
        ∀ item ∈ s.toList, item.Justified (repeats 4).grammar "S" ["a", "a"] 0 := by
  have hp : (repeats 4).IsFor (repeats 4).grammar := ⟨rfl, rfl⟩
  rcases parse_items_justified hp ["a", "a"] with ⟨o, hok, hlength, hall⟩
  have hrun : ((repeats 4).parse ["a", "a"]).toOption.map
      (fun o => (o.full, o.chart[0]?.map fun s => s.toList.map Item.anchor)) =
        some (false, some [1, 1, 2, 0, 0]) := by
    decide +kernel
  rw [hok] at hrun
  rcases Prod.mk.inj (Option.some.inj hrun) with ⟨hfull, hanchors⟩
  rcases Option.map_eq_some_iff.1 hanchors with ⟨s, hs, hlist⟩
  rcases hall 0 s hs with ⟨hposition, hitems⟩
  exact ⟨hp, o, hok, hfull, hlength, s, hs, hposition, hlist, hitems⟩

end Parser

end Derivations
