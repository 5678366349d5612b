import Derivations.Chart.Parser
import Derivations.Proofs.Chart.Deduction
import Derivations.Proofs.Collection.OrderedSet
import Derivations.Proofs.Equality

/-!
# What an Item Brings Along

The step of the chart parser in terms of edges. Every item stands for an edge, and
advancing or completing the item is advancing or completing the edge. When an item
has been added to a state set, the parser looks for what follows from it: the
alternatives of the symbol it waits for, its advances by the empty trees known so
far, or, if it is finished, the advances of all items waiting for it. `Brings` says
the same about edges, and `expand_spec` that an expansion never fails and finds
exactly these.

State sets are kept from the last position to the first. The set at position `j` of
an input of length `n` is therefore the one with number `n - j`, however many sets
have been filled since.

## Main definitions

* `Item.edge`: What an item says.
* `StateSet.edges`: What the items of a state set say, in order.
* `EdgeAt`: An edge is in the state set at a position.
* `Front.Knows`: A tree is among the empty trees known.
* `Parser.Brings`: What an edge brings along.
* `Parser.Finds`: What an expansion makes of a front.

## Theorems

* `Item.current?_eq_awaited?`, `Item.exists_advance`: Items wait and advance like
  their edges.
* `edgeAt_push`: What one more state set adds.
* `Parser.brings_iff_of_awaited?`, `Parser.brings_iff_of_dot_eq_zero`: What unfinished
  and finished edges bring along.
* `Parser.scan_spec`, `Parser.expand_spec`: What the parser finds.
-/

namespace Derivations

/-- If every element has a result, a list of elements has a list of results. -/
theorem exists_mapM_eq_ok {α β γ ε : Type} {f : α → Except ε β} (r : β → γ) (q : α → γ)
    (as : List α) (h : ∀ a ∈ as, ∃ b, f a = .ok b ∧ r b = q a) :
    ∃ bs, as.mapM f = .ok bs ∧ bs.map r = as.map q := by
  induction as with
  | nil => exact ⟨[], rfl, rfl⟩
  | cons a as ih =>
    rcases h a List.mem_cons_self with ⟨b, hb, hr⟩
    rcases ih (fun c hc => h c (List.mem_cons_of_mem a hc)) with ⟨bs, hbs, hrs⟩
    refine ⟨b :: bs, ?_, ?_⟩
    · rw [List.mapM_cons, hb, hbs]
      rfl
    · rw [List.map_cons, List.map_cons, hr, hrs]

namespace Item

/-- What an item says. -/
def edge (item : Item) : Edge :=
  ⟨item.lhs, item.alternative, item.rhs, item.dot, item.anchor, item.trees⟩

/-- Items that say the same are equal. -/
theorem identity_eq_of_edge_eq {i j : Item} (h : i.edge = j.edge) : i.identity = j.identity := by
  simp only [edge, Edge.mk.injEq] at h
  rcases h with ⟨hl, ha, _, hd, hn, ht⟩
  rw [identity, identity, hl, ha, hd, hn, ht]

/-- Equal items say the same, provided that their productions belong to one
    grammar. -/
theorem edge_eq_of_beq {g : Grammar} {start : Symbol} {i j : Item} (h : (i == j) = true)
    (hi : i.edge.HasRule g start) (hj : j.edge.HasRule g start) : i.edge = j.edge := by
  rw [beq_iff_identity_eq] at h
  simp only [identity, Prod.mk.injEq] at h
  rcases h with ⟨hl, ha, hd, hn, ht⟩
  have hr : i.rhs = j.rhs := hi.rhs_eq hj hl ha
  rw [edge, edge, hl, ha, hr, hd, hn, ht]

/-- An item waits for the symbol its edge waits for. -/
theorem current?_eq_awaited? (item : Item) : item.current? = item.edge.awaited? :=
  item.current?_eq_getElem?

/-- An unfinished item has a symbol to wait for. -/
theorem exists_awaited? (item : Item) (h : item.dot ≠ 0) :
    ∃ sym, item.edge.awaited? = some sym := by
  have hlt : item.dot - 1 < item.rhs.length := by
    have := item.dot_le
    omega
  refine ⟨item.rhs[item.dot - 1], (Edge.awaited?_eq_some_iff _ _).2 ⟨item.dot - 1, ?_, ?_⟩⟩
  · change item.dot = item.dot - 1 + 1
    omega
  · exact List.getElem?_eq_getElem hlt

/-- Whoever waits for a symbol is unfinished. -/
theorem dot_ne_zero_of_awaited? {item : Item} {sym : Symbol}
    (h : item.edge.awaited? = some sym) : item.dot ≠ 0 := by
  rcases (Edge.awaited?_eq_some_iff _ _).1 h with ⟨i, hi, _⟩
  change item.dot = i + 1 at hi
  omega

/-- An unfinished item can be advanced, and its edge advances with it. -/
theorem exists_advance (item : Item) (t : MeasuredTree) (h : item.dot ≠ 0) :
    ∃ j, item.advance t = .ok j ∧ j.edge = item.edge.advance t.tree := by
  rw [advance, if_neg h]
  exact ⟨_, rfl, rfl⟩

/-- A finished item can be completed, and its tree is that of its edge. -/
theorem exists_complete (item : Item) (h : item.dot = 0) :
    ∃ t, item.complete = .ok t ∧ t.tree = item.edge.tree := by
  have hf : item.isFinished = true := by rw [isFinished, h]; rfl
  rw [complete, if_pos hf]
  exact ⟨_, rfl, rfl⟩

end Item

namespace StateSet

/-- What the items of a state set say, in order. -/
def edges (s : StateSet) : List Edge :=
  s.toList.map Item.edge

/-- An item that is added adds its edge behind all others. -/
theorem edges_insert (s : StateSet) (item : Item) (h : s.contains item = false) :
    (s.insert item).edges = s.edges ++ [item.edge] := by
  rw [edges, toList_insert, h, if_neg Bool.false_ne_true, List.map_append]
  rfl

theorem position_insert (s : StateSet) (item : Item) : (s.insert item).position = s.position := by
  rw [insert]
  split <;> rfl

theorem truncated_insert (s : StateSet) (item : Item) :
    (s.insert item).truncated = s.truncated := by
  rw [insert]
  split <;> rfl

theorem items_insert (s : StateSet) (item : Item) :
    (s.insert item).items = s.items.insert item := by
  rw [insert]
  split
  · rename_i h
    rw [OrderedSet.insert, if_pos h]
  · rfl

/-- An item that is added keeps a state set in order, and without repetition. -/
theorem proper_insert {s : StateSet} (h : s.items.Proper) (item : Item) :
    (s.insert item).items.Proper := by
  rw [items_insert]
  exact h.insert item

/-- The size counts the edges. -/
theorem size_eq_length_edges (s : StateSet) : s.size = s.edges.length := by
  rw [size, OrderedSet.size_eq_length, edges, List.length_map]
  rfl

theorem size_insert (s : StateSet) (item : Item) (h : s.contains item = false) :
    (s.insert item).size = s.size + 1 := by
  rw [size_eq_length_edges, size_eq_length_edges, edges_insert s item h, List.length_append]
  rfl

/-- A state set in order never holds items that equal each other. -/
theorem nodup_identities {s : StateSet} (h : s.items.Proper) :
    (s.toList.map Item.identity).Nodup := by
  rw [List.Nodup, List.pairwise_map]
  refine h.distinct.imp fun {i j} hij hid => ?_
  rw [(Item.beq_iff_identity_eq i j).2 hid] at hij
  exact Bool.noConfusion hij

/-- Nor does it hold items that say the same. -/
theorem nodup_edges {s : StateSet} (h : s.items.Proper) : s.edges.Nodup := by
  have hids := nodup_identities h
  rw [List.Nodup, List.pairwise_map] at hids
  rw [edges, List.Nodup, List.pairwise_map]
  exact hids.imp fun hij hedge => hij (Item.identity_eq_of_edge_eq hedge)

/-- An item that waits for a symbol has an edge that waits for it. -/
theorem mem_awaiting_iff (s : StateSet) (sym : Symbol) (item : Item) :
    item ∈ s.awaiting sym ↔ item ∈ s.toList ∧ item.edge.awaited? = some sym := by
  rw [awaiting_eq_filter, List.mem_filter, Item.awaits, beq_iff_eq, Item.current?_eq_awaited?]

end StateSet

/-- An edge is in the state set at a position, the sets being listed from position
    `n` on towards the beginning of the input. -/
def EdgeAt (n : Nat) (sets : Array StateSet) (j : Nat) (e : Edge) : Prop :=
  j ≤ n ∧ ∃ s, sets[n - j]? = some s ∧ e ∈ s.edges

/-- One more state set adds its edges at its position and changes nothing at any
    other. -/
theorem edgeAt_push {n k : Nat} {sets : Array StateSet} (hsize : k + sets.size = n) (s : StateSet)
    (j : Nat) (e : Edge) :
    EdgeAt n (sets.push s) j e ↔ EdgeAt n sets j e ∨ j = k ∧ e ∈ s.edges := by
  rw [EdgeAt, EdgeAt, Array.getElem?_push]
  by_cases hj : n - j = sets.size
  · rw [if_pos hj, hj, Array.getElem?_size]
    constructor
    · rintro ⟨hle, t, ht, he⟩
      rw [Option.some.inj ht]
      exact Or.inr ⟨by omega, he⟩
    · rintro (⟨_, t, ht, _⟩ | ⟨rfl, he⟩)
      · exact absurd ht (by simp)
      · exact ⟨by omega, s, rfl, he⟩
  · rw [if_neg hj]
    constructor
    · exact Or.inl
    · rintro (h | ⟨rfl, _⟩)
      · exact h
      · exact absurd (by omega) hj

/-- A tree is among the empty trees known. -/
def Front.Knows (f : Front) (t : Tree) : Prop :=
  ∃ m ∈ f.empties.toList, m.tree = t

/-- A tree that is inserted into the empty trees is known, besides those known before. -/
theorem Front.knows_insert (f : Front) (t : MeasuredTree) (u : Tree) :
    Knows { f with empties := f.empties.insert t } u ↔ f.Knows u ∨ t.tree = u := by
  constructor
  · rintro ⟨m, hm, rfl⟩
    rcases (OrderedSet.mem_toList_insert _ _ _).1 hm with hm | ⟨_, rfl⟩
    · exact Or.inl ⟨m, hm, rfl⟩
    · exact Or.inr rfl
  · rintro (⟨m, hm, rfl⟩ | rfl)
    · exact ⟨m, (OrderedSet.mem_toList_insert _ _ _).2 (Or.inl hm), rfl⟩
    · rcases OrderedSet.exists_mem_insert f.empties t with ⟨m, hm, hmt⟩
      exact ⟨m, hm, (MeasuredTree.beq_iff_tree_eq m t).1 hmt⟩

namespace Parser

/-- What an edge brings along at a position: the alternatives of the non-terminal
    it waits for, its advances by known trees, and the advances of the edges that
    have waited for it to be completed. -/
inductive Brings (g : Grammar) (S : Nat → Edge → Prop) (k : Nat) (known : Tree → Prop) (e : Edge) :
    Edge → Prop where
  | alternative {sym : Symbol} {i : Nat} {rhs : List Symbol} (awaits : e.awaited? = some sym)
      (alternative : (g.expansions sym)[i]? = some rhs) :
      Brings g S k known e (.predicted sym i rhs k)
  | empty {t : Tree} (awaits : e.awaited? = some t.symbol)
      (nonTerminal : g.isNonTerminal t.symbol = true) (isKnown : known t) :
      Brings g S k known e (e.advance t)
  | completion {j : Nat} {w : Edge} (completed : e.IsCompleted) (anchored : e.anchor = j)
      (waiting : S j w) (awaits : w.awaited? = some e.lhs) :
      Brings g S k known e (w.advance e.tree)

/-- What an edge that waits for a symbol brings along. -/
theorem brings_iff_of_awaited? {g : Grammar} {S : Nat → Edge → Prop} {k : Nat}
    {known : Tree → Prop} {e b : Edge} {sym : Symbol} (hsym : e.awaited? = some sym) :
    Brings g S k known e b ↔
      (∃ (i : Nat) (rhs : List Symbol), (g.expansions sym)[i]? = some rhs ∧
        b = .predicted sym i rhs k) ∨
      g.isNonTerminal sym = true ∧ ∃ t, known t ∧ t.symbol = sym ∧ b = e.advance t := by
  constructor
  · intro h
    cases h with
    | @alternative sym' i rhs awaits alternative =>
      rw [hsym] at awaits
      rw [← Option.some.inj awaits] at alternative ⊢
      exact Or.inl ⟨i, rhs, alternative, rfl⟩
    | @empty t awaits nonTerminal isKnown =>
      rw [hsym] at awaits
      have hts := (Option.some.inj awaits).symm
      rw [hts] at nonTerminal
      exact Or.inr ⟨nonTerminal, t, isKnown, hts, rfl⟩
    | completion completed =>
      rw [Edge.awaited?, if_pos completed.1] at hsym
      exact absurd hsym (by simp)
  · rintro (⟨i, rhs, hi, rfl⟩ | ⟨hn, t, ht, rfl, rfl⟩)
    · exact .alternative hsym hi
    · exact .empty hsym hn ht

/-- What an edge with nothing to wait for brings along. -/
theorem brings_iff_of_dot_eq_zero {g : Grammar} {S : Nat → Edge → Prop} {k j : Nat}
    {known : Tree → Prop} {e b : Edge} (hdot : e.dot = 0) (hj : e.anchor = j) :
    Brings g S k known e b ↔ e.IsCompleted ∧
      ∃ w, S j w ∧ w.awaited? = some e.lhs ∧ b = w.advance e.tree := by
  have hnone : e.awaited? = none := by rw [Edge.awaited?, if_pos hdot]
  constructor
  · intro h
    cases h with
    | alternative awaits => exact absurd (hnone.symm.trans awaits) (by simp)
    | empty awaits => exact absurd (hnone.symm.trans awaits) (by simp)
    | @completion i w completed anchored waiting awaits =>
      have hij : i = j := by omega
      rw [hij] at waiting
      exact ⟨completed, w, waiting, awaits, rfl⟩
  · rintro ⟨hc, w, hw, ha, rfl⟩
    exact .completion hc hj hw ha

/-- What an expansion of an item makes of a front. The set stays, the tree of the item
    is known from then on if it is empty, and what the edge of the item brings along
    has been found. -/
structure Finds (g : Grammar) (later : Array StateSet) (n k : Nat) (f : Front) (item : Item)
    (f' : Front) (found : List Item) : Prop where
  set : f'.set = f.set
  knows : ∀ t, f'.Knows t ↔
    f.Knows t ∨ item.edge.IsCompleted ∧ item.anchor = k ∧ item.edge.tree = t
  found : ∀ e, e ∈ found.map Item.edge ↔
    Brings g (EdgeAt n (later.push f.set)) k f.Knows item.edge e

/-- The items of a state set that wait for a symbol can be advanced by a tree. -/
theorem advanceAll_spec (s : StateSet) (sym : Symbol) (t : MeasuredTree) :
    ∃ found, advanceAll (s.awaiting sym) t = .ok found ∧
      ∀ e, e ∈ found.map Item.edge ↔
        ∃ w ∈ s.edges, w.awaited? = some sym ∧ e = w.advance t.tree := by
  have h : ∀ i ∈ s.awaiting sym, ∃ j, i.advance t = .ok j ∧ j.edge = i.edge.advance t.tree :=
    fun i hi =>
      i.exists_advance t (Item.dot_ne_zero_of_awaited? ((s.mem_awaiting_iff sym i).1 hi).2)
  rcases exists_mapM_eq_ok Item.edge (fun i : Item => i.edge.advance t.tree) _ h with
    ⟨found, hok, hmap⟩
  refine ⟨found, hok, fun e => ?_⟩
  rw [hmap, List.mem_map]
  constructor
  · rintro ⟨i, hi, rfl⟩
    rcases (s.mem_awaiting_iff sym i).1 hi with ⟨his, ha⟩
    exact ⟨i.edge, List.mem_map_of_mem his, ha, rfl⟩
  · rintro ⟨w, hw, ha, rfl⟩
    rcases List.mem_map.1 hw with ⟨i, his, rfl⟩
    exact ⟨i, (s.mem_awaiting_iff sym i).2 ⟨his, ha⟩, rfl⟩

/-- Scanning finds the edges that take in a terminal. -/
theorem scan_spec (g : Grammar) (sym : Symbol) (next : StateSet) :
    ∃ found, scan g sym next = .ok found ∧
      ∀ e, e ∈ found.map Item.edge ↔
        g.isNonTerminal sym = false ∧
          ∃ w ∈ next.edges, w.awaited? = some sym ∧ e = w.advance (.leaf sym) := by
  cases hn : g.isNonTerminal sym with
  | true => exact ⟨[], by rw [scan, if_pos hn], by simp⟩
  | false =>
    rcases advanceAll_spec next sym (.leaf sym) with ⟨found, hok, hmem⟩
    refine ⟨found, by rw [scan, hn, if_neg Bool.false_ne_true, hok], fun e => ?_⟩
    rw [hmem]
    exact ⟨fun h => ⟨rfl, h⟩, fun h => h.2⟩

/-- Looking for items at a position finds those of the state set there. -/
theorem waitingAt?_eq {n k j : Nat} {later : Array StateSet} {current : StateSet}
    (hpos : current.position = k) (hsize : k + later.size = n) (hk : k ≤ j) (hj : j ≤ n)
    (sym : Symbol) :
    ∃ s, (later.push current)[n - j]? = some s ∧
      waitingAt? later current j sym = some (s.awaiting sym) := by
  rw [waitingAt?, hpos, Array.getElem?_push]
  by_cases hjk : j = k
  · rw [if_pos (by omega), if_pos (by omega)]
    exact ⟨current, rfl, rfl⟩
  · have hlt : n - j < later.size := by omega
    have hat : later.size - ((j : Int) - k).toNat = n - j := by omega
    rw [if_neg (by omega), if_neg (by omega), if_neg (by omega), if_pos (by omega), hat,
      Array.getElem?_eq_getElem hlt]
    exact ⟨later[n - j], rfl, rfl⟩

/-- The alternatives of a non-terminal are brought as edges without progress. -/
theorem mem_predict_iff (g : Grammar) (sym : Symbol) (position : Int) (e : Edge) :
    e ∈ (predict g sym position).map Item.edge ↔
      ∃ (i : Nat) (rhs : List Symbol), (g.expansions sym)[i]? = some rhs ∧
        e = .predicted sym i rhs position := by
  rw [predict, List.map_map, List.mem_map]
  constructor
  · rintro ⟨⟨rhs, i⟩, hmem, rfl⟩
    exact ⟨i, rhs, List.mem_zipIdx_iff_getElem?.1 hmem, rfl⟩
  · rintro ⟨i, rhs, hi, rfl⟩
    exact ⟨(rhs, i), List.mem_zipIdx_iff_getElem?.2 hi, rfl⟩

/-- An unfinished item brings alternatives and advances by known trees. -/
theorem await_spec {g : Grammar} {later : Array StateSet} {f : Front} {n k : Nat} {item : Item}
    (hpos : f.set.position = k) (hdot : item.dot ≠ 0) :
    ∃ found, await g f item = .ok (f, found) ∧ Finds g later n k f item f found := by
  rcases item.exists_awaited? hdot with ⟨sym, hsym⟩
  have hcur : item.current = .ok sym := by
    rw [Item.current, Item.current?_eq_awaited?, hsym]
  have hknows : ∀ t, f.Knows t ↔
      f.Knows t ∨ item.edge.IsCompleted ∧ item.anchor = k ∧ item.edge.tree = t :=
    fun t => ⟨Or.inl, fun h => h.elim id fun h => absurd h.1.1 hdot⟩
  rw [await, hcur]
  change ∃ found, (if g.isNonTerminal sym = true then _ else _) = _ ∧ _
  cases hn : g.isNonTerminal sym with
  | false =>
    refine ⟨[], rfl, rfl, hknows, fun e => ?_⟩
    -- A terminal has no alternatives.
    rw [brings_iff_of_awaited? hsym, hn]
    refine ⟨fun h => absurd h List.not_mem_nil, ?_⟩
    rintro (⟨i, rhs, hi, _⟩ | ⟨h, _⟩)
    · rw [Grammar.isNonTerminal_of_mem_expansions (List.mem_of_getElem? hi)] at hn
      exact absurd hn.symm Bool.false_ne_true
    · exact absurd h Bool.false_ne_true
  | true =>
    rcases exists_mapM_eq_ok Item.edge (fun t => item.edge.advance t.tree)
      (f.empties.filter (·.symbol = sym)) (fun t _ => item.exists_advance t hdot) with
      ⟨advanced, hok, hmap⟩
    refine ⟨predict g sym f.set.position ++ advanced, ?_, rfl, hknows, fun e => ?_⟩
    · rw [if_pos rfl, hok]
      rfl
    · rw [brings_iff_of_awaited? hsym, List.map_append, List.mem_append, mem_predict_iff, hmap,
        List.mem_map, OrderedSet.filter_eq_filter_toList, hpos]
      refine or_congr Iff.rfl ?_
      constructor
      · rintro ⟨t, ht, rfl⟩
        rcases List.mem_filter.1 ht with ⟨hmem, hts⟩
        exact ⟨hn, t.tree, ⟨t, hmem, rfl⟩, of_decide_eq_true hts, rfl⟩
      · rintro ⟨_, _, ⟨m, hm, rfl⟩, hts, rfl⟩
        exact ⟨m, List.mem_filter.2 ⟨hm, decide_eq_true hts⟩, rfl⟩

/-- A finished item brings the advances of all items that wait for it. If its tree
    is empty, the tree is known from then on. -/
theorem complete_spec {g : Grammar} {later : Array StateSet} {f : Front} {n k : Nat} {item : Item}
    (hpos : f.set.position = k) (hsize : k + later.size = n) (hdot : item.dot = 0)
    (hle : (k : Int) ≤ item.anchor) (hn : item.anchor ≤ n) :
    ∃ f' found, complete later f item = .ok (f', found) ∧ Finds g later n k f item f' found := by
  rcases Int.eq_ofNat_of_zero_le (a := item.anchor) (by omega) with ⟨j, hj⟩
  by_cases htop : item.alternative = Item.topAlternative
  · -- A top item is not completed, so it has nothing to bring.
    have hnot : ¬item.edge.IsCompleted := fun h => h.2 htop
    have hisTop : item.isTop = true := by
      rw [Item.isTop, htop]
      rfl
    refine ⟨f, [], by rw [complete, if_pos hisTop], rfl, fun t => ?_, fun e => ?_⟩
    · exact ⟨Or.inl, fun h => h.elim id fun h => absurd h.1 hnot⟩
    · rw [brings_iff_of_dot_eq_zero hdot hj]
      exact ⟨fun h => absurd h List.not_mem_nil, fun h => absurd h.1 hnot⟩
  · have hcomp : item.edge.IsCompleted := ⟨hdot, htop⟩
    have hisTop : ¬item.isTop = true := by
      rw [Item.isTop, beq_iff_eq]
      exact htop
    rcases item.exists_complete hdot with ⟨t, ht, htree⟩
    rcases waitingAt?_eq (j := j) hpos hsize (by omega) (by omega) item.lhs with
      ⟨s, hs, hwait⟩
    rcases advanceAll_spec s item.lhs t with ⟨found, hok, hmem⟩
    refine ⟨if item.anchor = f.set.position then { f with empties := f.empties.insert t } else f,
      found, ?_, ?_, fun u => ?_, fun e => ?_⟩
    · rw [complete, if_neg hisTop, ht, hj, hwait]
      change (do let advanced ← advanceAll (s.awaiting item.lhs) t; _) = _
      rw [hok]
      rfl
    · split <;> rfl
    · rw [hpos, ← htree]
      by_cases ha : item.anchor = k
      · rw [if_pos ha, Front.knows_insert]
        exact or_congr Iff.rfl ⟨fun h => ⟨hcomp, ha, h⟩, fun h => h.2.2⟩
      · rw [if_neg ha]
        exact ⟨Or.inl, fun h => h.elim id fun h => absurd h.2.1 ha⟩
    · rw [hmem, brings_iff_of_dot_eq_zero hdot hj, ← htree]
      constructor
      · rintro ⟨w, hw, ha, rfl⟩
        exact ⟨hcomp, w, ⟨by omega, s, hs, hw⟩, ha, rfl⟩
      · rintro ⟨_, w, ⟨_, s', hs', hw⟩, ha, rfl⟩
        rw [hs] at hs'
        rw [← Option.some.inj hs'] at hw
        exact ⟨w, hw, ha, rfl⟩

/-- An expansion never fails, provided that the item is anchored at a position that
    has a state set. -/
theorem expand_spec {g : Grammar} {later : Array StateSet} {f : Front} {n k : Nat} {item : Item}
    (hpos : f.set.position = k) (hsize : k + later.size = n) (hle : (k : Int) ≤ item.anchor)
    (hn : item.anchor ≤ n) :
    ∃ f' found, expand g later f item = .ok (f', found) ∧ Finds g later n k f item f' found := by
  by_cases hdot : item.dot = 0
  · have hfin : item.isFinished = true := by rw [Item.isFinished, hdot]; rfl
    rw [expand, if_pos hfin]
    exact complete_spec hpos hsize hdot hle hn
  · have hfin : ¬item.isFinished = true := by
      rw [Item.isFinished, beq_iff_eq]
      exact hdot
    rw [expand, if_neg hfin]
    rcases await_spec hpos hdot with ⟨found, hok, hfinds⟩
    exact ⟨f, found, hok, hfinds⟩

end Parser

end Derivations
