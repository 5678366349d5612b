import Derivations.Proofs.Chart.Expansion

/-!
# Working through a Queue

What holds while the parser works at one position. The state set being filled and
the queue together hold only edges that can be deduced, the empty trees known are
those of the edges completed at the position, and whatever an edge of the set
brings along is in the set or still in the queue.

The last point is where the order of work could matter. A tree that covers nothing
is completed at the position where others wait for its symbol, and of a completed
edge and one that waits for it either may come first. If the completed edge comes
second, it finds the other one in the set; if it comes first, its tree is known
when the other one arrives. So adding an item keeps the invariant whatever is in
the set already, and when the queue is used up, the set obeys the rules.

Items are passed over if an equal one is in the set. Equal items have equal edges
here because all productions belong to one grammar.

The queue may have no end. Every step of the loop adds an item, so the room left
counts the steps.

## Main definitions

* `Worklist`: The invariant of the loop.
* `Parser.Filled`: What a state set is like when the loop has ended.

## Theorems

* `Parser.Brings.deducible`: What is brought along can be deduced.
* `Worklist.initial`: The invariant holds to begin with.
* `Worklist.pass`, `Worklist.skip`: Passing over items that are there keeps the invariant.
* `Worklist.step`: Adding an item and what it brings keeps the invariant.
* `Worklist.closedAt`: With nothing left to do, the set obeys the rules.
* `Parser.fill_spec`: The loop ends, without a fault and with a set like that.
-/

namespace Derivations

open Derivations.Parser

section

variable (g : Grammar) (start : Symbol) (input : List Symbol)

/-- What holds while the parser works at position `k`, with the state sets behind
    it filled and the items of `queue` still to be taken. -/
structure Worklist (later : Array StateSet) (k : Nat) (f : Front) (queue : List Item) : Prop where
  position : f.set.position = k
  untruncated : f.set.truncated = false
  proper : f.set.items.Proper
  deducible : ∀ e ∈ f.set.edges ++ queue.map Item.edge, Deducible g start input k e
  knows : ∀ t, f.Knows t ↔ ∃ c ∈ f.set.edges, c.IsCompleted ∧ c.anchor = k ∧ c.tree = t
  /-- What an edge of the set brings along is in the set or in the queue. -/
  brings : ∀ e ∈ f.set.edges, ∀ b,
    Brings g (EdgeAt input.length (later.push f.set)) k f.Knows e b →
      b ∈ f.set.edges ++ queue.map Item.edge

/-- What a state set is like when the parser has left its position. A set that has
    been cut off has no room left. -/
structure Parser.Filled (limit : Nat) (later : Array StateSet) (k : Nat) (s : StateSet) : Prop where
  position : s.position = k
  proper : s.items.Proper
  deducible : ∀ e ∈ s.edges, Deducible g start input k e
  size_le : s.size ≤ limit + 1
  size_of_truncated : s.truncated = true → s.size = limit + 1
  exhausted : s.truncated = false → ∃ known, Worklist g start input later k ⟨s, known⟩ []

end

variable {g : Grammar} {start : Symbol} {input : List Symbol}
variable {later : Array StateSet} {k : Nat} {f : Front}

/-- What an edge brings along can be deduced, if the edges of the family and those
    behind the known trees can. -/
theorem Parser.Brings.deducible {S : Nat → Edge → Prop} {known : Tree → Prop} {e b : Edge}
    (h : Brings g S k known e b) (he : Deducible g start input k e)
    (hS : ∀ j w, S j w → Deducible g start input j w)
    (hknown : ∀ t, known t →
      ∃ c, Deducible g start input k c ∧ c.IsCompleted ∧ c.anchor = k ∧ c.tree = t) :
    Deducible g start input k b := by
  cases h with
  | alternative awaits alternative => exact .predict he awaits alternative
  | empty awaits nonTerminal isKnown =>
    rcases hknown _ isKnown with ⟨c, hc, hcc, hca, rfl⟩
    exact .complete hc hcc hca he awaits
  | completion completed anchored waiting awaits =>
    exact .complete he completed anchored (hS _ _ waiting) awaits

namespace Worklist

/-- An item that is passed over has its edge in the set. -/
theorem mem_edges_of_contains {queue : List Item} (h : Worklist g start input later k f queue)
    {i : Item} (hi : i ∈ queue) (hc : f.set.contains i = true) : i.edge ∈ f.set.edges := by
  rcases OrderedSet.exists_of_contains hc with ⟨j, hj, hji⟩
  have hje : j.edge ∈ f.set.edges := List.mem_map_of_mem hj
  have hjr := (h.deducible _ (List.mem_append_left _ hje)).valid.hasRule
  have hir := (h.deducible _ (List.mem_append_right _ (List.mem_map_of_mem hi))).valid.hasRule
  rw [← Item.edge_eq_of_beq hji hjr hir]
  exact hje

/-- To begin with, nothing has been found, and the items in the queue can be deduced. -/
theorem initial {seeds : List Item}
    (hseeds : ∀ e ∈ seeds.map Item.edge, Deducible g start input k e) :
    Worklist g start input later k ⟨.empty k, .empty⟩ seeds := by
  refine ⟨rfl, rfl, OrderedSet.proper_empty, hseeds, fun t => ?_, fun e he => ?_⟩
  · constructor
    · rintro ⟨m, hm, _⟩
      exact absurd hm List.not_mem_nil
    · rintro ⟨c, hc, _⟩
      exact absurd hc List.not_mem_nil
  · exact absurd he List.not_mem_nil

/-- What is in the set or in the queue still is when an item has been passed over. -/
theorem mem_pass {i : Item} {rest : List Item}
    (h : Worklist g start input later k f (i :: rest)) (hc : f.set.contains i = true) {b : Edge}
    (hb : b ∈ f.set.edges ++ (i :: rest).map Item.edge) :
    b ∈ f.set.edges ++ rest.map Item.edge := by
  rcases List.mem_append.1 hb with hb | hb
  · exact List.mem_append_left _ hb
  · rcases List.mem_cons.1 hb with rfl | hb
    · exact List.mem_append_left _ (h.mem_edges_of_contains List.mem_cons_self hc)
    · exact List.mem_append_right _ hb

/-- Passing over an item that is in the set keeps the invariant. -/
theorem pass {i : Item} {rest : List Item} (h : Worklist g start input later k f (i :: rest))
    (hc : f.set.contains i = true) : Worklist g start input later k f rest := by
  refine ⟨h.position, h.untruncated, h.proper, fun e he => h.deducible e ?_, h.knows,
    fun e he b hb => h.mem_pass hc (h.brings e he b hb)⟩
  rcases List.mem_append.1 he with he | he
  · exact List.mem_append_left _ he
  · exact List.mem_append_right _ (List.mem_cons_of_mem _ he)

/-- Passing over any number of items that are in the set keeps the invariant, and nothing
    gets lost by it. -/
theorem skip {queue : List Item} (h : Worklist g start input later k f queue) :
    Worklist g start input later k f (queue.dropWhile f.set.contains) ∧
      ∀ b ∈ f.set.edges ++ queue.map Item.edge,
        b ∈ f.set.edges ++ (queue.dropWhile f.set.contains).map Item.edge := by
  induction queue with
  | nil => exact ⟨h, fun b hb => hb⟩
  | cons i rest ih =>
    by_cases hc : f.set.contains i = true
    · rw [List.dropWhile_cons_of_pos hc]
      rcases ih (h.pass hc) with ⟨hrest, hmem⟩
      exact ⟨hrest, fun b hb => hmem b (h.mem_pass hc hb)⟩
    · rw [List.dropWhile_cons_of_neg hc]
      exact ⟨h, fun b hb => hb⟩

section Step

variable {i : Item} {rest found : List Item} {f' : Front}

/-- An item that is new adds its edge behind all others. -/
theorem edges_step (hnew : f.set.contains i = false)
    (hx : Finds g later input.length k { f with set := f.set.insert i } i f' found) :
    f'.set.edges = f.set.edges ++ [i.edge] := by
  rw [hx.set]
  exact f.set.edges_insert i hnew

/-- What is in the set or in the queue still is when the first item of the queue has
    been added to the set. -/
theorem mem_step (hnew : f.set.contains i = false)
    (hx : Finds g later input.length k { f with set := f.set.insert i } i f' found) {b : Edge}
    (hb : b ∈ f.set.edges ++ (i :: rest).map Item.edge) :
    b ∈ f'.set.edges ++ (rest ++ found).map Item.edge := by
  rw [edges_step hnew hx, List.map_append]
  rcases List.mem_append.1 hb with hb | hb
  · exact List.mem_append_left _ (List.mem_append_left _ hb)
  · rcases List.mem_cons.1 hb with rfl | hb
    · exact List.mem_append_left _ (List.mem_append_right _ List.mem_cons_self)
    · exact List.mem_append_right _ (List.mem_append_left _ hb)

/-- What the new item brings along is in the queue afterwards. -/
theorem mem_step_of_brings
    (hx : Finds g later input.length k { f with set := f.set.insert i } i f' found) {b : Edge}
    (hb : Brings g (EdgeAt input.length (later.push f'.set)) k f.Knows i.edge b) :
    b ∈ f'.set.edges ++ (rest ++ found).map Item.edge := by
  rw [hx.set] at hb
  rw [List.map_append]
  exact List.mem_append_right _ (List.mem_append_right _ ((hx.found b).2 hb))

/-- Everything is deducible after the step if it was before. -/
theorem deducible_step (h : Worklist g start input later k f (i :: rest))
    (hsize : k + later.size = input.length)
    (hlater : ∀ j e, EdgeAt input.length later j e → Deducible g start input j e)
    (hnew : f.set.contains i = false)
    (hx : Finds g later input.length k { f with set := f.set.insert i } i f' found) :
    ∀ e ∈ f'.set.edges ++ (rest ++ found).map Item.edge, Deducible g start input k e := by
  have hi : Deducible g start input k i.edge :=
    h.deducible _ (List.mem_append_right _ List.mem_cons_self)
  have hset : ∀ e ∈ f'.set.edges, Deducible g start input k e := by
    intro e he
    rw [edges_step hnew hx] at he
    rcases List.mem_append.1 he with he | he
    · exact h.deducible e (List.mem_append_left _ he)
    · rw [List.mem_singleton.1 he]
      exact hi
  intro e he
  rw [List.map_append] at he
  rcases List.mem_append.1 he with he | he
  · exact hset e he
  · rcases List.mem_append.1 he with he | he
    · exact h.deducible e (List.mem_append_right _ (List.mem_cons_of_mem _ he))
    · have hb := (hx.found e).1 he
      rw [← hx.set] at hb
      refine hb.deducible hi (fun j w hw => ?_) fun t ht => ?_
      · rcases (edgeAt_push hsize f'.set j w).1 hw with hw | ⟨rfl, hw⟩
        · exact hlater j w hw
        · exact hset w hw
      · rcases (h.knows t).1 ht with ⟨c, hc, hcc, hca, hct⟩
        exact ⟨c, h.deducible c (List.mem_append_left _ hc), hcc, hca, hct⟩

/-- The known trees are those of completed edges after the step if they were before. -/
theorem knows_step (h : Worklist g start input later k f (i :: rest))
    (hnew : f.set.contains i = false)
    (hx : Finds g later input.length k { f with set := f.set.insert i } i f' found) (t : Tree) :
    f'.Knows t ↔ ∃ c ∈ f'.set.edges, c.IsCompleted ∧ c.anchor = k ∧ c.tree = t := by
  have hk : Front.Knows { f with set := f.set.insert i } t ↔ f.Knows t := Iff.rfl
  rw [hx.knows, edges_step hnew hx, hk, h.knows]
  constructor
  · rintro (⟨c, hc, hcc⟩ | ⟨hcc, hca, hct⟩)
    · exact ⟨c, List.mem_append_left _ hc, hcc⟩
    · exact ⟨i.edge, List.mem_append_right _ List.mem_cons_self, hcc, hca, hct⟩
  · rintro ⟨c, hc, hcc, hca, hct⟩
    rcases List.mem_append.1 hc with hc | hc
    · exact Or.inl ⟨c, hc, hcc, hca, hct⟩
    · rw [List.mem_singleton.1 hc] at hcc hca hct
      exact Or.inr ⟨hcc, hca, hct⟩

/-- What the edges of the set bring along is in the set or in the queue after the step.
    An edge that was there brings something new only together with the new item: either
    it waits for the empty tree of the new item, or the new item waits for its own. Both
    times the new item brings the same. -/
theorem brings_step (h : Worklist g start input later k f (i :: rest))
    (hsize : k + later.size = input.length) (hnew : f.set.contains i = false)
    (hx : Finds g later input.length k { f with set := f.set.insert i } i f' found) {e b : Edge}
    (he : e ∈ f'.set.edges)
    (hb : Brings g (EdgeAt input.length (later.push f'.set)) k f'.Knows e b) :
    b ∈ f'.set.edges ++ (rest ++ found).map Item.edge := by
  have hedges := edges_step hnew hx
  -- The only edge that is new anywhere is that of the item.
  have hS : ∀ j e, EdgeAt input.length (later.push f'.set) j e ↔
      EdgeAt input.length (later.push f.set) j e ∨ j = k ∧ e = i.edge := by
    intro j e
    rw [edgeAt_push hsize, edgeAt_push hsize, hedges, List.mem_append, List.mem_singleton, or_assoc,
      and_or_left]
  rw [hedges] at he
  rcases List.mem_append.1 he with he | he
  · cases hb with
    | alternative awaits alternative =>
      exact mem_step hnew hx (h.brings e he _ (.alternative awaits alternative))
    | @empty t awaits nonTerminal isKnown =>
      rcases (hx.knows t).1 isKnown with hk | ⟨hcc, hca, rfl⟩
      · exact mem_step hnew hx (h.brings e he _ (.empty awaits nonTerminal hk))
      · have hek : EdgeAt input.length (later.push f'.set) k e := by
          rw [hS, edgeAt_push hsize]
          exact Or.inl (Or.inr ⟨rfl, he⟩)
        exact mem_step_of_brings hx (.completion hcc hca hek awaits)
    | @completion j w completed anchored waiting awaits =>
      rcases (hS j w).1 waiting with hw | ⟨rfl, rfl⟩
      · exact mem_step hnew hx (h.brings e he _ (.completion completed anchored hw awaits))
      · have hvalid := (h.deducible e (List.mem_append_left _ he)).valid
        have hn : g.isNonTerminal e.tree.symbol = true := by
          have hl := (hvalid.isDerivation_tree completed).isLeaf_eq
          rw [Edge.tree, Tree.isLeaf, eq_comm, Bool.not_eq_false'] at hl
          exact hl
        have hk := (h.knows e.tree).2 ⟨e, he, completed, anchored, rfl⟩
        exact mem_step_of_brings hx (.empty awaits hn hk)
  · rw [List.mem_singleton.1 he] at hb
    -- What the new item brings has been found. It does not take in its own tree.
    refine mem_step_of_brings hx ?_
    cases hb with
    | alternative awaits alternative => exact .alternative awaits alternative
    | @empty t awaits nonTerminal isKnown =>
      rcases (hx.knows t).1 isKnown with hk | ⟨hcc, _, _⟩
      · exact .empty awaits nonTerminal hk
      · exact absurd hcc.1 (Item.dot_ne_zero_of_awaited? awaits)
    | completion completed anchored waiting awaits =>
      exact .completion completed anchored waiting awaits

/-- Adding an item and putting what it brings into the queue keeps the invariant. -/
theorem step (h : Worklist g start input later k f (i :: rest))
    (hsize : k + later.size = input.length)
    (hlater : ∀ j e, EdgeAt input.length later j e → Deducible g start input j e)
    (hnew : f.set.contains i = false) :
    ∃ f' found, expand g later { f with set := f.set.insert i } i = .ok (f', found) ∧
      Finds g later input.length k { f with set := f.set.insert i } i f' found ∧
      Worklist g start input later k f' (rest ++ found) := by
  have hi : Deducible g start input k i.edge :=
    h.deducible _ (List.mem_append_right _ List.mem_cons_self)
  have hpos : (f.set.insert i).position = k := by
    rw [StateSet.position_insert, h.position]
  rcases expand_spec (g := g) (f := { f with set := f.set.insert i }) hpos hsize
    hi.valid.le_anchor hi.valid.anchor_le with ⟨f', found, hok, hx⟩
  refine ⟨f', found, hok, hx, ?_, ?_, ?_, h.deducible_step hsize hlater hnew hx,
    h.knows_step hnew hx, fun e he b hb => h.brings_step hsize hnew hx he hb⟩
  · rw [hx.set, hpos]
  · rw [hx.set, StateSet.truncated_insert, h.untruncated]
  · rw [hx.set]
    exact StateSet.proper_insert h.proper i

end Step

/-- With nothing left to do, the set obeys the rules, provided that it holds what
    the loop had to begin with. -/
theorem closedAt {queue : List Item} (h : Worklist g start input later k f queue)
    (hq : queue = []) (hsize : k + later.size = input.length)
    (htop : k = input.length → Edge.top start input.length ∈ f.set.edges)
    (hscan : ∀ w sym, EdgeAt input.length later (k + 1) w → w.awaited? = some sym →
      input[k]? = some sym → g.isNonTerminal sym = false → w.advance (.leaf sym) ∈ f.set.edges) :
    ClosedAt g start input (EdgeAt input.length (later.push f.set)) k := by
  subst hq
  have hat : ∀ j e, EdgeAt input.length (later.push f.set) j e ↔
      EdgeAt input.length later j e ∨ j = k ∧ e ∈ f.set.edges := edgeAt_push hsize f.set
  have hk : ∀ e, EdgeAt input.length (later.push f.set) k e → e ∈ f.set.edges := by
    intro e he
    rcases (hat k e).1 he with ⟨_, s, hs, _⟩ | ⟨_, he⟩
    · -- The sets filled before belong to later positions.
      have hlt := (Array.getElem?_eq_some_iff.1 hs).1
      omega
    · exact he
  have hbrings : ∀ e ∈ f.set.edges, ∀ b,
      Brings g (EdgeAt input.length (later.push f.set)) k f.Knows e b →
        EdgeAt input.length (later.push f.set) k b := by
    intro e he b hb
    have hmem := h.brings e he b hb
    rw [List.map_nil, List.append_nil] at hmem
    exact (hat k b).2 (Or.inr ⟨rfl, hmem⟩)
  refine ⟨fun hn => ?_, fun he ha hi => ?_, fun {w sym} hw ha hi ht => ?_,
    fun hc hcc hca hw ha => ?_⟩
  · exact (hat k _).2 (Or.inr ⟨rfl, htop hn⟩)
  · exact hbrings _ (hk _ he) _ (.alternative ha hi)
  · refine (hat k _).2 (Or.inr ⟨rfl, hscan w sym ?_ ha hi ht⟩)
    rcases (hat _ _).1 hw with hw | ⟨hne, _⟩
    · exact hw
    · omega
  · exact hbrings _ (hk _ hc) _ (.completion hcc hca hw ha)

end Worklist

/-- The loop ends without a fault, whatever is in the queue. The set is filled, and
    if it has not been cut off, it holds all that was in the set or in the queue. -/
theorem Parser.fill_spec (limit : Nat) (hsize : k + later.size = input.length)
    (hlater : ∀ j e, EdgeAt input.length later j e → Deducible g start input j e)
    (room : Nat) (queue : Queue Item) (h : Worklist g start input later k f queue.toList)
    (hroom : f.set.size + room = limit + 1) :
    ∃ s, fill g later room queue f = .ok s ∧ Filled g start input limit later k s ∧
      (s.truncated = false → ∀ b ∈ f.set.edges ++ queue.toList.map Item.edge, b ∈ s.edges) := by
  -- Induction on the room left, which every step takes one of.
  induction room generalizing queue f with
  | zero =>
    rw [fill]
    have hd : ∀ e ∈ f.set.edges, Deducible g start input k e :=
      fun e he => h.deducible e (List.mem_append_left _ he)
    by_cases hq : queue.isEmpty = true
    · rw [if_pos hq]
      rw [(Queue.isEmpty_iff queue).1 hq] at h ⊢
      refine ⟨f.set, rfl, ⟨h.position, h.proper, hd, by omega, fun _ => by omega,
        fun _ => ⟨f.empties, h⟩⟩, fun _ b hb => ?_⟩
      simpa using hb
    · rw [if_neg hq]
      refine ⟨f.set.cutOff, rfl, ⟨h.position, h.proper, hd, ?_, fun _ => ?_, ?_⟩, ?_⟩
      · exact Nat.le_of_eq hroom
      · exact hroom
      · exact fun ht => absurd ht (by rw [StateSet.cutOff]; exact Bool.noConfusion)
      · exact fun ht => absurd ht (by rw [StateSet.cutOff]; exact Bool.noConfusion)
  | succ room ih =>
    rw [fill]
    rcases h.skip with ⟨hskip, hkept⟩
    cases hn : queue.next? f.set.contains with
    | none =>
      rw [(Queue.next?_eq_none_iff _ _).1 hn] at hskip
      refine ⟨f.set, rfl, ⟨h.position, h.proper,
        fun e he => h.deducible e (List.mem_append_left _ he), by omega,
        fun ht => absurd ht (by rw [h.untruncated]; exact Bool.noConfusion),
        fun _ => ⟨f.empties, hskip⟩⟩, fun _ b hb => ?_⟩
      have hmem := hkept b hb
      rw [(Queue.next?_eq_none_iff _ _).1 hn, List.map_nil, List.append_nil] at hmem
      exact hmem
    | some next =>
      rcases next with ⟨i, rest⟩
      have hdrop := Queue.dropWhile_toList_of_next? hn
      have hnew : f.set.contains i = false := Queue.pass_eq_false_of_next? hn
      rw [hdrop] at hskip
      rcases hskip.step hsize hlater hnew with ⟨f', found, hok, hx, hstep⟩
      have hsz : f'.set.size = f.set.size + 1 := by
        rw [hx.set, StateSet.size_insert f.set i hnew]
      rw [← Queue.toList_join] at hstep
      rcases ih (rest.join found) hstep (by omega) with ⟨s, hs, hfilled, hall⟩
      refine ⟨s, ?_, hfilled, fun ht b hb => ?_⟩
      · simp only [hok]
        exact hs
      · refine hall ht b ?_
        have hmem := hkept b hb
        rw [hdrop] at hmem
        rw [Queue.toList_join]
        exact Worklist.mem_step hnew hx hmem

end Derivations
