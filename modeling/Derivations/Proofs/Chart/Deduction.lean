import Derivations.Chart.Item
import Derivations.Proofs.Grammar.Derivation

/-!
# The Deduction System behind the Chart

What belongs into a chart can be said without queues and without an order of
work. An edge is what a chart item says: a production, how much of its right-hand
side has been found, where the part found ends in the input, and the trees for it.
Four rules tell which edges can be deduced at which positions, the position being
that where the part found begins.

The rules neither know a limit nor care in which order edges come up. In
particular it makes no difference to the rule of completion whether the tree it
takes in covers a part of the input or is empty.

Every edge that can be deduced is valid: its trees are derivation trees for the
symbols right of its dot, and side by side they spell the input from the position
to the anchor. Conversely, whenever an edge waits for a symbol, every derivation
tree for that symbol that ends where the edge begins can be taken in. This goes by
induction on the tree: its children are taken in from right to left by an edge for
the production at its root, which the rule of prediction provides.

## Main definitions

* `Edge`: A production with the progress made in finding its right-hand side.
* `Edge.awaited?`, `Edge.advance`, `Edge.tree`: The symbol left of the dot, the
  edge with the dot moved over it, and the tree of an edge.
* `Deducible`: The four rules.
* `Edge.HasRule`: The production of an edge belongs to the grammar.
* `Edge.Valid`: What the trees of an edge have to do with the input.
* `ClosedAt`: A family of edges obeys the rules at a position.

## Theorems

* `Edge.HasRule.rhs_eq`: The number of an alternative determines it.
* `Edge.Valid.advance`: Taking in a derivation tree keeps an edge valid.
* `Deducible.valid`: Every edge that can be deduced is valid.
* `Deducible.advance_tree`: Every derivation tree can be taken in.
* `Deducible.of_closedAt`: What obeys the rules holds all that can be deduced.
* `Deducible.advance_top_iff`: The edges for the rule above the start symbol stand
  for the derivation trees of the input.
-/

namespace Derivations

/-- A production with the progress made in finding its right-hand side: the dot
    counts the symbols not found yet, the others have been found in front of the
    anchor. -/
structure Edge where
  lhs : Symbol
  alternative : Int
  rhs : List Symbol
  dot : Nat
  anchor : Int
  found : List Tree

namespace Edge

/-- An edge without progress. -/
def predicted (lhs : Symbol) (alternative : Int) (rhs : List Symbol) (anchor : Int) : Edge :=
  ⟨lhs, alternative, rhs, rhs.length, anchor, []⟩

/-- The edge without progress for the rule above the start symbol. -/
def top (start : Symbol) (anchor : Int) : Edge :=
  predicted Item.topSymbol Item.topAlternative [start] anchor

/-- The symbol just left of the dot, if there is one. -/
def awaited? (e : Edge) : Option Symbol :=
  if e.dot = 0 then none else e.rhs[e.dot - 1]?

/-- Moves the dot over one symbol, taking in a tree for it. -/
def advance (e : Edge) (t : Tree) : Edge :=
  { e with dot := e.dot - 1, found := t :: e.found }

/-- The left-hand side over the trees found. -/
def tree (e : Edge) : Tree :=
  .node e.lhs e.found

/-- The dot has arrived at the left end, and the production belongs to the
    grammar. -/
def IsCompleted (e : Edge) : Prop :=
  e.dot = 0 ∧ e.alternative ≠ Item.topAlternative

/-- The production is the rule above the start symbol, or the alternative with the
    given number. -/
def HasRule (g : Grammar) (start : Symbol) (e : Edge) : Prop :=
  e.alternative = Item.topAlternative ∧ e.lhs = Item.topSymbol ∧ e.rhs = [start] ∨
    ∃ i : Nat, e.alternative = i ∧ (g.expansions e.lhs)[i]? = some e.rhs

end Edge

section

variable (g : Grammar) (start : Symbol) (input : List Symbol)

/-- The edges that can be deduced at a position. -/
inductive Deducible : Nat → Edge → Prop where
  /-- The rule above the start symbol is there from the beginning. -/
  | top : Deducible input.length (.top start input.length)
  /-- An edge that waits for a non-terminal brings its alternatives. -/
  | predict {k i : Nat} {e : Edge} {sym : Symbol} {rhs : List Symbol} (waiting : Deducible k e)
      (awaits : e.awaited? = some sym) (alternative : (g.expansions sym)[i]? = some rhs) :
      Deducible k (.predicted sym i rhs k)
  /-- An edge that waits for the terminal in front of it takes it in. -/
  | scan {k : Nat} {e : Edge} {sym : Symbol} (waiting : Deducible (k + 1) e)
      (awaits : e.awaited? = some sym) (next : input[k]? = some sym)
      (terminal : g.isNonTerminal sym = false) : Deducible k (e.advance (.leaf sym))
  /-- A completed edge is taken in by those which wait for it at its anchor. -/
  | complete {k j : Nat} {c e : Edge} (finished : Deducible k c) (completed : c.IsCompleted)
      (anchored : c.anchor = j) (waiting : Deducible j e) (awaits : e.awaited? = some c.lhs) :
      Deducible k (e.advance c.tree)

/-- A family of edges obeys the rules at a position: what they bring is there
    already. -/
structure ClosedAt (S : Nat → Edge → Prop) (k : Nat) : Prop where
  top : k = input.length → S k (.top start input.length)
  predict : ∀ {e : Edge} {sym : Symbol} {i : Nat} {rhs : List Symbol}, S k e →
    e.awaited? = some sym → (g.expansions sym)[i]? = some rhs → S k (.predicted sym i rhs k)
  scan : ∀ {e : Edge} {sym : Symbol}, S (k + 1) e → e.awaited? = some sym →
    input[k]? = some sym → g.isNonTerminal sym = false → S k (e.advance (.leaf sym))
  complete : ∀ {c e : Edge} {j : Nat}, S k c → c.IsCompleted → c.anchor = j → S j e →
    e.awaited? = some c.lhs → S k (e.advance c.tree)

/-- What the trees of an edge at a position have to do with the input. -/
structure Edge.Valid (k : Nat) (e : Edge) : Prop where
  hasRule : e.HasRule g start
  dot_le : e.dot ≤ e.rhs.length
  le_anchor : (k : Int) ≤ e.anchor
  anchor_le : e.anchor ≤ input.length
  anchor_of_top : e.alternative = Item.topAlternative → e.anchor = input.length
  symbols : e.found.map Tree.symbol = e.rhs.drop e.dot
  derived : ∀ t ∈ e.found, g.IsDerivation t
  /-- From the position on, the input begins with the frontier and goes on behind
      the anchor. -/
  frontier : input.drop k = Tree.frontierAll e.found ++ input.drop e.anchor.toNat

end

variable {g : Grammar} {start : Symbol} {input : List Symbol}

namespace Edge

/-- An edge waits for a symbol if the symbol has its place left of the dot. -/
theorem awaited?_eq_some_iff (e : Edge) (sym : Symbol) :
    e.awaited? = some sym ↔ ∃ i, e.dot = i + 1 ∧ e.rhs[i]? = some sym := by
  rw [awaited?]
  cases hd : e.dot with
  | zero => simp
  | succ i => simp

/-- The number of an alternative determines it, so the left-hand side and the
    alternative of an edge determine its production. -/
theorem HasRule.rhs_eq {e f : Edge} (he : e.HasRule g start) (hf : f.HasRule g start)
    (hl : e.lhs = f.lhs) (ha : e.alternative = f.alternative) : e.rhs = f.rhs := by
  -- Alternatives are counted from zero, so none of them has the number of the top rule.
  have hne : ∀ i : Nat, Item.topAlternative ≠ i := fun i h => by
    rw [Item.topAlternative] at h
    omega
  rcases he with ⟨hea, _, her⟩ | ⟨i, hi, hei⟩
  · rcases hf with ⟨_, _, hfr⟩ | ⟨j, hj, _⟩
    · rw [her, hfr]
    · exact absurd (hea.symm.trans (ha.trans hj)) (hne j)
  · rcases hf with ⟨hfa, _, _⟩ | ⟨j, hj, hfj⟩
    · exact absurd (hfa.symm.trans (ha.symm.trans hi)) (hne i)
    · have hij : i = j := by
        have h : (i : Int) = j := hi.symm.trans (ha.trans hj)
        omega
      rw [hl, hij, hfj] at hei
      exact (Option.some.inj hei).symm

/-- An edge without progress is valid where its anchor is. -/
theorem valid_predicted {lhs : Symbol} {alternative : Int} {rhs : List Symbol} {k : Nat}
    (hr : (predicted lhs alternative rhs k).HasRule g start) (hk : k ≤ input.length)
    (ht : alternative = Item.topAlternative → k = input.length) :
    (predicted lhs alternative rhs k).Valid g start input k where
  hasRule := hr
  dot_le := Nat.le_refl _
  le_anchor := Int.le_refl _
  anchor_le := Int.ofNat_le.2 hk
  anchor_of_top := fun h => congrArg Int.ofNat (ht h)
  symbols := List.drop_length.symm
  derived := fun _ h => absurd h List.not_mem_nil
  frontier := by simp [predicted, Tree.frontierAll]

/-- Taking in a derivation tree that ends where the edge begins keeps an edge
    valid, and moves it to where the tree begins. -/
theorem Valid.advance {e : Edge} {t : Tree} {k j : Nat} (he : e.Valid g start input j)
    (ha : e.awaited? = some t.symbol) (ht : g.IsDerivation t) (hkj : k ≤ j)
    (hf : input.drop k = t.frontier ++ input.drop j) :
    (e.advance t).Valid g start input k := by
  rcases (awaited?_eq_some_iff e t.symbol).1 ha with ⟨i, hd, hi⟩
  rcases List.getElem?_eq_some_iff.1 hi with ⟨hlt, hget⟩
  refine ⟨he.hasRule, ?_, ?_, he.anchor_le, he.anchor_of_top, ?_, ?_, ?_⟩
  · have := he.dot_le
    change e.dot - 1 ≤ e.rhs.length
    omega
  · have := he.le_anchor
    change (k : Int) ≤ e.anchor
    omega
  · change (t :: e.found).map Tree.symbol = e.rhs.drop (e.dot - 1)
    rw [List.map_cons, he.symbols, hd, Nat.add_sub_cancel, List.drop_eq_getElem_cons hlt, hget]
  · intro s hs
    rcases List.mem_cons.1 hs with rfl | hs
    · exact ht
    · exact he.derived s hs
  · change input.drop k = Tree.frontierAll (t :: e.found) ++ input.drop e.anchor.toNat
    rw [hf, he.frontier, Tree.frontierAll, List.append_assoc]

/-- The trees of a completed edge are the children of a derivation tree. -/
theorem Valid.isDerivation_tree {e : Edge} {k : Nat} (he : e.Valid g start input k)
    (hc : e.IsCompleted) : g.IsDerivation e.tree := by
  have hs : e.found.map Tree.symbol = e.rhs := by
    rw [he.symbols, hc.1, List.drop_zero]
  rcases he.hasRule with ⟨ha, _⟩ | ⟨i, _, hi⟩
  · exact absurd ha hc.2
  · refine .node ?_ he.derived
    rw [hs]
    exact List.mem_of_getElem? hi

end Edge

namespace Deducible

/-- Every edge that can be deduced is valid. -/
theorem valid {k : Nat} {e : Edge} (h : Deducible g start input k e) :
    e.Valid g start input k := by
  induction h with
  | top => exact Edge.valid_predicted (Or.inl ⟨rfl, rfl, rfl⟩) (Nat.le_refl _) fun _ => rfl
  | predict waiting awaits alternative ih =>
    have hle := ih.le_anchor
    have hle' := ih.anchor_le
    refine Edge.valid_predicted (Or.inr ⟨_, rfl, alternative⟩) (by omega) fun h => ?_
    rw [Item.topAlternative] at h
    omega
  | @scan k e sym waiting awaits next terminal ih =>
    rcases List.getElem?_eq_some_iff.1 next with ⟨hlt, hget⟩
    refine ih.advance awaits (.leaf terminal) (Nat.le_succ k) ?_
    rw [Tree.frontier, List.drop_eq_getElem_cons hlt, hget]
    rfl
  | @complete k j c e finished completed anchored waiting awaits ihc ihe =>
    have hle := ihc.le_anchor
    -- The frontier of the completed edge is what lies between its position and the
    -- position of the edge that waits for it.
    refine ihe.advance awaits (ihc.isDerivation_tree completed) (by omega) ?_
    rw [Edge.tree, Tree.frontier, ihc.frontier, anchored, Int.toNat_natCast]

/-- A position where an edge can be deduced lies within the input. -/
theorem le_length {k : Nat} {e : Edge} (h : Deducible g start input k e) : k ≤ input.length := by
  have hle := h.valid.le_anchor
  have hle' := h.valid.anchor_le
  omega

/-- What obeys the rules at all positions holds every edge that can be deduced. -/
theorem of_closedAt {S : Nat → Edge → Prop}
    (hS : ∀ k, k ≤ input.length → ClosedAt g start input S k) {k : Nat} {e : Edge}
    (h : Deducible g start input k e) : S k e := by
  induction h with
  | top => exact (hS _ (Nat.le_refl _)).top rfl
  | predict waiting awaits alternative ih =>
    exact (hS _ waiting.le_length).predict ih awaits alternative
  | scan waiting awaits next terminal ih =>
    exact (hS _ (Nat.le_of_succ_le waiting.le_length)).scan ih awaits next terminal
  | complete finished completed anchored waiting awaits ihc ihe =>
    exact (hS _ finished.le_length).complete ihc completed anchored ihe awaits

/-- Trees that can be taken in one by one can be taken in together. The edge waits
    for their symbols with others in front; it takes in the last tree first. -/
theorem advance_trees {m k : Nat} {e : Edge} (before : List Symbol) {ts : List Tree}
    (hts : ∀ t ∈ ts, ∀ (j i : Nat) (f : Edge), Deducible g start input j f →
      f.awaited? = some t.symbol → i ≤ j → input.drop i = t.frontier ++ input.drop j →
      Deducible g start input i (f.advance t))
    (he : Deducible g start input m e) (hr : e.rhs.take e.dot = before ++ ts.map Tree.symbol)
    (hk : k ≤ m) (hf : input.drop k = Tree.frontierAll ts ++ input.drop m) :
    Deducible g start input k { e with dot := before.length, found := ts ++ e.found } := by
  induction ts generalizing k before with
  | nil =>
    have hlen := congrArg List.length hf
    have hdot := congrArg List.length hr
    have hle := he.valid.dot_le
    have hm := he.le_length
    simp only [Tree.frontierAll, List.nil_append, List.length_drop] at hlen
    simp only [List.map_nil, List.append_nil, List.length_take] at hdot
    have hkm : k = m := by omega
    have hd : before.length = e.dot := by omega
    rw [hkm, hd]
    exact he
  | cons t ts ih =>
    rw [Tree.frontierAll, List.append_assoc] at hf
    -- The position between the first tree and the others.
    have hmid : input.drop (k + t.frontier.length) = Tree.frontierAll ts ++ input.drop m := by
      rw [← List.drop_drop, hf, List.drop_left]
    have hlen := congrArg List.length hf
    have hm := he.le_length
    simp only [List.length_append, List.length_drop] at hlen
    have hrest := ih (k := k + t.frontier.length) (before ++ [t.symbol])
      (fun s hs => hts s (List.mem_cons_of_mem t hs))
      (by rw [hr, List.map_cons, List.append_assoc]; rfl) (by omega) hmid
    have hget : e.rhs[before.length]? = some t.symbol := by
      have h := congrArg (fun l => l[before.length]?) hr
      rw [List.map_cons] at h
      simp only [List.getElem?_append_right (Nat.le_refl _), Nat.sub_self,
        List.getElem?_cons_zero, List.getElem?_take] at h
      split at h
      · exact h
      · exact absurd h (by simp)
    have hadv := hts t List.mem_cons_self _ k _ hrest
      ((Edge.awaited?_eq_some_iff _ _).2 ⟨before.length, by simp, hget⟩) (Nat.le_add_right _ _)
      (by rw [hf, hmid])
    simpa [Edge.advance] using hadv

/-- Every derivation tree for the symbol an edge waits for can be taken in, if it
    ends where the edge begins. -/
theorem advance_tree {t : Tree} (ht : g.IsDerivation t) {j k : Nat} {e : Edge}
    (he : Deducible g start input j e) (ha : e.awaited? = some t.symbol) (hk : k ≤ j)
    (hf : input.drop k = t.frontier ++ input.drop j) :
    Deducible g start input k (e.advance t) := by
  induction ht generalizing j k e with
  | @leaf sym terminal =>
    rw [Tree.frontier, List.singleton_append] at hf
    have hlen := congrArg List.length hf
    have hj := he.le_length
    simp only [List.length_drop, List.length_cons] at hlen
    obtain rfl : j = k + 1 := by omega
    have hlt : k < input.length := by omega
    rw [List.drop_eq_getElem_cons hlt] at hf
    refine .scan he ha ?_ terminal
    rw [List.getElem?_eq_getElem hlt, (List.cons.inj hf).1]
  | @node sym children applied derived ih =>
    rcases List.getElem?_of_mem applied with ⟨i, hi⟩
    have hp : Deducible g start input j (.predicted sym i (children.map Tree.symbol) j) :=
      .predict he ha hi
    -- The edge for the production at the root has no symbol left in front of it when it
    -- has taken in all children.
    have hc := advance_trees []
      (fun t htm j i f hf hfa hij hfr => ih t htm hf hfa hij hfr)
      hp (List.take_length.trans (List.nil_append _).symm) hk hf
    have hcomp := Deducible.complete hc ⟨rfl, by simp [Edge.predicted, Item.topAlternative]⟩ rfl
      he ha
    simpa [Edge.tree, Edge.predicted] using hcomp

/-- The finished edges for the rule above the start symbol hold one tree each. -/
theorem exists_eq_advance_top {k : Nat} {e : Edge} (h : Deducible g start input k e)
    (ha : e.alternative = Item.topAlternative) (hd : e.dot = 0) :
    ∃ t, e = (Edge.top start input.length).advance t := by
  have hv := h.valid
  rcases hv.hasRule with ⟨_, hl, hr⟩ | ⟨i, hi, _⟩
  · -- The top rule has one symbol on its right, so one tree has been found.
    have hs := hv.symbols
    rw [hd, hr, List.drop_zero] at hs
    rcases List.map_eq_singleton_iff.1 hs with ⟨t, hf, _⟩
    refine ⟨t, ?_⟩
    have hn := hv.anchor_of_top ha
    rcases e with ⟨lhs, alternative, rhs, dot, anchor, found⟩
    simp only at ha hd hl hr hf hn
    rw [ha, hd, hl, hr, hf, hn]
    rfl
  · rw [hi, Item.topAlternative] at ha
    omega

/-- The trees found at the beginning for the rule above the start symbol are the
    derivation trees of the input. -/
theorem advance_top_iff (t : Tree) :
    Deducible g start input 0 ((Edge.top start input.length).advance t) ↔
      g.IsDerivation t ∧ t.symbol = start ∧ t.frontier = input := by
  constructor
  · intro h
    have hv := h.valid
    have hs := hv.symbols
    have hf := hv.frontier
    simp only [Edge.advance, Edge.top, Edge.predicted, List.map_cons, List.map_nil,
      List.length_singleton, Nat.sub_self, List.drop_zero, List.cons.injEq, and_true] at hs
    simp only [Edge.advance, Edge.top, Edge.predicted, Tree.frontierAll, List.append_nil,
      Int.toNat_natCast, List.drop_length, List.drop_zero] at hf
    exact ⟨hv.derived t List.mem_cons_self, hs, hf.symm⟩
  · rintro ⟨ht, hs, hf⟩
    refine Deducible.top.advance_tree ht ?_ (Nat.zero_le _) ?_
    · rw [hs]
      rfl
    · rw [hf, List.drop_zero, List.drop_length, List.append_nil]

end Deducible

end Derivations
