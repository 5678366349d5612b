import Derivations.Proofs.Chart.Turn

/-!
# Parsing Without Faults

Some operations on items are not for all items. An item can only be advanced or asked for
the symbol it waits for if it is not finished, and it can only be completed if it is. A
finished top item has to hold a single tree, which must not be a leaf. And whoever looks
for the state set of a position needs it to be there already. None of this is checked
where the operations are used; that it holds is a matter of what the items are that the
parser finds.

So the operations that a parse asks for are listed one by one, as calls: for the items
taken from the queue, in every configuration that the loop can get to; for the seeds of a
position; and for the harvest. Expanding an item succeeds if and only if all its calls are
allowed. What makes them allowed is the invariant of the loop. It holds to begin with,
every turn keeps it, and so it holds wherever the loop gets. The edges of all items in the
queue can then be deduced: their anchors are not in front of the position and not behind
the input, and there is a tree for every symbol right of the dot. Beyond that, items that
wait for a symbol are not finished, and the top item takes in the start symbol, which is
no terminal.

It does not matter what symbols are called. Top items are told by the number of their
alternative, so `Start` is as good a name for a non-terminal as any other, and so is the
empty one. A non-terminal in the input is not scanned.

## Main definitions

* `Call`, `Call.Allowed`: An operation that is asked for, and whether it can succeed.
* `Parser.CallsOfExpansion`: The calls made when an item is expanded.
* `Parser.Begins`, `Parser.Reaches`: Where the loop at a position begins and can get to.
* `Parser.Makes`: The calls of a parse.

## Theorems

* `Parser.exists_expand_iff`: An expansion succeeds if its calls are allowed, and only then.
* `Parser.exists_parse_iff`: So does a whole parse.
* `Parser.Charted.filledFrom`: State sets that come about turn by turn are in order.
* `Worklist.turn`, `Parser.Reaches.worklist`: The invariant holds wherever the loop gets.
* `Parser.parse_without_fault`: All calls are allowed, so no parse fails.
-/

namespace Derivations

/-- An operation that can fail. -/
inductive Call where
  | advance (item : Item)
  | current (item : Item)
  | complete (item : Item)
  | completeTop (item : Item)
  /-- A position is looked up among the state sets that have been created. -/
  | lookUp (created : Chart) (position : Int)

/-- What has to hold for an operation to succeed, for an input of length `n`. A tree made
    of a finished item has a child for every symbol of the right-hand side. -/
def Call.Allowed (n : Nat) : Call → Prop
  | .advance item => item.isFinished = false
  | .current item => item.isFinished = false
  | .complete item => item.isFinished = true ∧ item.trees.map Tree.symbol = item.rhs
  | .completeTop item =>
    item.isFinished = true ∧ ∃ t, item.parsed.items = [t] ∧ t.tree.isLeaf = false
  | .lookUp created position =>
    0 ≤ position ∧ position ≤ n ∧ ∃ s ∈ created, s.position = position

theorem exists_bind_iff {α β ε : Type} {x : Except ε α} {f : α → Except ε β} :
    (∃ b, x >>= f = .ok b) ↔ ∃ a, x = .ok a ∧ ∃ b, f a = .ok b := by
  constructor
  · rintro ⟨b, h⟩
    rcases exists_of_bind_eq_ok h with ⟨a, ha, hb⟩
    exact ⟨a, ha, b, hb⟩
  · rintro ⟨a, rfl, b, hb⟩
    exact ⟨b, hb⟩

/-- A list of elements has a list of results if and only if every element has one. -/
theorem exists_mapM_iff {α β ε : Type} {f : α → Except ε β} {as : List α} :
    (∃ bs, as.mapM f = .ok bs) ↔ ∀ a ∈ as, ∃ b, f a = .ok b := by
  induction as with
  | nil => exact ⟨fun _ a ha => absurd ha List.not_mem_nil, fun _ => ⟨[], rfl⟩⟩
  | cons a as ih =>
    rw [List.forall_mem_cons, ← ih, List.mapM_cons, exists_bind_iff]
    constructor
    · rintro ⟨b, hb, hrest⟩
      rcases exists_bind_iff.1 hrest with ⟨bs, hbs, _⟩
      exact ⟨⟨b, hb⟩, bs, hbs⟩
    · rintro ⟨⟨b, hb⟩, bs, hbs⟩
      exact ⟨b, hb, exists_bind_iff.2 ⟨bs, hbs, b :: bs, rfl⟩⟩

theorem exists_of_mem_of_mapM {α β ε : Type} {f : α → Except ε β} {as : List α} {bs : List β}
    (h : as.mapM f = .ok bs) {b : β} (hb : b ∈ bs) : ∃ a ∈ as, f a = .ok b := by
  induction as generalizing bs with
  | nil =>
    cases h
    exact absurd hb List.not_mem_nil
  | cons a as ih =>
    rw [List.mapM_cons] at h
    rcases exists_of_bind_eq_ok h with ⟨c, hc, hrest⟩
    rcases exists_of_bind_eq_ok hrest with ⟨cs, hcs, hbs⟩
    cases hbs
    rcases List.mem_cons.1 hb with rfl | hb
    · exact ⟨a, List.mem_cons_self, hc⟩
    · rcases ih hcs hb with ⟨a', ha', hfa'⟩
      exact ⟨a', List.mem_cons_of_mem a ha', hfa'⟩

namespace Item

theorem isFinished_eq_false_iff (item : Item) : item.isFinished = false ↔ item.dot ≠ 0 := by
  unfold isFinished
  simp

theorem exists_advance_iff (item : Item) (t : MeasuredTree) :
    (∃ j, item.advance t = .ok j) ↔ item.isFinished = false := by
  rw [isFinished_eq_false_iff]
  unfold advance
  by_cases h : item.dot = 0 <;> simp [h]

theorem exists_current_iff (item : Item) :
    (∃ sym, item.current = .ok sym) ↔ item.isFinished = false := by
  rw [isFinished_eq_false_iff]
  unfold current
  constructor
  · rintro ⟨sym, h⟩
    cases hc : item.current? with
    | none =>
      rw [hc] at h
      cases h
    | some first =>
      rw [current?_eq_awaited?] at hc
      exact dot_ne_zero_of_awaited? hc
  · intro h
    rcases item.exists_awaited? h with ⟨sym, hsym⟩
    rw [current?_eq_awaited?, hsym]
    exact ⟨sym, rfl⟩

theorem exists_complete_iff (item : Item) :
    (∃ t, item.complete = .ok t) ↔ item.isFinished = true := by
  unfold complete
  by_cases h : item.isFinished = true <;> simp [h]

theorem exists_completeTop_iff (item : Item) :
    (∃ t, item.completeTop = .ok t) ↔
      item.isFinished = true ∧ ∃ t, item.parsed.items = [t] ∧ t.tree.isLeaf = false := by
  unfold completeTop
  by_cases h : item.isFinished = true
  · match item.parsed.items with
    | [] => simp [h]
    | [t] => by_cases hl : t.tree.isLeaf = true <;> simp [h, hl]
    | _ :: _ :: _ => simp [h]
  · simp [h]

-- Whoever waits for a symbol is not finished.
theorem isFinished_of_mem_awaiting {s : StateSet} {sym : Symbol} {item : Item}
    (h : item ∈ s.awaiting sym) : item.isFinished = false := by
  rw [isFinished_eq_false_iff]
  exact dot_ne_zero_of_awaited? ((s.mem_awaiting_iff sym item).1 h).2

end Item

namespace Parser

/-- The calls made when an item is expanded that has just been added. A finished item is
    completed, unless it belongs to the rule above the start symbol, and the items that
    wait for it where it is anchored are advanced. An unfinished one is asked for the
    symbol it waits for, and advanced by the empty trees known for it. -/
inductive CallsOfExpansion (g : Grammar) (behind : Chart) (f : Front) (item : Item) :
    Call → Prop where
  | complete (finished : item.isFinished = true) (notTop : item.isTop = false) :
      CallsOfExpansion g behind f item (.complete item)
  | lookUp (finished : item.isFinished = true) (notTop : item.isTop = false) :
      CallsOfExpansion g behind f item (.lookUp (f.set :: behind) item.anchor)
  | waiting {waiting : List Item} {w : Item} (finished : item.isFinished = true)
      (notTop : item.isTop = false)
      (found : waitingAt? behind.reverse.toArray f.set item.anchor item.lhs = some waiting)
      (isWaiting : w ∈ waiting) : CallsOfExpansion g behind f item (.advance w)
  | current (unfinished : item.isFinished = false) :
      CallsOfExpansion g behind f item (.current item)
  | empty {sym : Symbol} {t : MeasuredTree} (unfinished : item.isFinished = false)
      (awaits : item.current = .ok sym) (nonTerminal : g.isNonTerminal sym = true)
      (known : t ∈ f.empties.filter (·.symbol = sym)) :
      CallsOfExpansion g behind f item (.advance item)

section Expansion

variable {g : Grammar} {behind : Chart} {later : Array StateSet} {f : Front} {item : Item}

theorem exists_complete_iff (notTop : item.isTop = false) :
    (∃ r, complete later f item = .ok r) ↔
      item.isFinished = true ∧
        ∃ waiting, waitingAt? later f.set item.anchor item.lhs = some waiting ∧
          ∀ w ∈ waiting, w.isFinished = false := by
  unfold complete
  rw [notTop, if_neg Bool.false_ne_true, exists_bind_iff]
  constructor
  · rintro ⟨t, ht, r, hr⟩
    refine ⟨item.exists_complete_iff.1 ⟨t, ht⟩, ?_⟩
    cases hfound : waitingAt? later f.set item.anchor item.lhs with
    | none =>
      rw [hfound] at hr
      cases hr
    | some waiting =>
      rw [hfound] at hr
      rcases exists_of_bind_eq_ok hr with ⟨advanced, hadvanced, _⟩
      refine ⟨waiting, rfl, fun w hw => ?_⟩
      exact (w.exists_advance_iff t).1 (exists_mapM_iff.1 ⟨advanced, hadvanced⟩ w hw)
  · rintro ⟨hfinished, waiting, hfound, hall⟩
    rcases item.exists_complete_iff.2 hfinished with ⟨t, ht⟩
    have hadvanced : ∃ advanced, advanceAll waiting t = .ok advanced :=
      exists_mapM_iff.2 fun w hw => (w.exists_advance_iff t).2 (hall w hw)
    rcases hadvanced with ⟨advanced, hadvanced⟩
    refine ⟨t, ht, ?_⟩
    rw [hfound]
    exact exists_bind_iff.2 ⟨advanced, hadvanced, _, rfl⟩

theorem exists_await_iff : (∃ r, await g f item = .ok r) ↔ item.isFinished = false := by
  unfold await
  rw [exists_bind_iff, ← item.exists_current_iff]
  constructor
  · rintro ⟨sym, hsym, _⟩
    exact ⟨sym, hsym⟩
  · rintro ⟨sym, hsym⟩
    refine ⟨sym, hsym, ?_⟩
    have hunfinished : item.isFinished = false := item.exists_current_iff.1 ⟨sym, hsym⟩
    by_cases hn : g.isNonTerminal sym = true
    · rw [if_pos hn, exists_bind_iff]
      rcases exists_mapM_iff.2 fun t (_ : t ∈ f.empties.filter (·.symbol = sym)) =>
        (item.exists_advance_iff t).2 hunfinished with ⟨advanced, hadvanced⟩
      exact ⟨advanced, hadvanced, _, rfl⟩
    · rw [if_neg hn]
      exact ⟨_, rfl⟩

-- The sets behind are counted from the last position, so their number says how far it is.
theorem exists_waitingAt?_iff {current : StateSet} {k : Nat} (hpos : current.position = k)
    (j : Int) (sym : Symbol) :
    (∃ waiting, waitingAt? later current j sym = some waiting) ↔
      (k : Int) ≤ j ∧ j ≤ k + later.size := by
  unfold waitingAt?
  rw [hpos]
  by_cases hj : j = k
  · rw [if_pos hj]
    exact ⟨fun _ => by omega, fun _ => ⟨_, rfl⟩⟩
  · rw [if_neg hj]
    by_cases hlt : j < k
    · rw [if_pos hlt]
      simp
      omega
    · rw [if_neg hlt]
      by_cases hle : (j - k).toNat ≤ later.size
      · have hat : later.size - (j - k).toNat < later.size := by omega
        simp only [hle, if_true, Array.getElem?_eq_getElem hat, Option.map_some]
        exact ⟨fun _ => by omega, fun _ => ⟨_, rfl⟩⟩
      · simp only [hle, if_false]
        simp
        omega

theorem allowed_of_expand {k n : Nat} {call : Call} (hpos : f.set.position = k)
    (hsize : k + behind.length = n)
    (hcreated : ∀ j : Int, (k : Int) ≤ j → j ≤ n → ∃ s ∈ f.set :: behind, s.position = j)
    (hsymbols : item.trees.map Tree.symbol = item.rhs.drop item.dot)
    (hcall : CallsOfExpansion g behind f item call)
    (h : ∃ r, expand g behind.reverse.toArray f item = .ok r) : call.Allowed n := by
  unfold expand at h
  cases hcall with
  | complete finished notTop =>
    refine ⟨finished, ?_⟩
    unfold Item.isFinished at finished
    rw [hsymbols, beq_iff_eq.1 finished, List.drop_zero]
  | lookUp finished notTop =>
    rw [if_pos finished, exists_complete_iff notTop] at h
    rcases h with ⟨_, waiting, hfound, _⟩
    have hrange := (exists_waitingAt?_iff hpos _ _).1 ⟨waiting, hfound⟩
    simp only [List.size_toArray, List.length_reverse] at hrange
    exact ⟨by omega, by omega, hcreated _ (by omega) (by omega)⟩
  | waiting finished notTop found isWaiting =>
    rw [if_pos finished, exists_complete_iff notTop] at h
    rcases h with ⟨_, waiting, hfound, hall⟩
    cases found.symm.trans hfound
    exact hall _ isWaiting
  | current unfinished => exact unfinished
  | empty unfinished awaits nonTerminal known => exact unfinished

theorem exists_expand_of_allowed {k n : Nat} (hpos : f.set.position = k)
    (hsize : k + behind.length = n)
    (hcreated : ∀ s ∈ f.set :: behind, (k : Int) ≤ s.position)
    (h : ∀ call, CallsOfExpansion g behind f item call → call.Allowed n) :
    ∃ r, expand g behind.reverse.toArray f item = .ok r := by
  unfold expand
  by_cases finished : item.isFinished = true
  · rw [if_pos finished]
    by_cases htop : item.isTop = true
    · unfold complete
      rw [if_pos htop]
      exact ⟨_, rfl⟩
    · have notTop : item.isTop = false := Bool.eq_false_iff.2 htop
      rcases h _ (.lookUp finished notTop) with ⟨_, hle, s, hs, hposition⟩
      have hge := hcreated s hs
      have hfound : ∃ waiting, waitingAt? behind.reverse.toArray f.set item.anchor item.lhs =
          some waiting := by
        rw [exists_waitingAt?_iff hpos]
        simp only [List.size_toArray, List.length_reverse]
        omega
      rcases hfound with ⟨waiting, hfound⟩
      rw [exists_complete_iff notTop]
      exact ⟨finished, waiting, hfound, fun w hw => h _ (.waiting finished notTop hfound hw)⟩
  · rw [if_neg finished, exists_await_iff]
    exact Bool.eq_false_iff.2 finished

/-- Expanding an item succeeds if and only if all calls made by it are allowed, provided
    that the state sets created are those from the position on. -/
theorem exists_expand_iff {k n : Nat} (hpos : f.set.position = k) (hsize : k + behind.length = n)
    (hcreated : ∀ j : Int, (∃ s ∈ f.set :: behind, s.position = j) ↔ (k : Int) ≤ j ∧ j ≤ n)
    (hsymbols : item.trees.map Tree.symbol = item.rhs.drop item.dot) :
    (∃ r, expand g behind.reverse.toArray f item = .ok r) ↔
      ∀ call, CallsOfExpansion g behind f item call → call.Allowed n := by
  constructor
  · intro h call hcall
    have hexists := fun j hge hle => (hcreated j).2 ⟨hge, hle⟩
    exact allowed_of_expand hpos hsize hexists hsymbols hcall h
  · exact exists_expand_of_allowed hpos hsize fun s hs => ((hcreated _).1 ⟨s, hs, rfl⟩).1

end Expansion

/-- What the loop at a position begins with: the seeds, and the state sets behind. -/
inductive Begins (p : Parser) (input : List Symbol) : Nat → List Item → Chart → Prop where
  | last : Begins p input input.length [.top p.start input.length] []
  | before {k : Nat} {sym : Symbol} {next : StateSet} {rest : Chart} {seeds : List Item}
      (behind : p.Charted input (k + 1) (next :: rest)) (symbol : input[k]? = some sym)
      (scanned : scan p.grammar sym next = .ok seeds) : Begins p input k seeds (next :: rest)

/-- The loop at a position can get to a configuration. -/
def Reaches (p : Parser) (input : List Symbol) (k : Nat) (behind : Chart)
    (c : List Item × Front) : Prop :=
  ∃ seeds, p.Begins input k seeds behind ∧
    Relation.ReflTransGen (Turn p.grammar behind.reverse.toArray p.limit)
      (seeds, ⟨.empty k, .empty⟩) c

/-- The calls made by a parse. In front of a position that has been left, the items which
    wait for the symbol there are advanced, unless the symbol is a non-terminal; in every
    configuration of the loop with room left, the item that is taken from the queue is
    expanded if it is new; and when the first position has been left, the finished items
    for the rule above the start symbol are harvested. -/
inductive Makes (p : Parser) (input : List Symbol) : Call → Prop where
  | next {k : Nat} {sym : Symbol} {behind : Chart} (charted : p.Charted input (k + 1) behind)
      (symbol : input[k]? = some sym) : Makes p input (.lookUp behind (k + 1 : Nat))
  | scan {k : Nat} {sym : Symbol} {next : StateSet} {rest : Chart} {item : Item}
      (charted : p.Charted input (k + 1) (next :: rest)) (symbol : input[k]? = some sym)
      (terminal : p.grammar.isNonTerminal sym = false) (waiting : item ∈ next.awaiting sym) :
      Makes p input (.advance item)
  | expand {k : Nat} {behind : Chart} {item : Item} {queue : List Item} {f : Front} {call : Call}
      (reached : p.Reaches input k behind (item :: queue, f)) (room : f.set.size ≤ p.limit)
      (new : f.set.contains item = false)
      (made : CallsOfExpansion p.grammar behind { f with set := f.set.insert item } item call) :
      Makes p input call
  | first {chart : Chart} (charted : p.Charted input 0 chart) : Makes p input (.lookUp chart 0)
  | harvest {chart : Chart} {s : StateSet} {item : Item} (charted : p.Charted input 0 chart)
      (first : Chart.at? chart 0 = some s) (mem : item ∈ s.toList) (top : item.isTop = true)
      (finished : item.isFinished = true) : Makes p input (.completeTop item)

variable {p : Parser} {input : List Symbol} {k : Nat} {behind : Chart}

/-- State sets that come about turn by turn are in order. -/
theorem Charted.filledFrom {chart : Chart} (h : p.Charted input k chart) :
    FilledFrom p.grammar p.start input p.limit k chart.reverse.toArray := by
  -- The parser finds state sets that are in order and come about in the same way.
  induction h with
  | last runs =>
    rcases p.final_spec input with ⟨final, hok, hfilled⟩
    rw [runs.unique (stateSet_runs hok)]
    exact hfilled
  | @before k sym s next rest seeds behind symbol scanned runs ih =>
    rcases extend_spec ih symbol with ⟨sets, hok, hfilled⟩
    have hbehind : p.Charted input (k + 1) (next :: rest).reverse.toArray.toList.reverse := by
      rw [List.reverse_reverse]
      exact behind
    have hchart : s :: next :: rest = sets.toList.reverse :=
      (Charted.before behind symbol scanned runs).unique (charted_of_extend hbehind symbol hok)
    rw [hchart, List.reverse_reverse, Array.toArray_toList]
    exact hfilled

/-- The state sets of a chart that is in order are there for the positions from the first
    one on, and for no others. -/
theorem FilledFrom.exists_position_iff {g : Grammar} {start : Symbol} {limit : Nat} {chart : Chart}
    (h : FilledFrom g start input limit k chart.reverse.toArray) (j : Int) :
    (∃ s ∈ chart, s.position = j) ↔ (k : Int) ≤ j ∧ j ≤ input.length := by
  have hsize := h.size
  have hmem : ∀ s, s ∈ chart ↔ ∃ i : Nat, chart.reverse.toArray[i]? = some s := by
    intro s
    rw [← Array.mem_iff_getElem?, List.mem_toArray, List.mem_reverse]
  constructor
  · rintro ⟨s, hs, rfl⟩
    rcases (hmem s).1 hs with ⟨i, hi⟩
    have hlt := (Array.getElem?_eq_some_iff.1 hi).1
    -- The sets are counted from the last position.
    rcases h.filled (input.length - i) (by omega) (by omega) with ⟨t, later, ht, hfilled⟩
    rw [show input.length - (input.length - i) = i by omega, hi] at ht
    rw [Option.some.inj ht, hfilled.position]
    omega
  · rintro ⟨hge, hle⟩
    rcases h.filled j.toNat (by omega) (by omega) with ⟨s, later, hs, hfilled⟩
    refine ⟨s, (hmem s).2 ⟨_, hs⟩, ?_⟩
    rw [hfilled.position]
    omega

theorem Begins.filledFrom {seeds : List Item} (h : p.Begins input k seeds behind) :
    FilledFrom p.grammar p.start input p.limit (k + 1) behind.reverse.toArray := by
  cases h with
  | last => exact filledFrom_empty p.grammar p.start input p.limit
  | before behind symbol scanned => exact behind.filledFrom

theorem Begins.worklist {seeds : List Item} (h : p.Begins input k seeds behind) :
    Worklist p.grammar p.start input behind.reverse.toArray k ⟨.empty k, .empty⟩ seeds := by
  have hfilled := h.filledFrom
  cases h with
  | last =>
    refine .initial fun e he => ?_
    rw [List.mem_singleton.1 he]
    exact .top
  | @before _ sym next rest _ behind symbol scanned =>
    have hk := (List.getElem?_eq_some_iff.1 symbol).1
    rcases hfilled.exists_next hk with ⟨next', hback, hnext⟩
    have hsame : next' = next := by simpa using hback.symm
    rw [hsame] at hnext
    exact .initial (hfilled.deducible_of_scan symbol hnext scanned)

end Parser

/-- Every turn of the loop keeps the invariant. -/
theorem Worklist.turn {g : Grammar} {start : Symbol} {input : List Symbol}
    {later : Array StateSet} {k limit : Nat} {c d : List Item × Front}
    (h : Worklist g start input later k c.2 c.1) (hsize : k + later.size = input.length)
    (hlater : ∀ j e, EdgeAt input.length later j e → Deducible g start input j e)
    (hturn : Parser.Turn g later limit c d) : Worklist g start input later k d.2 d.1 := by
  cases hturn with
  | pass room present => exact h.pass present
  | add room new brings =>
    rcases h.step hsize hlater new with ⟨f, found, hok, _, hstep⟩
    cases brings.symm.trans hok
    exact hstep

namespace Parser

variable {p : Parser} {input : List Symbol} {k : Nat} {behind : Chart}

theorem Reaches.filledFrom {c : List Item × Front} (h : p.Reaches input k behind c) :
    FilledFrom p.grammar p.start input p.limit (k + 1) behind.reverse.toArray := by
  rcases h with ⟨seeds, hbegins, _⟩
  exact hbegins.filledFrom

theorem Reaches.size_eq {c : List Item × Front} (h : p.Reaches input k behind c) :
    k + behind.length = input.length := by
  have hsize := h.filledFrom.size
  simp only [List.size_toArray, List.length_reverse] at hsize
  omega

/-- The invariant holds wherever the loop gets. -/
theorem Reaches.worklist {c : List Item × Front} (h : p.Reaches input k behind c) :
    Worklist p.grammar p.start input behind.reverse.toArray k c.2 c.1 := by
  have hfilled := h.filledFrom
  have hsize : k + behind.reverse.toArray.size = input.length := by
    simpa using h.size_eq
  rcases h with ⟨seeds, hbegins, hturns⟩
  induction hturns with
  | refl => exact hbegins.worklist
  | tail _ hturn ih => exact ih.turn hsize (fun j e he => hfilled.deducible_of_edgeAt he) hturn

/-- An item that is taken from the queue and is new can be expanded, and all calls made by
    that are allowed. -/
theorem Reaches.expand {item : Item} {queue : List Item} {f : Front}
    (h : p.Reaches input k behind (item :: queue, f)) (new : f.set.contains item = false) :
    (∃ r, expand p.grammar behind.reverse.toArray { f with set := f.set.insert item } item =
        .ok r) ∧
      ∀ call, CallsOfExpansion p.grammar behind { f with set := f.set.insert item } item call →
        call.Allowed input.length := by
  have hworklist := h.worklist
  have hfilled := h.filledFrom
  have hsize := h.size_eq
  have hpos : (f.set.insert item).position = k := by
    rw [StateSet.position_insert, hworklist.position]
  have hok : ∃ r, Parser.expand p.grammar behind.reverse.toArray
      { f with set := f.set.insert item } item = .ok r := by
    rcases hworklist.step (by simpa using hsize)
      (fun j e he => hfilled.deducible_of_edgeAt he) new with ⟨f', found, hok, _, _⟩
    exact ⟨(f', found), hok⟩
  have hcreated : ∀ j : Int, (∃ s ∈ f.set.insert item :: behind, s.position = j) ↔
      (k : Int) ≤ j ∧ j ≤ input.length := by
    intro j
    simp only [List.mem_cons, exists_eq_or_imp, hpos, hfilled.exists_position_iff]
    omega
  have hsymbols : item.trees.map Tree.symbol = item.rhs.drop item.dot := by
    have hmem : item.edge ∈ f.set.edges ++ (item :: queue).map Item.edge :=
      List.mem_append_right _ List.mem_cons_self
    exact (hworklist.deducible _ hmem).valid.symbols
  exact ⟨hok, (exists_expand_iff hpos hsize hcreated hsymbols).1 hok⟩

/-- Wherever the loop gets, it goes on or has come to its end. -/
theorem Reaches.progress {c : List Item × Front} (h : p.Reaches input k behind c) :
    (∃ d, Turn p.grammar behind.reverse.toArray p.limit c d) ∨ ∃ s, Leaves p.limit c s := by
  rcases c with ⟨queue, f⟩
  cases queue with
  | nil => exact Or.inr ⟨f.set, .exhausted f⟩
  | cons item queue =>
    by_cases room : f.set.size ≤ p.limit
    · left
      cases hc : f.set.contains item with
      | true => exact ⟨_, .pass room hc⟩
      | false =>
        rcases (h.expand hc).1 with ⟨⟨f', found⟩, hok⟩
        exact ⟨_, .add room hc hok⟩
    · exact Or.inr ⟨f.set.cutOff, .cutOff (by omega)⟩

theorem exists_harvest_iff {chart : Chart} (hcharted : p.Charted input 0 chart) :
    (∃ found, harvest chart = .ok found) ↔
      ∀ s item, Chart.at? chart 0 = some s → item ∈ s.toList → item.isTop = true →
        item.isFinished = true → ∃ t, item.completeTop = .ok t := by
  have hfirst : ∃ s, Chart.at? chart 0 = some s := by
    rcases (hcharted.filledFrom.exists_position_iff 0).2 (by omega) with ⟨s, hs, hposition⟩
    unfold Chart.at?
    rw [← Option.isSome_iff_exists, List.find?_isSome]
    exact ⟨s, hs, by simp [hposition]⟩
  rcases hfirst with ⟨first, hfirst⟩
  unfold harvest
  rw [hfirst]
  simp only [exists_mapM_iff, List.mem_filter, Bool.and_eq_true]
  constructor
  · intro h s item hs hmem htop hfinished
    cases hs
    exact h item ⟨hmem, htop, hfinished⟩
  · rintro h item ⟨hmem, htop, hfinished⟩
    exact h first item rfl hmem htop hfinished

/-- A parse succeeds if and only if all calls made by it are allowed, whatever symbol it
    begins with. -/
theorem exists_parse_iff (p : Parser) (input : List Symbol) :
    (∃ o, p.parse input = .ok o) ↔ ∀ call, p.Makes input call → call.Allowed input.length := by
  constructor
  · rintro ⟨o, hok⟩ call h
    cases h with
    | @next k sym behind charted symbol =>
      have hlt := (List.getElem?_eq_some_iff.1 symbol).1
      refine ⟨by omega, by omega, ?_⟩
      rw [charted.filledFrom.exists_position_iff]
      omega
    | scan charted symbol terminal waiting => exact Item.isFinished_of_mem_awaiting waiting
    | expand reached room new made => exact (reached.expand new).2 call made
    | first charted =>
      refine ⟨by omega, by omega, ?_⟩
      rw [charted.filledFrom.exists_position_iff]
      omega
    | @harvest chart s item charted first mem top finished =>
      rcases chart_eq_of_parse_eq hok with ⟨hchart, hharvest⟩
      -- There is only one chart for the input, so this is the one that has been harvested.
      rw [(chart_charted hchart).unique charted] at hharvest
      rw [Call.Allowed, ← item.exists_completeTop_iff]
      exact (exists_harvest_iff charted).1 ⟨_, hharvest⟩ s item first mem top finished
  · intro h
    rcases p.chart_spec input with ⟨sets, hchart, _⟩
    have hcharted := chart_charted hchart
    have hharvest : ∃ found, harvest sets.toList.reverse = .ok found := by
      rw [exists_harvest_iff hcharted]
      intro s item hs hmem htop hfinished
      exact item.exists_completeTop_iff.2 (h _ (.harvest hcharted hs hmem htop hfinished))
    rcases hharvest with ⟨found, hfound⟩
    unfold parse
    exact exists_bind_iff.2 ⟨_, hchart, exists_bind_iff.2 ⟨found, hfound, _, rfl⟩⟩

-- Every tree that is returned has been harvested by one of the calls.
theorem exists_makes_of_mem_found {o : Outcome} (h : p.parse input = .ok o) {t : MeasuredTree}
    (ht : t ∈ o.found) :
    ∃ item, item.completeTop = .ok t ∧ p.Makes input (.completeTop item) := by
  rcases chart_eq_of_parse_eq h with ⟨hchart, hharvest⟩
  unfold harvest at hharvest
  cases hfirst : Chart.at? o.chart 0 with
  | none =>
    rw [hfirst] at hharvest
    cases hharvest
  | some s =>
    rw [hfirst] at hharvest
    rcases exists_of_mem_of_mapM hharvest ht with ⟨item, hitem, hok⟩
    rcases List.mem_filter.1 hitem with ⟨hmem, htop⟩
    rw [Bool.and_eq_true] at htop
    exact ⟨item, hok, .harvest (chart_charted hchart) hfirst hmem htop.1 htop.2⟩

/-- No parse fails, whatever the symbols of the grammar and of the input are called. All
    operations that the parse asks for are allowed: no finished item is advanced or asked
    for the symbol it waits for, only finished items are completed, with a tree for every
    symbol, each finished top item holds a single tree, which is no leaf, and each position
    that is looked up lies within the input and has a state set already. Wherever the loop
    gets, it goes on or has come to its end. -/
theorem parse_without_fault {g : Grammar} (hp : p.IsFor g) (input : List Symbol) :
    (∃ o, p.parse input = .ok o ∧ p.Charted input 0 o.chart) ∧
      (∀ call, p.Makes input call → call.Allowed input.length) ∧
      ∀ k behind c, p.Reaches input k behind c →
        (∃ d, Turn g behind.reverse.toArray p.limit c d) ∨ ∃ s, Leaves p.limit c s := by
  rcases parse_spec hp input with ⟨o, _, hok, _⟩
  have hcharted := chart_charted (chart_eq_of_parse_eq hok).1
  refine ⟨⟨o, hok, hcharted⟩, (p.exists_parse_iff input).1 ⟨o, hok⟩, fun k behind c h => ?_⟩
  rw [← hp.1]
  exact h.progress

/-- A parser for a grammar that has non-terminals named `Start` and without any name. The
    one without a name vanishes, and `Start` can be replaced by itself. -/
def unnamed : Parser :=
  ⟨.ofProductions "unnamed" [("Start", ["", "Start"]), ("Start", ["a"]), ("", []), ("", ["b"])],
    "Start", 8⟩

theorem parse_without_fault_unnamed :
    unnamed.IsFor unnamed.grammar ∧
      (∃ o, unnamed.parse ["b", "a"] = .ok o ∧ o.trees.length = 2 ∧
        ∀ t ∈ o.found, ∃ item, item.completeTop = .ok t ∧
          unnamed.Makes ["b", "a"] (.completeTop item) ∧
          (Call.completeTop item).Allowed 2) ∧
      ∀ call, unnamed.Makes ["b", "Start"] call → call.Allowed 2 := by
  have hp : unnamed.IsFor unnamed.grammar := ⟨rfl, rfl⟩
  rcases parse_without_fault hp ["b", "a"] with ⟨⟨o, hok, _⟩, hallowed, _⟩
  have hrun : (unnamed.parse ["b", "a"]).toOption.map (fun o => o.trees.length) = some 2 := by
    decide +kernel
  rw [hok] at hrun
  refine ⟨hp, ⟨o, hok, Option.some.inj hrun, fun t ht => ?_⟩, ?_⟩
  · rcases exists_makes_of_mem_found hok ht with ⟨item, hitem, hmakes⟩
    exact ⟨item, hitem, hmakes, hallowed _ hmakes⟩
  · exact (parse_without_fault hp ["b", "Start"]).2.1

end Parser

end Derivations
