import Derivations.Proofs.Chart.Parse
import Mathlib.Data.Prod.Lex
import Mathlib.Logic.Relation

/-!
# The Loop Turn by Turn

What the parser does at a position, one item after the other. In every turn the first
item leaves the queue. If the state set holds it already, that is all; otherwise it is
added, and whatever it brings along joins the queue. The loop comes to an end when the
queue is empty, or when there is an item left but no room for one more.

That it does come to an end is not a matter of the queue, which may grow with every
item added and, for a cyclic grammar, would never be used up. What gets smaller is a
pair: the room left in the state set, and if that stays the same, the length of the
queue. This needs both that no item is added beyond the limit and that items found a
second time bring nothing along.

The parser itself skips a row of known items at once and counts the room left. It
arrives at the state set which the loop leaves behind, so the charts it fills are those
that come about turn by turn, from the last position to the first.

## Main definitions

* `Parser.Turn`: One turn of the loop.
* `Parser.Leaves`: The loop has come to an end and leaves a state set behind.
* `Parser.Runs`: The loop, begun with some items, comes to an end.
* `Parser.Charted`: State sets that come about turn by turn.
* `Parser.remaining`: The room left and the length of the queue.

## Theorems

* `Parser.Turn.remaining_lt`: Every turn leaves less to do.
* `Parser.wellFounded_turn`: There is no endless sequence of turns.
* `Parser.Turn.rightUnique`, `Parser.Leaves.not_turn`: There is never more than one way
  to go on, and none from the end.
* `Parser.Runs.unique`, `Parser.Charted.unique`: So there is one result.
* `Parser.stateSet_runs`, `Parser.chart_charted`: The parser does what its turns do.
* `Parser.parse_terminates`: Parsing ends, within the limit at every position.
-/

namespace Derivations

/-- A computation that succeeds has succeeded in its first part. -/
theorem exists_of_bind_eq_ok {α β ε : Type} {x : Except ε α} {f : α → Except ε β} {b : β}
    (h : x >>= f = .ok b) : ∃ a, x = .ok a ∧ f a = .ok b := by
  cases x with
  | error e => exact absurd h (by simp [bind, Except.bind])
  | ok a => exact ⟨a, rfl, h⟩

namespace Parser

/-- One turn of the loop, by what it does to the queue and the front. There is no turn
    without room for one more item. -/
inductive Turn (g : Grammar) (later : Array StateSet) (limit : Nat) :
    List Item × Front → List Item × Front → Prop where
  /-- An item that is there already is passed over. -/
  | pass {item : Item} {queue : List Item} {f : Front} (room : f.set.size ≤ limit)
      (present : f.set.contains item = true) :
      Turn g later limit (item :: queue, f) (queue, f)
  /-- An item that is new is added, and what it brings along joins the queue. -/
  | add {item : Item} {queue found : List Item} {f f' : Front} (room : f.set.size ≤ limit)
      (new : f.set.contains item = false)
      (brings : expand g later { f with set := f.set.insert item } item = .ok (f', found)) :
      Turn g later limit (item :: queue, f) (queue ++ found, f')

/-- The loop has come to an end: the queue is empty, or an item is left for which there
    is no room, and the state set is cut off. -/
inductive Leaves (limit : Nat) : List Item × Front → StateSet → Prop where
  | exhausted (f : Front) : Leaves limit ([], f) f.set
  | cutOff {item : Item} {queue : List Item} {f : Front} (noRoom : limit < f.set.size) :
      Leaves limit (item :: queue, f) f.set.cutOff

/-- At a position, the loop that begins with the given items comes to an end and leaves
    the state set behind. The chart holds the state sets behind the position. -/
def Runs (p : Parser) (position : Int) (seeds : List Item) (behind : Chart) (s : StateSet) :
    Prop :=
  ∃ c, Relation.ReflTransGen (Turn p.grammar behind.reverse.toArray p.limit)
      (seeds, ⟨.empty position, .empty⟩) c ∧ Leaves p.limit c s

/-- The state sets from a position on, each left behind by the loop there. At the end of
    the input the loop begins with the top item, and at any other position with the
    items that have taken in the symbol there. -/
inductive Charted (p : Parser) (input : List Symbol) : Nat → Chart → Prop where
  | last {s : StateSet} (runs : p.Runs input.length [.top p.start input.length] [] s) :
      Charted p input input.length [s]
  | before {k : Nat} {sym : Symbol} {s next : StateSet} {rest : Chart} {seeds : List Item}
      (behind : Charted p input (k + 1) (next :: rest)) (symbol : input[k]? = some sym)
      (scanned : scan p.grammar sym next = .ok seeds)
      (runs : p.Runs k seeds (next :: rest) s) :
      Charted p input k (s :: next :: rest)

/-- How much is left to do at most: the room in the state set counts first, and then
    the length of the queue. -/
def remaining (limit : Nat) (c : List Item × Front) : Nat ×ₗ Nat :=
  toLex (limit + 1 - c.2.set.size, c.1.length)

variable {g : Grammar} {later : Array StateSet} {limit : Nat}

-- Only the empty trees of a front change when an item is expanded.
theorem set_complete {f f' : Front} {item : Item} {found : List Item}
    (h : complete later f item = .ok (f', found)) : f'.set = f.set := by
  unfold complete at h
  split at h
  · cases h
    rfl
  · rcases exists_of_bind_eq_ok h with ⟨t, _, ht⟩
    cases hw : waitingAt? later f.set item.anchor item.lhs with
    | none =>
      rw [hw] at ht
      cases ht
    | some waiting =>
      rw [hw] at ht
      rcases exists_of_bind_eq_ok ht with ⟨advanced, _, ha⟩
      cases ha
      split <;> rfl

theorem set_await {f f' : Front} {item : Item} {found : List Item}
    (h : await g f item = .ok (f', found)) : f'.set = f.set := by
  unfold await at h
  rcases exists_of_bind_eq_ok h with ⟨sym, _, hs⟩
  split at hs
  · rcases exists_of_bind_eq_ok hs with ⟨advanced, _, ha⟩
    cases ha
    rfl
  · cases hs
    rfl

theorem set_expand {f f' : Front} {item : Item} {found : List Item}
    (h : expand g later f item = .ok (f', found)) : f'.set = f.set := by
  unfold expand at h
  split at h
  · exact set_complete h
  · exact set_await h

theorem size_expand {f f' : Front} {item : Item} {found : List Item}
    (new : f.set.contains item = false)
    (h : expand g later { f with set := f.set.insert item } item = .ok (f', found)) :
    f'.set.size = f.set.size + 1 := by
  rw [set_expand h]
  exact f.set.size_insert item new

/-- Every turn leaves less to do: an item passed over makes the queue shorter, and an
    item added takes up room. -/
theorem Turn.remaining_lt {c d : List Item × Front} (h : Turn g later limit c d) :
    remaining limit d < remaining limit c := by
  rw [remaining, remaining, Prod.Lex.toLex_lt_toLex]
  cases h with
  | pass room present => exact Or.inr ⟨rfl, Nat.lt_succ_self _⟩
  | @add item queue found f f' room new brings =>
    have hsize := size_expand new brings
    left
    -- There was room before the turn, so there is less of it now.
    change limit + 1 - f'.set.size < limit + 1 - f.set.size
    omega

/-- There is no endless sequence of turns, wherever it begins. -/
theorem wellFounded_turn (g : Grammar) (later : Array StateSet) (limit : Nat) :
    WellFounded fun d c => Turn g later limit c d :=
  Subrelation.wf Turn.remaining_lt (InvImage.wf (remaining limit) wellFounded_lt)

theorem Turn.rightUnique : Relator.RightUnique (Turn g later limit) := by
  intro c d e hd he
  cases hd with
  | pass room present =>
    cases he with
    | pass _ _ => rfl
    | add _ new _ => exact absurd (new.symm.trans present) Bool.false_ne_true
  | add room new brings =>
    cases he with
    | pass _ present => exact absurd (new.symm.trans present) Bool.false_ne_true
    | add _ _ brings' =>
      cases brings.symm.trans brings'
      rfl

theorem Leaves.not_turn {c d : List Item × Front} {s : StateSet} (h : Leaves limit c s) :
    ¬Turn g later limit c d := by
  intro hturn
  cases h with
  | exhausted f => cases hturn
  | cutOff noRoom =>
    cases hturn with
    | pass room _ => omega
    | add room _ _ => omega

/-- From where the loop has come to an end, it gets nowhere. -/
theorem Leaves.eq_of_reaches {c d : List Item × Front} {s : StateSet} (h : Leaves limit c s)
    (hr : Relation.ReflTransGen (Turn g later limit) c d) : d = c := by
  rcases hr.cases_head with heq | ⟨e, hturn, _⟩
  · exact heq.symm
  · exact absurd hturn h.not_turn

theorem Leaves.rightUnique : Relator.RightUnique (Leaves limit) := by
  intro c s s' h h'
  cases h with
  | exhausted f =>
    cases h'
    rfl
  | cutOff noRoom =>
    cases h'
    rfl

-- With one way to go on in every turn, there is one end to come to.
theorem Runs.unique {p : Parser} {position : Int} {seeds : List Item} {behind : Chart}
    {s s' : StateSet} (h : p.Runs position seeds behind s) (h' : p.Runs position seeds behind s') :
    s = s' := by
  rcases h with ⟨c, hc, hleaves⟩
  rcases h' with ⟨c', hc', hleaves'⟩
  rcases Relation.ReflTransGen.total_of_right_unique Turn.rightUnique hc hc' with hr | hr
  · rw [hleaves.eq_of_reaches hr] at hleaves'
    exact Leaves.rightUnique hleaves hleaves'
  · rw [hleaves'.eq_of_reaches hr] at hleaves
    exact Leaves.rightUnique hleaves hleaves'

/-- The state sets that come about turn by turn are determined by parser and input. -/
theorem Charted.unique {p : Parser} {input : List Symbol} {k : Nat} {chart chart' : Chart}
    (h : p.Charted input k chart) (h' : p.Charted input k chart') : chart = chart' := by
  induction h generalizing chart' with
  | last runs =>
    cases h' with
    | last runs' => rw [runs.unique runs']
    | before _ symbol _ _ => exact absurd symbol (by simp)
  | before behind symbol scanned runs ih =>
    cases h' with
    | last _ => exact absurd symbol (by simp)
    | before behind' symbol' scanned' runs' =>
      cases ih behind'
      cases symbol.symm.trans symbol'
      cases scanned.symm.trans scanned'
      rw [runs.unique runs']

/-- Items that are there already are passed over one by one. -/
theorem reaches_dropWhile (queue : List Item) {f : Front} (room : f.set.size ≤ limit) :
    Relation.ReflTransGen (Turn g later limit) (queue, f)
      (queue.dropWhile f.set.contains, f) := by
  induction queue with
  | nil => exact .refl
  | cons item queue ih =>
    by_cases hc : f.set.contains item = true
    · rw [List.dropWhile_cons_of_pos hc]
      exact .head (.pass room hc) ih
    · rw [List.dropWhile_cons_of_neg hc]

/-- What the parser fills is what the loop leaves behind. -/
theorem reaches_of_fill (room : Nat) (queue : Queue Item) (f : Front) {s : StateSet}
    (hroom : f.set.size + room = limit + 1) (h : fill g later room queue f = .ok s) :
    ∃ c, Relation.ReflTransGen (Turn g later limit) (queue.toList, f) c ∧ Leaves limit c s := by
  -- Induction on the room left. The parser takes all items that are passed over, and the
  -- one behind them, in a single step.
  induction room generalizing queue f with
  | zero =>
    refine ⟨(queue.toList, f), .refl, ?_⟩
    rw [fill] at h
    cases h
    by_cases hq : queue.isEmpty = true
    · rw [if_pos hq, (Queue.isEmpty_iff queue).1 hq]
      exact .exhausted f
    · rw [if_neg hq]
      cases hl : queue.toList with
      | nil => exact absurd ((Queue.isEmpty_iff queue).2 hl) hq
      | cons item rest => exact .cutOff (by omega)
  | succ room ih =>
    have hskip : Relation.ReflTransGen (Turn g later limit) (queue.toList, f)
        (queue.toList.dropWhile f.set.contains, f) :=
      reaches_dropWhile queue.toList (by omega)
    rw [fill] at h
    cases hn : queue.next? f.set.contains with
    | none =>
      rw [hn] at h
      cases h
      rw [(Queue.next?_eq_none_iff _ _).1 hn] at hskip
      exact ⟨([], f), hskip, .exhausted f⟩
    | some next =>
      rcases next with ⟨item, rest⟩
      rw [hn] at h
      rcases exists_of_bind_eq_ok h with ⟨⟨f', found⟩, hexpand, hrest⟩
      rw [Queue.dropWhile_toList_of_next? hn] at hskip
      have hnew : f.set.contains item = false := Queue.pass_eq_false_of_next? hn
      have hsize := size_expand hnew hexpand
      have hturn : Turn g later limit (item :: rest.toList, f) (rest.toList ++ found, f') :=
        .add (by omega) hnew hexpand
      rcases ih (rest.join found) f' (by omega) hrest with ⟨c, hc, hleaves⟩
      rw [Queue.toList_join] at hc
      exact ⟨c, hskip.trans (.head hturn hc), hleaves⟩

theorem stateSet_runs {p : Parser} {position : Int} {seeds : List Item} {behind : Chart}
    {s : StateSet} (h : p.stateSet position seeds behind.reverse.toArray = .ok s) :
    p.Runs position seeds behind s := by
  have hreaches := reaches_of_fill (p.limit + 1) (.ofList seeds) ⟨.empty position, .empty⟩
    (Nat.zero_add _) h
  rw [Queue.toList_ofList] at hreaches
  exact hreaches

/-- One more position comes about turn by turn. -/
theorem charted_of_extend {p : Parser} {input : List Symbol} {k : Nat} {sym : Symbol}
    {later sets : Array StateSet} (h : p.Charted input (k + 1) later.toList.reverse)
    (hsym : input[k]? = some sym) (hextend : p.extend sym k later = .ok sets) :
    p.Charted input k sets.toList.reverse := by
  unfold extend at hextend
  cases hback : later.back? with
  | none =>
    rw [hback] at hextend
    cases hextend
  | some next =>
    rw [hback] at hextend
    rcases exists_of_bind_eq_ok hextend with ⟨seeds, hscan, hset⟩
    rcases exists_of_bind_eq_ok hset with ⟨s, hs, hpush⟩
    cases hpush
    -- The state set added last is the first one of the chart.
    rw [← Array.getLast?_toList, ← List.head?_reverse, List.head?_eq_some_iff] at hback
    rcases hback with ⟨rest, hrest⟩
    have hlater : (next :: rest).reverse.toArray = later := by
      rw [← hrest, List.reverse_reverse, Array.toArray_toList]
    rw [← hlater] at hs
    rw [hrest] at h
    rw [Array.toList_push, List.reverse_append, hrest]
    exact .before h hsym hscan (stateSet_runs hs)

/-- The positions in front of the last one come about one after the other. -/
theorem charted_of_foldrM {p : Parser} {input : List Symbol} {final : StateSet}
    (hfinal : p.Charted input input.length [final]) (syms : List Symbol) (k : Nat)
    (hk : k ≤ input.length) (hsyms : input.drop k = syms) {sets : Array StateSet}
    (h : (syms.zipIdx k).foldrM (fun (sym, position) later => p.extend sym position later)
      #[final] = .ok sets) : p.Charted input k sets.toList.reverse := by
  induction syms generalizing k sets with
  | nil =>
    have hkn : k = input.length := by
      have hn := List.drop_eq_nil_iff.1 hsyms
      omega
    cases h
    rw [hkn]
    exact hfinal
  | cons sym syms ih =>
    have hget : input[k]? = some sym := by rw [← List.head?_drop, hsyms, List.head?_cons]
    have hrest : input.drop (k + 1) = syms := by rw [← List.tail_drop, hsyms, List.tail_cons]
    have hlt := (List.getElem?_eq_some_iff.1 hget).1
    rw [List.zipIdx_cons, List.foldrM_cons] at h
    rcases exists_of_bind_eq_ok h with ⟨later, hlater, hextend⟩
    exact charted_of_extend (ih (k + 1) hlt hrest hlater) hget hextend

/-- The state sets of a chart come about turn by turn. -/
theorem chart_charted {p : Parser} {input : List Symbol} {chart : Chart}
    (h : p.chart input = .ok chart) : p.Charted input 0 chart := by
  unfold Parser.chart at h
  rcases exists_of_bind_eq_ok h with ⟨final, hfinal, hsets⟩
  rcases exists_of_bind_eq_ok hsets with ⟨sets, hfold, hchart⟩
  cases hchart
  have hlast : p.Runs input.length [.top p.start input.length] [] final := stateSet_runs hfinal
  exact charted_of_foldrM (.last hlast) input 0 (Nat.zero_le _) List.drop_zero hfold

theorem chart_eq_of_parse_eq {p : Parser} {input : List Symbol} {o : Outcome}
    (h : p.parse input = .ok o) : p.chart input = .ok o.chart ∧ harvest o.chart = .ok o.found := by
  unfold parse at h
  rcases exists_of_bind_eq_ok h with ⟨c, hc, hrest⟩
  rcases exists_of_bind_eq_ok hrest with ⟨found, hfound, ho⟩
  cases ho
  exact ⟨hc, hfound⟩

/-- Parsing ends. At no position is there an endless sequence of turns, and the chart
    holds what the loop leaves behind at each position when it has come to its end. No
    state set has more than one item beyond the limit, and the parse is full unless one
    of them has that many. -/
theorem parse_terminates {p : Parser} (hp : p.IsFor g) (input : List Symbol) :
    (∀ later, WellFounded fun d c => Turn g later p.limit c d) ∧
      ∃ o, p.parse input = .ok o ∧ p.Charted input 0 o.chart ∧
        o.chart.length = input.length + 1 ∧
        (∀ s ∈ o.chart, s.size ≤ p.limit + 1) ∧
        (o.full = false → ∃ s ∈ o.chart, s.size = p.limit + 1) ∧
        ((∀ s ∈ o.chart, s.size ≤ p.limit) → o.full = true) := by
  refine ⟨fun later => wellFounded_turn g later p.limit, ?_⟩
  rcases parse_spec hp input with ⟨o, sets, hok, hchart, hfilled, _, _⟩
  have hset : ∀ s ∈ o.chart, ∃ k later, Filled g p.start input p.limit later k s := by
    intro s hs
    rcases List.mem_iff_getElem?.1 hs with ⟨k, hk⟩
    rw [hchart] at hk
    exact ⟨k, hfilled.filled_of_getElem?_reverse hk⟩
  -- A set that has been cut off has no room left.
  have hcut : o.full = false → ∃ s ∈ o.chart, s.size = p.limit + 1 := by
    intro hfull
    rcases exists_truncated_of_full_eq_false hfull with ⟨s, hs, ht⟩
    rcases hset s hs with ⟨k, later, hs'⟩
    exact ⟨s, hs, hs'.size_of_truncated ht⟩
  refine ⟨o, hok, chart_charted (chart_eq_of_parse_eq hok).1, ?_, ?_, hcut, ?_⟩
  · rw [hchart, hfilled.length_reverse]
  · intro s hs
    rcases hset s hs with ⟨k, later, hs'⟩
    exact hs'.size_le
  · intro hsmall
    cases hfull : o.full with
    | true => rfl
    | false =>
      rcases hcut hfull with ⟨s, hs, hsize⟩
      have hle := hsmall s hs
      omega

theorem parse_terminates_loops :
    loops.IsFor loops.grammar ∧
      (∀ later, WellFounded fun d c => Turn loops.grammar later 9 c d) ∧
      ∃ o, loops.parse ["a"] = .ok o ∧ loops.Charted ["a"] 0 o.chart ∧
        o.chart.length = 2 ∧ (∀ s ∈ o.chart, s.size ≤ 10) ∧ o.full = false ∧
        ∃ s ∈ o.chart, s.size = 10 := by
  have hp : loops.IsFor loops.grammar := ⟨rfl, rfl⟩
  rcases parse_terminates hp ["a"] with ⟨hwf, o, hok, hcharted, hlength, hle, hcut, _⟩
  have hrun : (loops.parse ["a"]).toOption.map Outcome.full = some false := by decide +kernel
  rw [hok] at hrun
  have hfull := Option.some.inj hrun
  exact ⟨hp, hwf, o, hok, hcharted, hlength, hle, hfull, hcut hfull⟩

end Parser

end Derivations
