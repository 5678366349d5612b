import Derivations.Proofs.Chart.Turn

/-!
# Raising the Limit

Two parses of the same input, one of them with a higher limit. The limit has no part in
what a turn of the loop does; it only decides whether there is another turn. So the
loop with the higher limit takes the same turns and goes on where the other one has to
stop. A state set which has not been cut off is the same under both limits, and one that
has been is the beginning of the other.

That holds as long as both loops begin with the same items and the same state sets
behind them, so it carries from the end of the input to the first state set that is cut
off, and no further. In front of that, the higher limit finds more items to begin with.
They are added before anything that is brought along later, and a limit that is only a
little higher may then be used up before an item is reached which there was room for
under the lower one. Trees can get lost in this way. None do if the lower limit has cut
off nothing but the state set at the very beginning, or if the higher limit has cut off
nothing at all.

## Main definitions

* `Chart.UncutBehind`: No state set behind a position has been cut off.
* `Chart.Extends`: A chart agrees with another behind the last state set that is cut off.

## Theorems

* `Chart.Extends.cons`: One more position.
* `Parser.Turn.mono`, `Parser.Turn.grows`: Turns are turns under a higher limit, and
  state sets never lose an item.
* `Parser.Runs.raise`: One position under two limits, with the same items to begin with.
* `Parser.Charted.raise`: All positions under two limits.
* `Parser.parse_raised_limit`: What stays the same when the limit is raised.
* `Parser.trees_kept_of_raised_limit`: When all trees are kept.
* `Parser.raised_limit_loses_tree`: A tree that gets lost.
-/

namespace Derivations

namespace Chart

/-- No state set behind a position has been cut off. -/
def UncutBehind (chart : Chart) (k : Nat) : Prop :=
  ∀ (j : Nat) (s : StateSet), k < j → chart[j]? = some s → s.truncated = false

/-- A chart beside another. Behind the last state set that has been cut off they agree,
    and that one is the beginning of the other. -/
structure Extends (chart chart' : Chart) : Prop where
  length : chart'.length = chart.length
  begins : ∀ (k : Nat) (s : StateSet), chart[k]? = some s → chart.UncutBehind k →
    ∃ s', chart'[k]? = some s' ∧ s.toList <+: s'.toList ∧ (s.truncated = false → s' = s)

/-- Of the state sets that have been cut off, one is at the last position. -/
theorem exists_last_truncated (chart : Chart) (h : ∃ s ∈ chart, s.truncated = true) :
    ∃ (k : Nat) (s : StateSet), chart[k]? = some s ∧ s.truncated = true ∧
      chart.UncutBehind k := by
  induction chart with
  | nil =>
    rcases h with ⟨s, hs, _⟩
    exact absurd hs List.not_mem_nil
  | cons first rest ih =>
    by_cases hrest : ∃ s ∈ rest, s.truncated = true
    · rcases ih hrest with ⟨k, s, hs, ht, hbehind⟩
      refine ⟨k + 1, s, hs, ht, fun j t hj hjt => ?_⟩
      cases j with
      | zero => omega
      | succ j => exact hbehind j t (by omega) hjt
    · -- Nothing behind the first position has been cut off, so the first one has.
      rcases h with ⟨s, hs, ht⟩
      have hfirst : s = first := by
        rcases List.mem_cons.1 hs with heq | hmem
        · exact heq
        · exact absurd ⟨s, hmem, ht⟩ hrest
      refine ⟨0, first, rfl, by rw [← hfirst]; exact ht, fun j t hj hjt => ?_⟩
      cases j with
      | zero => omega
      | succ j =>
        rw [Bool.eq_false_iff]
        exact fun htrue => hrest ⟨t, List.mem_of_getElem? hjt, htrue⟩

namespace Extends

variable {chart chart' : Chart}

theorem getElem?_eq (h : Extends chart chart') {k : Nat}
    (huncut : ∀ (j : Nat) (s : StateSet), k ≤ j → chart[j]? = some s → s.truncated = false) :
    chart'[k]? = chart[k]? := by
  cases hs : chart[k]? with
  | none =>
    rw [List.getElem?_eq_none_iff] at hs ⊢
    rw [h.length]
    exact hs
  | some s =>
    have hbehind : chart.UncutBehind k := fun j t hj => huncut j t (Nat.le_of_lt hj)
    rcases h.begins k s hs hbehind with ⟨s', hs', _, heq⟩
    rw [hs', heq (huncut k s (Nat.le_refl k) hs)]

/-- If none of the state sets has been cut off, all of them agree. -/
theorem eq_of_uncut (h : Extends chart chart') (huncut : ∀ s ∈ chart, s.truncated = false) :
    chart' = chart := by
  apply List.ext_getElem?
  intro k
  exact h.getElem?_eq fun j s _ hs => huncut s (List.mem_of_getElem? hs)

theorem nil : Extends [] [] :=
  ⟨rfl, fun k s hs => absurd hs (by simp)⟩

/-- One more position in front. Its state sets need to have something to do with each
    other only if nothing behind them has been cut off. -/
theorem cons (h : Extends chart chart') {s s' : StateSet}
    (hs : (∀ t ∈ chart, t.truncated = false) →
      s.toList <+: s'.toList ∧ (s.truncated = false → s' = s)) :
    Extends (s :: chart) (s' :: chart') := by
  refine ⟨by rw [List.length_cons, List.length_cons, h.length], fun k t ht huncut => ?_⟩
  cases k with
  | zero =>
    rw [List.getElem?_cons_zero] at ht
    rw [← Option.some.inj ht]
    -- Behind the new position are all others.
    refine ⟨s', rfl, hs fun u hu => ?_⟩
    rcases List.mem_iff_getElem?.1 hu with ⟨j, hj⟩
    exact huncut (j + 1) u (Nat.succ_pos j) hj
  | succ k =>
    have hbehind : chart.UncutBehind k := fun j u hj hu => huncut (j + 1) u (by omega) hu
    exact h.begins k t ht hbehind

end Extends

end Chart

/-- A beginning of a list has a beginning of the results. -/
theorem isPrefix_of_mapM {α β ε : Type} {f : α → Except ε β} {as bs : List α} {xs ys : List β}
    (h : as <+: bs) (ha : as.mapM f = .ok xs) (hb : bs.mapM f = .ok ys) : xs <+: ys := by
  rcases h with ⟨rest, rfl⟩
  rw [List.mapM_append] at hb
  rcases exists_of_bind_eq_ok hb with ⟨xs', hxs, hrest⟩
  cases ha.symm.trans hxs
  rcases exists_of_bind_eq_ok hrest with ⟨zs, _, hzs⟩
  cases hzs
  exact List.prefix_append xs zs

namespace Parser

variable {g : Grammar}

section Turns

variable {later : Array StateSet} {limit limit' : Nat} {c d : List Item × Front}

theorem Turn.mono (hle : limit ≤ limit') (h : Turn g later limit c d) :
    Turn g later limit' c d := by
  cases h with
  | pass room present => exact .pass (by omega) present
  | add room new brings => exact .add (by omega) new brings

theorem Turn.grows (h : Turn g later limit c d) : c.2.set.toList <+: d.2.set.toList := by
  cases h with
  | pass room present => exact List.prefix_rfl
  | @add item queue found f f' room new brings =>
    change f.set.toList <+: f'.set.toList
    rw [set_expand brings, StateSet.toList_insert, new, if_neg Bool.false_ne_true]
    exact List.prefix_append _ _

theorem grows_of_reaches (h : Relation.ReflTransGen (Turn g later limit) c d) :
    c.2.set.toList <+: d.2.set.toList := by
  induction h with
  | refl => exact List.prefix_rfl
  | tail _ hturn ih => exact ih.trans hturn.grows

theorem Leaves.toList_eq {s : StateSet} (h : Leaves limit c s) : s.toList = c.2.set.toList := by
  cases h <;> rfl

end Turns

/-- The loop at one position under two limits. Under the higher limit it passes through
    the place where it ends under the lower one. -/
theorem Runs.raise {p p' : Parser} (hg : p'.grammar = p.grammar) (hle : p.limit ≤ p'.limit)
    {position : Int} {seeds : List Item} {behind : Chart} {s s' : StateSet}
    (h : p.Runs position seeds behind s) (h' : p'.Runs position seeds behind s') :
    s.toList <+: s'.toList ∧ (s.truncated = false → s' = s) := by
  rcases h with ⟨c, hc, hleaves⟩
  rcases h' with ⟨c', hc', hleaves'⟩
  rw [hg] at hc'
  have hraised : Relation.ReflTransGen (Turn p.grammar behind.reverse.toArray p'.limit)
      (seeds, ⟨.empty position, .empty⟩) c :=
    Relation.ReflTransGen.mono (fun _ _ => Turn.mono hle) _ _ hc
  have hrest : Relation.ReflTransGen (Turn p.grammar behind.reverse.toArray p'.limit) c c' := by
    rcases Relation.ReflTransGen.total_of_right_unique Turn.rightUnique hraised hc' with h | h
    · exact h
    · -- Nothing is behind the end of the loop but the end itself.
      rw [hleaves'.eq_of_reaches h]
  constructor
  · rw [hleaves.toList_eq, hleaves'.toList_eq]
    exact grows_of_reaches hrest
  · intro huncut
    cases hleaves with
    | exhausted f =>
      -- With an empty queue the loop is at its end under the higher limit, too.
      have hend : c' = ([], f) := (Leaves.exhausted f).eq_of_reaches hrest
      rw [hend] at hleaves'
      cases hleaves'
      rfl
    | cutOff noRoom => exact absurd huncut (by rw [StateSet.cutOff]; exact Bool.noConfusion)

/-- The charts under two limits. -/
theorem Charted.raise {p p' : Parser} {input : List Symbol} (hg : p'.grammar = p.grammar)
    (hstart : p'.start = p.start) (hle : p.limit ≤ p'.limit) {k : Nat} {chart chart' : Chart}
    (h : p.Charted input k chart) (h' : p'.Charted input k chart') : chart.Extends chart' := by
  induction h generalizing chart' with
  | last runs =>
    cases h' with
    | last runs' =>
      rw [hstart] at runs'
      exact Chart.Extends.nil.cons fun _ => runs.raise hg hle runs'
    | before _ symbol _ _ =>
      -- There is no symbol at the end of the input.
      exact absurd symbol (by simp)
  | before behind symbol scanned runs ih =>
    cases h' with
    | last _ => exact absurd symbol (by simp)
    | before behind' symbol' scanned' runs' =>
      refine (ih behind').cons fun huncut => ?_
      -- With the same state sets behind, there are the same items to begin with.
      cases (ih behind').eq_of_uncut huncut
      cases symbol.symm.trans symbol'
      rw [hg] at scanned'
      cases scanned.symm.trans scanned'
      exact runs.raise hg hle runs'

/-- Trees are harvested in the order of the items at the first position. -/
theorem isPrefix_of_harvest {chart chart' : Chart} {s s' : StateSet}
    {found found' : List MeasuredTree} (hs : Chart.at? chart 0 = some s)
    (hs' : Chart.at? chart' 0 = some s') (hitems : s.toList <+: s'.toList)
    (h : harvest chart = .ok found) (h' : harvest chart' = .ok found') : found <+: found' := by
  rw [harvest, hs] at h
  rw [harvest, hs'] at h'
  exact isPrefix_of_mapM (hitems.filter _) h h'

theorem extends_of_parse_eq {p p' : Parser} (hp : p.IsFor g) (hp' : p'.IsFor g)
    (hle : p.limit ≤ p'.limit) {input : List Symbol} {o o' : Outcome}
    (h : p.parse input = .ok o) (h' : p'.parse input = .ok o') :
    o.chart.Extends o'.chart := by
  have hg : p'.grammar = p.grammar := hp'.1.trans hp.1.symm
  have hstart : p'.start = p.start := Option.some.inj (hp'.2.symm.trans hp.2)
  exact (chart_charted (chart_eq_of_parse_eq h).1).raise hg hstart hle
    (chart_charted (chart_eq_of_parse_eq h').1)

/-- What stays the same when the limit is raised. If the parse was full, everything
    does. Otherwise the state sets behind the last one that was cut off stay as they are,
    and that one keeps its items, with others behind them. -/
theorem parse_raised_limit {p p' : Parser} (hp : p.IsFor g) (hp' : p'.IsFor g)
    (hle : p.limit ≤ p'.limit) (input : List Symbol) :
    ∃ o o', p.parse input = .ok o ∧ p'.parse input = .ok o' ∧
      (o.full = true → o'.trees = o.trees ∧ o'.full = true ∧ o'.chart = o.chart) ∧
      (o.full = false → ∃ (k : Nat) (s s' : StateSet), o.chart[k]? = some s ∧
        s.truncated = true ∧ o.chart.UncutBehind k ∧
        (∀ j, k < j → o'.chart[j]? = o.chart[j]?) ∧
        o'.chart[k]? = some s' ∧ s.toList <+: s'.toList) := by
  rcases parse_spec hp input with ⟨o, _, hok, _⟩
  rcases parse_spec hp' input with ⟨o', _, hok', _⟩
  have hextends := extends_of_parse_eq hp hp' hle hok hok'
  refine ⟨o, o', hok, hok', fun hfull => ?_, fun hcut => ?_⟩
  · have hsame : o'.chart = o.chart := by
      refine hextends.eq_of_uncut fun s hs => ?_
      have hall := List.all_eq_true.1 hfull s hs
      rwa [Bool.not_eq_true'] at hall
    -- The trees are harvested from the chart.
    have hfound : o'.found = o.found := by
      have hharvest := (chart_eq_of_parse_eq hok).2
      have hharvest' := (chart_eq_of_parse_eq hok').2
      rw [hsame, hharvest] at hharvest'
      exact (Except.ok.inj hharvest').symm
    refine ⟨?_, ?_, hsame⟩
    · rw [Outcome.trees, Outcome.trees, hfound]
    · rw [Outcome.full, hsame]
      exact hfull
  · rcases o.chart.exists_last_truncated (exists_truncated_of_full_eq_false hcut) with
      ⟨k, s, hs, ht, huncut⟩
    rcases hextends.begins k s hs huncut with ⟨s', hs', hitems, _⟩
    refine ⟨k, s, s', hs, ht, huncut, fun j hj => ?_, hs', hitems⟩
    exact hextends.getElem?_eq fun i t hi hit => huncut i t (by omega) hit

theorem parse_raised_limit_repeats :
    ((repeats 3).IsFor (repeats 3).grammar ∧ (repeats 4).IsFor (repeats 3).grammar ∧
      (repeats 3).limit ≤ (repeats 4).limit ∧
      ∃ o o', (repeats 3).parse ["a", "a"] = .ok o ∧ (repeats 4).parse ["a", "a"] = .ok o' ∧
        o.full = false ∧ ∃ (k : Nat) (s s' : StateSet), o.chart[k]? = some s ∧
          s.truncated = true ∧ o.chart.UncutBehind k ∧
          (∀ j, k < j → o'.chart[j]? = o.chart[j]?) ∧
          o'.chart[k]? = some s' ∧ s.toList <+: s'.toList) ∧
    ((repeats 6).IsFor (repeats 6).grammar ∧ (repeats 7).IsFor (repeats 6).grammar ∧
      (repeats 6).limit ≤ (repeats 7).limit ∧
      ∃ o o', (repeats 6).parse ["a", "a"] = .ok o ∧ (repeats 7).parse ["a", "a"] = .ok o' ∧
        o.full = true ∧ o'.trees = o.trees ∧ o'.full = true ∧ o'.chart = o.chart) := by
  constructor
  · have hp : (repeats 3).IsFor (repeats 3).grammar := ⟨rfl, rfl⟩
    have hp' : (repeats 4).IsFor (repeats 3).grammar := ⟨rfl, rfl⟩
    have hle : (repeats 3).limit ≤ (repeats 4).limit := by decide
    rcases parse_raised_limit hp hp' hle ["a", "a"] with ⟨o, o', hok, hok', _, hcut⟩
    have hrun : ((repeats 3).parse ["a", "a"]).toOption.map Outcome.full = some false := by
      decide +kernel
    rw [hok] at hrun
    have hfull := Option.some.inj hrun
    exact ⟨hp, hp', hle, o, o', hok, hok', hfull, hcut hfull⟩
  · have hp : (repeats 6).IsFor (repeats 6).grammar := ⟨rfl, rfl⟩
    have hp' : (repeats 7).IsFor (repeats 6).grammar := ⟨rfl, rfl⟩
    have hle : (repeats 6).limit ≤ (repeats 7).limit := by decide
    rcases parse_raised_limit hp hp' hle ["a", "a"] with ⟨o, o', hok, hok', hall, _⟩
    have hrun : ((repeats 6).parse ["a", "a"]).toOption.map Outcome.full = some true := by
      decide +kernel
    rw [hok] at hrun
    have hfull := Option.some.inj hrun
    exact ⟨hp, hp', hle, o, o', hok, hok', hfull, hall hfull⟩

/-- When all trees are kept. If nothing but the state set at the first position was cut
    off, the trees stay in front of those that are found in addition; and if nothing is
    cut off under the higher limit, no tree is missing in any case. -/
theorem trees_kept_of_raised_limit {p p' : Parser} (hp : p.IsFor g) (hp' : p'.IsFor g)
    (hle : p.limit ≤ p'.limit) (input : List Symbol) :
    ∃ o o', p.parse input = .ok o ∧ p'.parse input = .ok o' ∧
      (o.chart.UncutBehind 0 → o.trees <+: o'.trees) ∧
      (o'.full = true → ∀ t ∈ o.trees, t ∈ o'.trees) := by
  rcases parse_spec hp input with ⟨o, sets, hok, hchart, hfilled, hmem, _⟩
  rcases parse_spec hp' input with ⟨o', sets', hok', hchart', hfilled', hmem', _⟩
  refine ⟨o, o', hok, hok', fun huncut => ?_, fun hfull t ht => ?_⟩
  · have hfirst : ∃ s, o.chart[0]? = some s := by
      refine ⟨_, List.getElem?_eq_getElem ?_⟩
      rw [hchart, hfilled.length_reverse]
      omega
    rcases hfirst with ⟨s, hs⟩
    rcases (extends_of_parse_eq hp hp' hle hok hok').begins 0 s hs huncut with
      ⟨s', hs', hitems, _⟩
    have hat : Chart.at? o.chart 0 = some s := by
      rw [hchart] at hs ⊢
      exact hfilled.at?_zero hs
    have hat' : Chart.at? o'.chart 0 = some s' := by
      rw [hchart'] at hs' ⊢
      exact hfilled'.at?_zero hs'
    exact (isPrefix_of_harvest hat hat' hitems (chart_eq_of_parse_eq hok).2
      (chart_eq_of_parse_eq hok').2).map _
  · -- What a full parse finds is all that can be deduced.
    have hstart : p'.start = p.start := Option.some.inj (hp'.2.symm.trans hp.2)
    have hdeducible := hfilled.deducible_of_edgeAt ((hmem t).1 ht)
    rw [hmem', hfilled'.edgeAt_iff ((full_iff hchart').1 hfull), hstart]
    exact hdeducible

theorem trees_kept_of_raised_limit_loops :
    loops.IsFor loops.grammar ∧ { loops with limit := 20 }.IsFor loops.grammar ∧
      loops.limit ≤ { loops with limit := 20 }.limit ∧
      ∃ o o', loops.parse ["a"] = .ok o ∧ { loops with limit := 20 }.parse ["a"] = .ok o' ∧
        o.full = false ∧ o.chart.UncutBehind 0 ∧ o.trees.length = 4 ∧ o.trees <+: o'.trees := by
  have hp : loops.IsFor loops.grammar := ⟨rfl, rfl⟩
  have hp' : { loops with limit := 20 }.IsFor loops.grammar := ⟨rfl, rfl⟩
  have hle : loops.limit ≤ { loops with limit := 20 }.limit := by decide
  rcases trees_kept_of_raised_limit hp hp' hle ["a"] with ⟨o, o', hok, hok', hkept, _⟩
  have hrun : (loops.parse ["a"]).toOption.map
      (fun o => (o.full, o.chart.map StateSet.truncated, o.trees.length)) =
        some (false, [true, false], 4) := by
    decide +kernel
  rw [hok] at hrun
  rcases Prod.mk.inj (Option.some.inj hrun) with ⟨hfull, hrest⟩
  rcases Prod.mk.inj hrest with ⟨hcut, hlength⟩
  have huncut : o.chart.UncutBehind 0 := by
    intro j s hj hs
    have hflag : ([true, false] : List Bool)[j]? = some s.truncated := by
      rw [← hcut, List.getElem?_map, hs]
      rfl
    match j with
    | 1 => exact (Option.some.inj hflag).symm
    | j + 2 => exact absurd hflag (by simp)
  exact ⟨hp, hp', hle, o, o', hok, hok', hfull, huncut, hlength, hkept huncut⟩

/-- Raising the limit by one can lose a tree. The higher limit leaves room for the item
    `A -> Aa.` at the end of the input, which then is advanced before the tree is
    complete; what it brings along uses up the room that is left at the beginning. -/
theorem raised_limit_loses_tree :
    (repeats 2).IsFor (repeats 2).grammar ∧ (repeats 3).IsFor (repeats 2).grammar ∧
      (repeats 2).limit ≤ (repeats 3).limit ∧
      ∃ o o', (repeats 2).parse ["a"] = .ok o ∧ (repeats 3).parse ["a"] = .ok o' ∧
        .node "S" [.node "A" [.leaf "a"]] ∈ o.trees ∧
        .node "S" [.node "A" [.leaf "a"]] ∉ o'.trees := by
  have hp : (repeats 2).IsFor (repeats 2).grammar := ⟨rfl, rfl⟩
  have hp' : (repeats 3).IsFor (repeats 2).grammar := ⟨rfl, rfl⟩
  rcases parse_spec hp ["a"] with ⟨o, _, hok, _⟩
  rcases parse_spec hp' ["a"] with ⟨o', _, hok', _⟩
  have hrun : ((repeats 2).parse ["a"]).toOption.map Outcome.trees =
      some [.node "S" [.node "A" [.leaf "a"]]] := by decide +kernel
  have hrun' : ((repeats 3).parse ["a"]).toOption.map Outcome.trees = some [] := by decide +kernel
  rw [hok] at hrun
  rw [hok'] at hrun'
  refine ⟨hp, hp', by decide, o, o', hok, hok', ?_, ?_⟩
  · rw [Option.some.inj hrun]
    exact List.mem_cons_self
  · rw [Option.some.inj hrun']
    exact List.not_mem_nil

end Parser

end Derivations
