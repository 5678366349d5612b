import Derivations.Proofs.Chart.Worklist

/-!
# Filling the Chart

The parser fills its state sets from the last position to the first, and each of
them is left in order. A set refers to those behind it and to none in front, so
what has been filled stays as it is when further sets are put in front of it. If no
set has been cut off, each obeys the rules of the deduction system together with
those behind it, so the chart holds every edge that can be deduced, and since it
never holds any other, it holds just these.

None of this depends on the limit. The limit only decides whether a set is cut off.

## Main definitions

* `Parser.FilledFrom`: The state sets from a position on have been filled.

## Theorems

* `ClosedAt.congr`: Only later positions matter for the rules at a position.
* `Parser.stateSet_spec`, `Parser.extend_spec`: One more position.
* `Parser.final_spec`, `Parser.chart_spec`: The last position, and all positions.
* `Parser.FilledFrom.edgeAt_iff`: A chart without a set cut off holds just the
  edges that can be deduced.
-/

namespace Derivations

open Derivations.Parser

section

variable (g : Grammar) (start : Symbol) (input : List Symbol)

/-- The state sets from position `k` on have been filled, and obey the rules unless
    one of them has been cut off. -/
structure Parser.FilledFrom (limit : Nat) (k : Nat) (sets : Array StateSet) : Prop where
  size : k + sets.size = input.length + 1
  filled : ∀ j, k ≤ j → j ≤ input.length →
    ∃ s later, sets[input.length - j]? = some s ∧ Filled g start input limit later j s
  closed : (∀ s ∈ sets, s.truncated = false) → ∀ j, k ≤ j → j ≤ input.length →
    ClosedAt g start input (EdgeAt input.length sets) j

end

variable {g : Grammar} {start : Symbol} {input : List Symbol}

/-- Whether a family obeys the rules at a position depends on later positions only,
    as long as edges are anchored behind their positions. -/
theorem ClosedAt.congr {S S' : Nat → Edge → Prop} {k : Nat} (h : ClosedAt g start input S k)
    (hS : ∀ j e, k ≤ j → (S' j e ↔ S j e)) (hle : ∀ e, S k e → (k : Int) ≤ e.anchor) :
    ClosedAt g start input S' k := by
  have hk : ∀ e, S' k e ↔ S k e := fun e => hS k e (Nat.le_refl k)
  refine ⟨fun hn => (hk _).2 (h.top hn), fun he ha hi => ?_, fun he ha hi ht => ?_,
    fun hc hcc hca hw ha => ?_⟩
  · exact (hk _).2 (h.predict ((hk _).1 he) ha hi)
  · exact (hk _).2 (h.scan ((hS _ _ (Nat.le_succ k)).1 he) ha hi ht)
  · have hcS := (hk _).1 hc
    have hanchor := hle _ hcS
    exact (hk _).2 (h.complete hcS hcc hca ((hS _ _ (by omega)).1 hw) ha)

namespace Parser

namespace FilledFrom

variable {limit k : Nat} {sets : Array StateSet}

/-- The state sets hold only edges that can be deduced. -/
theorem deducible_of_edgeAt (h : FilledFrom g start input limit k sets) {j : Nat} {e : Edge}
    (he : EdgeAt input.length sets j e) : Deducible g start input j e := by
  rcases he with ⟨hj, s, hs, he⟩
  have hlt := (Array.getElem?_eq_some_iff.1 hs).1
  have hsize := h.size
  rcases h.filled j (by omega) hj with ⟨t, later, ht, hfilled⟩
  rw [hs] at ht
  rw [← Option.some.inj ht] at hfilled
  exact hfilled.deducible e he

/-- A chart without a set cut off holds just the edges that can be deduced. -/
theorem edgeAt_iff (h : FilledFrom g start input limit 0 sets)
    (hfull : ∀ s ∈ sets, s.truncated = false) (j : Nat) (e : Edge) :
    EdgeAt input.length sets j e ↔ Deducible g start input j e :=
  ⟨h.deducible_of_edgeAt, Deducible.of_closedAt fun i hi => h.closed hfull i (Nat.zero_le i) hi⟩

/-- One more state set in front of those filled. It has been filled, and if nothing
    has been cut off, it obeys the rules. -/
theorem push (h : FilledFrom g start input limit (k + 1) sets) {s : StateSet}
    (hs : Filled g start input limit sets k s)
    (hclosed : s.truncated = false →
      ClosedAt g start input (EdgeAt input.length (sets.push s)) k) :
    FilledFrom g start input limit k (sets.push s) := by
  have hsize : k + sets.size = input.length := by
    have := h.size
    omega
  refine ⟨by rw [Array.size_push]; omega, fun j hk hj => ?_, fun hfull j hk hj => ?_⟩
  · rw [Array.getElem?_push]
    by_cases hjk : j = k
    · rw [if_pos (by omega), hjk]
      exact ⟨s, sets, rfl, hs⟩
    · rw [if_neg (by omega)]
      exact h.filled j (by omega) hj
  · by_cases hjk : j = k
    · rw [hjk]
      exact hclosed (hfull s (Array.mem_push_self))
    · -- The set at `j` has been filled before, and the new one is in front of it.
      have hold := h.closed (fun t ht => hfull t (Array.mem_push.2 (Or.inl ht))) j (by omega) hj
      refine hold.congr (fun i e hi => ?_) fun e he => (h.deducible_of_edgeAt he).valid.le_anchor
      rw [edgeAt_push hsize]
      exact ⟨fun he => he.elim id fun he => absurd he.1 (by omega), Or.inl⟩

end FilledFrom

/-- The state set at a position is filled without a fault, and unless it has been
    cut off, it obeys the rules. -/
theorem stateSet_spec (p : Parser) (k : Nat) (seeds : List Item) (later : Array StateSet)
    (hsize : k + later.size = input.length)
    (hlater : ∀ j e, EdgeAt input.length later j e → Deducible p.grammar p.start input j e)
    (hseeds : ∀ e ∈ seeds.map Item.edge, Deducible p.grammar p.start input k e)
    (htop : k = input.length → Edge.top p.start input.length ∈ seeds.map Item.edge)
    (hscan : ∀ w sym, EdgeAt input.length later (k + 1) w → w.awaited? = some sym →
      input[k]? = some sym → p.grammar.isNonTerminal sym = false →
        w.advance (.leaf sym) ∈ seeds.map Item.edge) :
    ∃ s, p.stateSet k seeds later = .ok s ∧
      Filled p.grammar p.start input p.limit later k s ∧
      (s.truncated = false →
        ClosedAt p.grammar p.start input (EdgeAt input.length (later.push s)) k) := by
  have hbegin : Worklist p.grammar p.start input later k ⟨.empty k, .empty⟩
      (Queue.ofList seeds).toList := by
    rw [Queue.toList_ofList]
    exact .initial hseeds
  rcases fill_spec p.limit hsize hlater (p.limit + 1) (.ofList seeds) hbegin
    (Nat.zero_add _) with ⟨s, hok, hfilled, hall⟩
  refine ⟨s, hok, hfilled, fun ht => ?_⟩
  rcases hfilled.exhausted ht with ⟨known, hend⟩
  have hseed : ∀ b ∈ seeds.map Item.edge, b ∈ s.edges := by
    intro b hb
    refine hall ht b (List.mem_append_right _ ?_)
    rw [Queue.toList_ofList]
    exact hb
  exact hend.closedAt rfl hsize (fun hn => hseed _ (htop hn))
    fun w sym hw ha hi hn => hseed _ (hscan w sym hw ha hi hn)

namespace FilledFrom

variable {limit k : Nat} {later : Array StateSet}

/-- Behind a position of the input there is a state set, which was the last to be filled. -/
theorem exists_next (h : FilledFrom g start input limit (k + 1) later) (hk : k < input.length) :
    ∃ next, later.back? = some next ∧ later[input.length - (k + 1)]? = some next := by
  rcases h.filled (k + 1) (Nat.le_refl _) hk with ⟨next, _, hnext, _⟩
  have hsize := h.size
  refine ⟨next, ?_, hnext⟩
  rw [Array.back?_eq_getElem?, ← hnext, show later.size - 1 = input.length - (k + 1) by omega]

/-- What is scanned there can be deduced at the position. -/
theorem deducible_of_scan (h : FilledFrom g start input limit (k + 1) later) {sym : Symbol}
    (hsym : input[k]? = some sym) {next : StateSet}
    (hnext : later[input.length - (k + 1)]? = some next) {seeds : List Item}
    (hscan : scan g sym next = .ok seeds) :
    ∀ e ∈ seeds.map Item.edge, Deducible g start input k e := by
  have hk := (List.getElem?_eq_some_iff.1 hsym).1
  rcases scan_spec g sym next with ⟨seeds', hok, hmem⟩
  cases hscan.symm.trans hok
  intro e he
  rcases (hmem e).1 he with ⟨hn, w, hw, ha, rfl⟩
  exact .scan (h.deducible_of_edgeAt ⟨hk, next, hnext, hw⟩) ha hsym hn

end FilledFrom

/-- One more position is filled without a fault. -/
theorem extend_spec {p : Parser} {k : Nat} {sym : Symbol} {later : Array StateSet}
    (h : FilledFrom p.grammar p.start input p.limit (k + 1) later) (hsym : input[k]? = some sym) :
    ∃ sets, p.extend sym k later = .ok sets ∧
      FilledFrom p.grammar p.start input p.limit k sets := by
  have hk := (List.getElem?_eq_some_iff.1 hsym).1
  have hsize : k + later.size = input.length := by
    have := h.size
    omega
  rcases h.exists_next hk with ⟨next, hback, hnext⟩
  rcases scan_spec p.grammar sym next with ⟨seeds, hok, hmem⟩
  have hlater : ∀ j e, EdgeAt input.length later j e → Deducible p.grammar p.start input j e :=
    fun j e he => h.deducible_of_edgeAt he
  have hseeds := h.deducible_of_scan hsym hnext hok
  rcases stateSet_spec p k seeds later hsize hlater hseeds (fun hn => absurd hn (Nat.ne_of_lt hk))
    (fun w sym' hw ha hi hn => by
      rcases hw with ⟨_, s, hs, hw⟩
      rw [hnext] at hs
      rw [hsym] at hi
      rw [← Option.some.inj hs] at hw
      rw [← Option.some.inj hi] at ha hn ⊢
      exact (hmem _).2 ⟨hn, w, hw, ha, rfl⟩) with ⟨s, hs, hfilled, hclosed⟩
  refine ⟨later.push s, ?_, h.push hfilled hclosed⟩
  rw [extend, hback]
  simp only [hok]
  change (do let s ← p.stateSet k seeds later; _) = _
  rw [hs]
  rfl

/-- The positions in front of the last one are filled one after the other. -/
theorem exists_foldrM_extend {p : Parser} {final : StateSet}
    (hfinal : FilledFrom p.grammar p.start input p.limit input.length #[final])
    (syms : List Symbol) (k : Nat) (hk : k ≤ input.length) (hsyms : input.drop k = syms) :
    ∃ sets, (syms.zipIdx k).foldrM (fun (sym, position) later => p.extend sym position later)
        #[final] = .ok sets ∧
      FilledFrom p.grammar p.start input p.limit k sets := by
  -- The fold begins with the last symbol, so the induction is on what is behind `k`.
  induction syms generalizing k with
  | nil =>
    have hn := List.drop_eq_nil_iff.1 hsyms
    have hkn : k = input.length := by omega
    rw [hkn]
    exact ⟨#[final], rfl, hfinal⟩
  | cons sym syms ih =>
    have hget : input[k]? = some sym := by rw [← List.head?_drop, hsyms, List.head?_cons]
    have hrest : input.drop (k + 1) = syms := by rw [← List.tail_drop, hsyms, List.tail_cons]
    have hlt := (List.getElem?_eq_some_iff.1 hget).1
    rcases ih (k + 1) hlt hrest with ⟨later, hlater, hfilled⟩
    rcases extend_spec hfilled hget with ⟨sets, hsets, hnew⟩
    refine ⟨sets, ?_, hnew⟩
    rw [List.zipIdx_cons, List.foldrM_cons, hlater]
    exact hsets

/-- Behind the last position there is nothing to be filled. -/
theorem filledFrom_empty (g : Grammar) (start : Symbol) (input : List Symbol) (limit : Nat) :
    FilledFrom g start input limit (input.length + 1) #[] :=
  ⟨rfl, fun j hk hj => absurd hj (by omega), fun _ j hk hj => absurd hj (by omega)⟩

/-- The last position is filled without a fault. -/
theorem final_spec (p : Parser) (input : List Symbol) :
    ∃ final, p.stateSet input.length [.top p.start input.length] #[] = .ok final ∧
      FilledFrom p.grammar p.start input p.limit input.length #[final] := by
  rcases stateSet_spec p input.length [.top p.start input.length] #[] (Nat.add_zero _)
    (fun j e he => by
      rcases he with ⟨_, s, hs, _⟩
      exact absurd hs (by simp))
    (fun e he => by
      rw [List.mem_singleton.1 he]
      exact Deducible.top)
    (fun _ => List.mem_cons_self)
    (fun w sym hw => by
      rcases hw with ⟨_, s, hs, _⟩
      exact absurd hs (by simp)) with ⟨final, hok, hfilled, hclosed⟩
  exact ⟨final, hok, (filledFrom_empty _ _ input _).push hfilled hclosed⟩

/-- The chart is filled without a fault. It lists the state sets from the first
    position on. -/
theorem chart_spec (p : Parser) (input : List Symbol) :
    ∃ sets, p.chart input = .ok sets.toList.reverse ∧
      FilledFrom p.grammar p.start input p.limit 0 sets := by
  rcases p.final_spec input with ⟨final, hok, hfilled⟩
  rcases exists_foldrM_extend hfilled input 0 (Nat.zero_le _) List.drop_zero with
    ⟨sets, hsets, hall⟩
  refine ⟨sets, ?_, hall⟩
  rw [chart, hok]
  change Except.bind ((input.zipIdx 0).foldrM _ #[final]) _ = _
  rw [hsets]
  rfl

end Parser

end Derivations
