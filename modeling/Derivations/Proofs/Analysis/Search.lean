import Derivations.Proofs.Analysis.Marking

/-!
# Searching with a Queue

What is reachable can also be found with a queue of symbols to visit. The symbol at its
front is passed over if it has been visited before. Otherwise it is visited now, and the
non-terminals it mentions join the queue unless they have been visited. Whether they wait
in the queue already is not looked at, so a symbol may be queued again and again, and the
queue may well grow while it is worked through. It is no measure of what is left to do.
But every visit of a non-terminal leaves one less to visit, and between two visits the
queue gets shorter, so the search ends.

At any time, whatever a visited symbol mentions has been visited or is queued. When the
queue is empty, the visited symbols are therefore closed, and as nothing is queued that
the start symbol does not lead to, they are the reachable ones.

Being led to from the start symbol is occurring in a form that is derived from it: the
symbols around an occurrence stay as they are when it is replaced.

## Main definitions

* `Search`: The symbols visited and those queued.
* `Grammar.SearchStep`: One turn of the search.
* `Grammar.Mentions`, `Grammar.Searched`: A symbol occurs in an alternative of another,
  and what holds of a search at any time.

## Theorems

* `Grammar.wellFounded_searchStep`: The search ends.
* `Grammar.Searched.step`: What holds of a search goes on to hold.
* `Grammar.path_iff_occurs`: Being led to is occurring in a form.
* `Analysis.mem_reachable_iff_occurs`: The reachable symbols are those which occur in forms.
-/

namespace Derivations

/-- The symbols visited so far and those that wait to be visited, first come first
    served. -/
structure Search where
  visited : List Symbol
  queue : List Symbol

namespace Grammar

/-- A non-terminal occurs in an alternative of a symbol. -/
def Mentions (g : Grammar) (sym other : Symbol) : Prop :=
  other ∈ g.mentioned sym

/-- One turn of the search: the symbol at the front of the queue is passed over or
    visited. -/
inductive SearchStep (g : Grammar) : Search → Search → Prop where
  | pass {visited queue : List Symbol} {sym : Symbol} (known : sym ∈ visited) :
      SearchStep g ⟨visited, sym :: queue⟩ ⟨visited, queue⟩
  | visit {visited queue : List Symbol} {sym : Symbol} (new : sym ∉ visited) :
      SearchStep g ⟨visited, sym :: queue⟩
        ⟨visited ++ [sym],
          queue ++ (g.mentioned sym).filter fun other => !(visited ++ [sym]).contains other⟩

/-- What holds of a search at any time: no symbol is visited twice, the start symbol
    leads to all symbols that are visited or queued, and they are enough to go on from. -/
structure Searched (g : Grammar) (start : Symbol) (s : Search) : Prop where
  nodup : s.visited.Nodup
  led : ∀ sym ∈ s.visited ++ s.queue, Relation.ReflTransGen g.Mentions start sym
  start : start ∈ s.visited ++ s.queue
  /-- Whatever a visited symbol mentions has been visited or is queued. -/
  frontier : ∀ sym ∈ s.visited, ∀ other, g.Mentions sym other → other ∈ s.visited ++ s.queue

variable {g : Grammar} {start sym : Symbol} {s later : Search}

theorem isNonTerminal_of_mentions {other : Symbol} (h : g.Mentions sym other) :
    g.isNonTerminal sym = true := by
  rcases mem_mentioned_iff.1 h with ⟨_, rhs, hrhs, _⟩
  exact isNonTerminal_of_mem_expansions hrhs

-- What joins the queue has a place in it, or has been visited: nothing mentioned is lost.
theorem mem_of_mentions {visited queue : List Symbol} {other : Symbol} (h : g.Mentions sym other) :
    other ∈ visited ++ [sym] ++ (queue ++ (g.mentioned sym).filter fun s =>
      !(visited ++ [sym]).contains s) := by
  by_cases hv : other ∈ visited ++ [sym]
  · exact List.mem_append_left _ hv
  · refine List.mem_append_right _ (List.mem_append_right _ (List.mem_filter.2 ⟨h, ?_⟩))
    simpa using hv

/-- Every turn leaves fewer non-terminals to visit, or as many and a shorter queue. -/
theorem SearchStep.decreases (h : g.SearchStep s later) :
    Prod.Lex (· < ·) (· < ·) ((g.remaining later.visited).length, later.queue.length)
      ((g.remaining s.visited).length, s.queue.length) := by
  cases h with
  | pass known => exact .right _ (Nat.lt_succ_self _)
  | @visit visited queue sym new =>
    rw [remaining_concat]
    by_cases hn : g.isNonTerminal sym = true
    · refine .left _ _ (List.length_filter_lt_length_iff_exists.2 ⟨sym, ?_, by simp⟩)
      exact (mem_remaining_iff sym).2 ⟨hn, new⟩
    · -- A terminal was never among the symbols left to visit, and brings nothing.
      have hsame : (g.remaining visited).filter (· ≠ sym) = g.remaining visited := by
        refine List.filter_eq_self.2 fun other hother => ?_
        have hne : other ≠ sym := by
          rintro rfl
          exact hn ((mem_remaining_iff other).1 hother).1
        simpa using hne
      have hnone : g.mentioned sym = [] := by
        refine List.eq_nil_iff_forall_not_mem.2 fun other hother => ?_
        exact hn (isNonTerminal_of_mentions hother)
      rw [hsame, hnone, List.filter_nil, List.append_nil]
      exact .right _ (Nat.lt_succ_self _)

/-- The search comes to an end, however often symbols are queued. -/
theorem wellFounded_searchStep (g : Grammar) :
    WellFounded fun later s => g.SearchStep s later :=
  Subrelation.wf SearchStep.decreases
    (InvImage.wf (fun s : Search => ((g.remaining s.visited).length, s.queue.length))
      (WellFounded.prod_lex wellFounded_lt wellFounded_lt))

theorem exists_searchStep (h : s.queue ≠ []) : ∃ later, g.SearchStep s later := by
  rcases s with ⟨visited, _ | ⟨sym, queue⟩⟩
  · exact absurd rfl h
  · by_cases hv : sym ∈ visited
    · exact ⟨_, .pass hv⟩
    · exact ⟨_, .visit hv⟩

/-- A search that goes on until it ends gets to an empty queue. -/
theorem exists_searched (g : Grammar) (s : Search) :
    ∃ visited, Relation.ReflTransGen g.SearchStep s ⟨visited, []⟩ := by
  induction s using (wellFounded_searchStep g).induction with
  | _ s ih =>
    -- Either the search has ended here, or it goes on from a search that ends.
    by_cases hq : s.queue = []
    · rcases s with ⟨visited, queue⟩
      subst hq
      exact ⟨visited, .refl⟩
    · rcases exists_searchStep (g := g) hq with ⟨later, hstep⟩
      rcases ih later hstep with ⟨visited, hrest⟩
      exact ⟨visited, .head hstep hrest⟩

theorem Searched.initial (g : Grammar) (start : Symbol) : g.Searched start ⟨[], [start]⟩ where
  nodup := List.nodup_nil
  led := by
    intro sym hsym
    rw [List.nil_append, List.mem_singleton] at hsym
    rw [hsym]
  start := List.mem_singleton_self start
  frontier := by
    intro sym hsym
    exact absurd hsym List.not_mem_nil

theorem Searched.step (h : g.Searched start s) (hstep : g.SearchStep s later) :
    g.Searched start later := by
  rcases h with ⟨hnodup, hled, hstart, hfrontier⟩
  cases hstep with
  | @pass visited queue sym known =>
    -- The symbol passed over is still there, among the visited ones.
    have hkeep : ∀ s, s ∈ visited ++ sym :: queue → s ∈ visited ++ queue := by
      intro s hs
      rcases List.mem_append.1 hs with hs | hs
      · exact List.mem_append_left _ hs
      · rcases List.mem_cons.1 hs with rfl | hs
        · exact List.mem_append_left _ known
        · exact List.mem_append_right _ hs
    refine ⟨hnodup, fun s hs => hled s ?_, hkeep _ hstart, fun s hs other hother => ?_⟩
    · rcases List.mem_append.1 hs with hs | hs
      · exact List.mem_append_left _ hs
      · exact List.mem_append_right _ (List.mem_cons_of_mem sym hs)
    · exact hkeep other (hfrontier s hs other hother)
  | @visit visited queue sym new =>
    -- The symbol visited moves from the queue to the visited ones, and nothing is lost.
    have hkeep : ∀ s ∈ visited ++ sym :: queue,
        s ∈ visited ++ [sym] ++ (queue ++ (g.mentioned sym).filter fun other =>
          !(visited ++ [sym]).contains other) := by
      intro s hs
      rw [List.append_cons] at hs
      rcases List.mem_append.1 hs with hs | hs
      · exact List.mem_append_left _ hs
      · exact List.mem_append_right _ (List.mem_append_left _ hs)
    have hsym : Relation.ReflTransGen g.Mentions start sym :=
      hled sym (List.mem_append_right _ List.mem_cons_self)
    refine ⟨?_, fun s hs => ?_, hkeep _ hstart, fun s hs other hother => ?_⟩
    · exact List.nodup_append.2 ⟨hnodup, List.nodup_singleton sym, by
        rintro s hs _ hother rfl
        exact new (List.mem_singleton.1 hother ▸ hs)⟩
    · rw [← List.append_assoc] at hs
      rcases List.mem_append.1 hs with hs | hs
      · refine hled s ?_
        rw [List.append_cons]
        exact hs
      · exact hsym.tail (List.mem_filter.1 hs).1
    · rcases List.mem_append.1 hs with hs | hs
      · exact hkeep other (hfrontier s hs other hother)
      · rw [List.mem_singleton.1 hs] at hother
        exact mem_of_mentions hother

theorem Searched.run (hrun : Relation.ReflTransGen g.SearchStep ⟨[], [start]⟩ s) :
    g.Searched start s := by
  induction hrun with
  | refl => exact .initial g start
  | tail _ hstep ih => exact ih.step hstep

/-- With nothing queued any more, the symbols visited are those the start symbol leads
    to. -/
theorem Searched.mem_visited_iff {visited : List Symbol} (h : g.Searched start ⟨visited, []⟩)
    (sym : Symbol) : sym ∈ visited ↔ Relation.ReflTransGen g.Mentions start sym := by
  rcases h with ⟨_, hled, hstart, hfrontier⟩
  simp only [List.append_nil] at hled hstart hfrontier
  constructor
  · exact hled sym
  · -- The visited symbols are closed, so no path from the start symbol leaves them.
    intro hpath
    induction hpath with
    | refl => exact hstart
    | tail _ hmention ih => exact hfrontier _ ih _ hmention

theorem mem_reachable_iff_path (hn : g.isNonTerminal start = true) (sym : Symbol) :
    sym ∈ g.reachable start ↔ Relation.ReflTransGen g.Mentions start sym := by
  constructor
  · exact path_of_mem_reachable
  · intro hpath
    induction hpath with
    | refl => exact mem_reachable_start hn
    | tail _ hmention ih => exact (reachable_closed hn).2 _ ih _ hmention

theorem isNonTerminal_of_mentions_path (hn : g.isNonTerminal start = true)
    (h : Relation.ReflTransGen g.Mentions start sym) : g.isNonTerminal sym = true := by
  cases h with
  | refl => exact hn
  | tail _ hmention => exact (mem_mentioned_iff.1 hmention).1

/-- A step of a derivation puts a symbol into a form that leads to the symbols it brings. -/
theorem path_of_step {u v : List Symbol} (hstep : g.Step u v)
    (h : ∀ s ∈ u, g.isNonTerminal s = true → Relation.ReflTransGen g.Mentions start s) :
    ∀ s ∈ v, g.isNonTerminal s = true → Relation.ReflTransGen g.Mentions start s := by
  cases hstep with
  | @replace before after lhs rhs applied =>
    have hlhs : Relation.ReflTransGen g.Mentions start lhs :=
      h lhs (by simp) (isNonTerminal_of_mem_expansions applied)
    -- A symbol of the new form stands beside the one replaced, or has come in for it.
    intro s hs hn
    rcases List.mem_append.1 hs with hs | hs
    · rcases List.mem_append.1 hs with hs | hs
      · exact h s (List.mem_append_left _ hs) hn
      · exact hlhs.tail (mem_mentioned_iff.2 ⟨hn, rhs, applied, hs⟩)
    · exact h s (List.mem_append_right _ (List.mem_cons_of_mem lhs hs)) hn

/-- The start symbol leads to a non-terminal if and only if the non-terminal occurs in a
    form that is derived from it. -/
theorem path_iff_occurs (hn : g.isNonTerminal sym = true) :
    Relation.ReflTransGen g.Mentions start sym ↔
      ∃ before after, g.Derives [start] (before ++ sym :: after) := by
  constructor
  · -- What is mentioned occurs in the form in which its mention has been replaced.
    intro hpath
    clear hn
    induction hpath with
    | refl => exact ⟨[], [], .refl⟩
    | @tail s other _ hmention ih =>
      rcases ih with ⟨before, after, hform⟩
      rcases mem_mentioned_iff.1 hmention with ⟨_, rhs, hrhs, hother⟩
      rcases List.append_of_mem hother with ⟨left, right, rfl⟩
      refine ⟨before ++ left, right ++ after, ?_⟩
      have hnext : g.Derives [start] (before ++ (left ++ other :: right) ++ after) :=
        hform.tail (.replace before after hrhs)
      simpa only [List.append_assoc, List.cons_append] using hnext
  · rintro ⟨before, after, hform⟩
    -- All non-terminals of a form are led to, not the one alone: a step may replace any.
    have hall : ∀ form, g.Derives [start] form → ∀ s ∈ form, g.isNonTerminal s = true →
        Relation.ReflTransGen g.Mentions start s := by
      intro form h
      induction h with
      | refl =>
        intro s hs _
        rw [List.mem_singleton.1 hs]
      | tail _ hstep ih => exact path_of_step hstep ih
    exact hall _ hform sym (by simp) hn

end Grammar

namespace Analysis

theorem reachable_eq_sort {g : Grammar} {a : Analysis} {start : Symbol}
    (hg : g.start? = some start) (ha : of? g = some a) :
    a.reachable = Text.sort (g.reachable start) := by
  rw [of?, hg, Option.map_some] at ha
  cases ha
  rfl

-- What is not reachable is listed as unreachable.
theorem unreachable_eq_sort {g : Grammar} {a : Analysis} {start : Symbol}
    (hg : g.start? = some start) (ha : of? g = some a) :
    a.unreachable = Text.sort (g.remaining (g.reachable start)) := by
  rw [of?, hg, Option.map_some] at ha
  cases ha
  unfold unreachable others Grammar.remaining
  congr 1
  refine List.filter_congr fun sym _ => ?_
  simp [mem_sort]

/-- A non-terminal is reachable if it occurs in a form that is derived from the start
    symbol, and unreachable otherwise. Both are listed in strictly ascending order, no
    terminal is listed, and together the lists hold every non-terminal once. The search with
    a queue ends, and whenever it has ended the symbols visited are the reachable ones. -/
theorem mem_reachable_iff_occurs {g : Grammar} {start : Symbol} (hg : g.start? = some start) :
    ∃ a, of? g = some a ∧
      (∀ sym, g.isNonTerminal sym = true →
        (sym ∈ a.reachable ↔ ∃ before after, g.Derives [start] (before ++ sym :: after)) ∧
        (sym ∈ a.unreachable ↔ ¬∃ before after, g.Derives [start] (before ++ sym :: after))) ∧
      (∀ sym, g.isNonTerminal sym = false → sym ∉ a.reachable ∧ sym ∉ a.unreachable) ∧
      a.reachable.Pairwise (· < ·) ∧ a.unreachable.Pairwise (· < ·) ∧
      (a.reachable ++ a.unreachable).Perm g.nonTerminals ∧
      WellFounded (fun later s => g.SearchStep s later) ∧
      (∃ visited, Relation.ReflTransGen g.SearchStep ⟨[], [start]⟩ ⟨visited, []⟩) ∧
      ∀ s, Relation.ReflTransGen g.SearchStep ⟨[], [start]⟩ s →
        (∀ later, ¬g.SearchStep s later) → s.visited.Perm a.reachable := by
  have hstart : g.isNonTerminal start = true := Grammar.isNonTerminal_of_start?_eq hg
  have hpath := Grammar.mem_reachable_iff_path hstart
  have hnodup : (g.reachable start).Nodup := Grammar.nodup_reachable hstart
  have hnonTerminal : ∀ sym ∈ g.reachable start, g.isNonTerminal sym = true := fun sym hsym =>
    Grammar.isNonTerminal_of_mentions_path hstart ((hpath sym).1 hsym)
  have hperm : (Text.sort (g.reachable start) ++
      Text.sort (g.remaining (g.reachable start))).Perm g.nonTerminals :=
    ((perm_sort _).append (perm_sort _)).trans (Grammar.perm_append_remaining hnodup hnonTerminal)
  rcases exists_of?_eq hg with ⟨a, ha⟩
  refine ⟨a, ha, ?_⟩
  rw [reachable_eq_sort hg ha, unreachable_eq_sort hg ha]
  refine ⟨fun sym hn => ⟨?_, ?_⟩, fun sym hn => ?_, pairwise_lt_sort hnodup,
    pairwise_lt_sort (g.distinct.filter _), hperm, g.wellFounded_searchStep,
    g.exists_searched _, fun s hrun hend => ?_⟩
  · rw [mem_sort, hpath, Grammar.path_iff_occurs hn]
  · rw [mem_sort, Grammar.mem_remaining_iff, ← Grammar.path_iff_occurs hn, hpath]
    exact ⟨And.right, fun h => ⟨hn, h⟩⟩
  · -- Everything listed is a non-terminal.
    have hmem : ∀ other ∈ Text.sort (g.reachable start) ++
        Text.sort (g.remaining (g.reachable start)), g.isNonTerminal other = true :=
      fun other h => (g.isNonTerminal_iff_mem_nonTerminals other).2 (hperm.mem_iff.1 h)
    rw [← Bool.not_eq_true] at hn
    exact ⟨fun h => hn (hmem sym (List.mem_append_left _ h)),
      fun h => hn (hmem sym (List.mem_append_right _ h))⟩
  · have hsearched : g.Searched start s := .run hrun
    rcases s with ⟨visited, queue⟩
    have hqueue : queue = [] := by
      by_contra hne
      rcases Grammar.exists_searchStep (g := g) (s := ⟨visited, queue⟩) hne with ⟨later, hstep⟩
      exact hend later hstep
    subst hqueue
    refine List.Perm.trans ?_ (perm_sort _).symm
    rw [List.perm_ext_iff_of_nodup hsearched.nodup hnodup]
    intro sym
    rw [hsearched.mem_visited_iff, hpath]

/-- Though `B` is queued three times, the search visits every symbol but `E`, which occurs
    in no form. -/
theorem mem_reachable_iff_occurs_fading :
    Grammar.fading.start? = some (Text.ofString "S") ∧
      ∃ a, of? Grammar.fading = some a ∧
        a.reachable = [Text.ofString "A", "B", "C", "D", "S"] ∧
        a.unreachable = [Text.ofString "E"] ∧
        (∃ before after, Grammar.fading.Derives ["S"] (before ++ Text.ofString "C" :: after)) ∧
        (¬∃ before after, Grammar.fading.Derives ["S"] (before ++ Text.ofString "E" :: after)) ∧
        Text.ofString "d" ∉ a.reachable := by
  have hg : Grammar.fading.start? = some (Text.ofString "S") := rfl
  rcases mem_reachable_iff_occurs hg with
    ⟨a, ha, hsym, hterminal, hsorted, hsorted', hperm, _, _, hvisited⟩
  have hrun : Relation.ReflTransGen Grammar.fading.SearchStep ⟨[], ["S"]⟩
      ⟨["S", "A", "B", "D", "C"], []⟩ :=
    .head (b := ⟨["S"], ["A", "B"]⟩) (.visit (by decide)) <|
    .head (b := ⟨["S", "A"], ["B", "B", "B", "D"]⟩) (.visit (by decide)) <|
    .head (b := ⟨["S", "A", "B"], ["B", "B", "D", "C"]⟩) (.visit (by decide)) <|
    .head (b := ⟨["S", "A", "B"], ["B", "D", "C"]⟩) (.pass (by decide)) <|
    .head (b := ⟨["S", "A", "B"], ["D", "C"]⟩) (.pass (by decide)) <|
    .head (b := ⟨["S", "A", "B", "D"], ["C"]⟩) (.visit (by decide)) <|
    .single (.visit (by decide))
  have hreachable : a.reachable = [Text.ofString "A", "B", "C", "D", "S"] := by
    have hend : ∀ later, ¬Grammar.fading.SearchStep ⟨["S", "A", "B", "D", "C"], []⟩ later := by
      intro later hstep
      cases hstep
    exact List.Perm.eq_of_pairwise' hsorted (by decide)
      ((hvisited _ hrun hend).symm.trans (by decide))
  have hunreachable : a.unreachable = [Text.ofString "E"] := by
    rw [hreachable] at hperm
    refine List.Perm.eq_of_pairwise' hsorted' (by decide) ?_
    exact (List.perm_append_left_iff _).1 (hperm.trans (by decide))
  refine ⟨hg, a, ha, hreachable, hunreachable, ?_, ?_, (hterminal "d" rfl).1⟩
  · rw [← (hsym "C" rfl).1, hreachable]
    decide
  · rw [← (hsym "E" rfl).2, hunreachable]
    decide

end Analysis

end Derivations
