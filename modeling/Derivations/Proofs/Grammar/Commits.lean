import Derivations.Grammar.Workbench
import Derivations.Proofs.Grammar.Derivation
import Mathlib.Data.List.DropRight
import Mathlib.Data.List.Induction

/-!
# What a Grammar Holds

A grammar is asked about its productions in several ways: for its non-terminals, for the
alternatives of one of them, for all productions in a row, for their number, and for its
terminals. All the answers follow from the sequence of productions it has been given,
whatever has been asked in between. Two of the ways say all there is to know, the
non-terminals in order and the alternatives of a symbol, and each of them changes in a
simple manner when a production is added. The terminals do not: a symbol ceases to be one
when it is given a production. They have to be read off the whole of the grammar each time.

On a workbench, productions come from drafts. Any number of drafts for one grammar may be
in progress, and symbols are added to them in any order, so what a draft commits is spread
over what has been done. It is the left-hand side under which the draft was begun last,
together with all symbols added to this draft since then; a draft that is committed keeps
them.

## Main definitions

* `FirstOccurrences`: The members of a sequence without repetition, in the order of their
  first occurrences.
* `Grammar.Holds`: All answers of a grammar are those for a sequence of productions.
* `Workbench.Move`, `Workbench.after`: What is done to the drafts for one grammar.
* `Workbench.drafted`: What a draft has come to.
* `Workbench.commits`: The productions committed by a sequence of moves.

## Theorems

* `Grammar.holds_ofProductions`: A grammar holds the productions it has been given.
* `Workbench.Reflects.perform`: What a move does to the grammar and the drafts.
* `Workbench.reflects_after`: The grammar and the drafts are what the moves say.
* `Workbench.grammar_holds_commits`: The grammar on a workbench holds what has been
  committed.
-/

namespace Derivations

/-- The members of a sequence, each of them once, in the order of their first
    occurrences. -/
structure FirstOccurrences {α : Type u} [BEq α] (as bs : List α) : Prop where
  mem_iff : ∀ a, a ∈ as ↔ a ∈ bs
  ordered : as.Pairwise fun a b => bs.idxOf a < bs.idxOf b

namespace FirstOccurrences

variable {α : Type u} [BEq α] {as bs : List α} {b : α}

theorem nil : FirstOccurrences ([] : List α) [] :=
  ⟨fun _ => Iff.rfl, List.Pairwise.nil⟩

theorem nodup (h : FirstOccurrences as bs) : as.Nodup :=
  h.ordered.imp fun {a b} hlt hab => by
    rw [hab] at hlt
    exact Nat.lt_irrefl _ hlt

variable [LawfulBEq α]

-- A member that is there already keeps its place.
theorem ordered_concat (h : FirstOccurrences as bs) (b : α) :
    as.Pairwise fun a a' => (bs ++ [b]).idxOf a < (bs ++ [b]).idxOf a' :=
  h.ordered.imp_of_mem fun {a a'} ha ha' hlt => by
    rwa [List.idxOf_append_of_mem ((h.mem_iff a).1 ha),
      List.idxOf_append_of_mem ((h.mem_iff a').1 ha')]

theorem concat_of_mem (h : FirstOccurrences as bs) (hb : b ∈ as) :
    FirstOccurrences as (bs ++ [b]) := by
  refine ⟨fun a => ?_, h.ordered_concat b⟩
  rw [List.mem_append, List.mem_singleton, ← h.mem_iff a]
  constructor
  · exact Or.inl
  · rintro (ha | rfl)
    · exact ha
    · exact hb

theorem concat_of_not_mem (h : FirstOccurrences as bs) (hb : b ∉ as) :
    FirstOccurrences (as ++ [b]) (bs ++ [b]) := by
  refine ⟨fun a => ?_, List.pairwise_append.2 ⟨h.ordered_concat b, List.pairwise_singleton _ _,
    fun a ha c hc => ?_⟩⟩
  · rw [List.mem_append, List.mem_append, h.mem_iff a]
  · -- The new member is found behind all others.
    rw [List.mem_singleton] at hc
    have ha' : a ∈ bs := (h.mem_iff a).1 ha
    have hb' : b ∉ bs := fun hmem => hb ((h.mem_iff b).2 hmem)
    rw [hc, List.idxOf_append_of_mem ha', List.idxOf_append_of_notMem hb']
    have hlt := List.idxOf_lt_length_iff.2 ha'
    omega

theorem head?_eq (h : FirstOccurrences as bs) : as.head? = bs.head? := by
  cases bs with
  | nil =>
    cases as with
    | nil => rfl
    | cons a as => exact absurd ((h.mem_iff a).1 List.mem_cons_self) List.not_mem_nil
  | cons b bs =>
    have hb : b ∈ as := (h.mem_iff b).2 List.mem_cons_self
    cases as with
    | nil => exact absurd hb List.not_mem_nil
    | cons a as =>
      rcases List.mem_cons.1 hb with rfl | hmem
      · rfl
      · -- Nothing comes in front of what stands in the first place.
        have hlt := (List.pairwise_cons.1 h.ordered).1 b hmem
        rw [List.idxOf_cons_self] at hlt
        exact absurd hlt (Nat.not_lt_zero _)

/-- Erasing duplicates leaves the first occurrences. -/
theorem eraseDups (bs : List α) : FirstOccurrences bs.eraseDups bs := by
  -- Induction from the end, as it is the later occurrences that are erased.
  induction bs using List.reverseRecOn with
  | nil => exact nil
  | append_singleton bs b ih =>
    rw [List.eraseDups_append, List.removeAll, List.filter_singleton]
    by_cases hb : b ∈ bs
    · have hnone : (!bs.elem b) = false := by simpa using hb
      rw [hnone, cond_false, List.eraseDups_nil, List.append_nil]
      exact ih.concat_of_mem ((ih.mem_iff b).2 hb)
    · have hsome : (!bs.elem b) = true := by simpa using hb
      rw [hsome, cond_true]
      exact ih.concat_of_not_mem fun hmem => hb ((ih.mem_iff b).1 hmem)

end FirstOccurrences

/-- Members sorted by a key are all members, if every key that occurs is listed once. -/
theorem flatMap_filter_perm {α : Type u} {κ : Type v} [DecidableEq κ] (key : α → κ) (keys : List κ)
    (hkeys : keys.Nodup) (as : List α) (has : ∀ a ∈ as, key a ∈ keys) :
    (keys.flatMap fun k => as.filter (key · = k)).Perm as := by
  induction keys generalizing as with
  | nil =>
    cases as with
    | nil => exact List.Perm.nil
    | cons a as => exact absurd (has a List.mem_cons_self) List.not_mem_nil
  | cons k keys ih =>
    rcases List.nodup_cons.1 hkeys with ⟨hk, hnodup⟩
    -- What has another key is not touched by leaving out those with this one.
    have hrest : (keys.flatMap fun k' => as.filter (key · = k')) =
        keys.flatMap fun k' => (as.filter fun a => !decide (key a = k)).filter (key · = k') := by
      refine List.flatMap_congr fun k' hk' => ?_
      rw [List.filter_filter]
      refine List.filter_congr fun a _ => ?_
      have hne : k' ≠ k := fun h => hk (h ▸ hk')
      by_cases ha : key a = k'
      · simp [ha, hne]
      · simp [ha]
    rw [List.flatMap_cons, hrest]
    refine ((ih hnodup _ fun a ha => ?_).append_left _).trans (List.filter_append_perm _ as)
    rcases List.mem_filter.1 ha with ⟨hmem, hne⟩
    exact (List.mem_cons.1 (has a hmem)).resolve_left (by simpa using hne)

namespace Grammar

/-- A grammar answers all questions as it should when it has been given a sequence of
    productions. -/
structure Holds (g : Grammar) (ps : List (Symbol × List Symbol)) : Prop where
  nonTerminals : FirstOccurrences g.nonTerminals (ps.map (·.1))
  start : g.start? = g.nonTerminals.head?
  expansions : ∀ sym, g.expansions sym = (ps.filter (·.1 = sym)).map (·.2)
  -- Symbols are told apart by whether they have been given a production, be it an empty one.
  absent : ∀ sym, g.expansions sym = [] ↔ sym ∉ ps.map (·.1)
  known : ∀ sym, g.isNonTerminal sym = true ↔ sym ∈ ps.map (·.1)
  size : g.size = ps.length
  productions : g.productions = g.nonTerminals.flatMap fun sym =>
    (g.expansions sym).zipIdx.map fun (rhs, i) => ⟨sym, i, rhs⟩
  once : (g.productions.map fun p => (p.lhs, p.rhs)).Perm ps
  terminals : FirstOccurrences g.terminals
    ((g.productions.flatMap (·.rhs)).filter fun sym => decide (sym ∉ ps.map (·.1)))

section

variable {g : Grammar} {ps : List (Symbol × List Symbol)}

theorem start?_eq_head? (g : Grammar) : g.start? = g.nonTerminals.head? := by
  rw [start?, Grammar.nonTerminals, List.head?_map]

-- The rules are found by their left-hand sides.
theorem productions_eq_flatMap (g : Grammar) :
    g.productions = g.nonTerminals.flatMap fun sym =>
      (g.expansions sym).zipIdx.map fun (rhs, i) => ⟨sym, i, rhs⟩ := by
  rw [Grammar.productions, Grammar.nonTerminals, List.flatMap_map]
  refine List.flatMap_congr fun r hr => ?_
  rw [expansions_eq_of_mem_rules hr, Rule.productions]

/-- The non-terminals and the alternatives of every symbol are all there is to know. -/
theorem Holds.of_expansions (hnon : FirstOccurrences g.nonTerminals (ps.map (·.1)))
    (hexp : ∀ sym, g.expansions sym = (ps.filter (·.1 = sym)).map (·.2)) : g.Holds ps := by
  have hknown : ∀ sym, g.isNonTerminal sym = true ↔ sym ∈ ps.map (·.1) := fun sym => by
    rw [isNonTerminal_iff_mem_nonTerminals, hnon.mem_iff]
  have honce : (g.productions.map fun p => (p.lhs, p.rhs)).Perm ps := by
    have hgroup : (g.productions.map fun p => (p.lhs, p.rhs)) =
        g.nonTerminals.flatMap fun sym => ps.filter (·.1 = sym) := by
      rw [productions_eq_flatMap, List.map_flatMap]
      refine List.flatMap_congr fun sym _ => ?_
      -- The alternatives of a symbol, each with the symbol, are its productions.
      have hfirst : ((g.expansions sym).zipIdx.map fun (rhs, i) => (sym, rhs)) =
          (g.expansions sym).map fun rhs => (sym, rhs) := by
        conv_rhs => rw [← List.zipIdx_map_fst 0 (g.expansions sym), List.map_map]
        rfl
      rw [List.map_map]
      refine hfirst.trans ?_
      rw [hexp sym, List.map_map]
      refine (List.map_congr_left fun p hp => ?_).trans (List.map_id _)
      have hsym : p.1 = sym := by simpa using (List.mem_filter.1 hp).2
      rw [← hsym]
      rfl
    rw [hgroup]
    exact flatMap_filter_perm (·.1) g.nonTerminals hnon.nodup ps fun p hp =>
      (hnon.mem_iff p.1).2 (List.mem_map_of_mem hp)
  refine ⟨hnon, start?_eq_head? g, hexp, fun sym => ?_, hknown, ?_, productions_eq_flatMap g,
    honce, ?_⟩
  · rw [← hknown sym, isNonTerminal_iff_expansions_ne_nil, not_not]
  · rw [Grammar.size, ← honce.length_eq, List.length_map]
  · have hterminal : (fun sym => !g.isNonTerminal sym) =
        fun sym => decide (sym ∉ ps.map (·.1)) := by
      funext sym
      rw [Bool.eq_iff_iff, Bool.not_eq_true', decide_eq_true_iff, ← hknown sym,
        Bool.not_eq_true]
    rw [Grammar.terminals, hterminal]
    exact FirstOccurrences.eraseDups _

theorem holds_empty (name : Text) : (empty name).Holds [] :=
  .of_expansions .nil fun _ => rfl

/-- A production that is added comes last. -/
theorem Holds.add (h : g.Holds ps) (lhs : Symbol) (rhs : List Symbol) :
    (g.add lhs rhs).Holds (ps ++ [(lhs, rhs)]) := by
  refine .of_expansions ?_ fun sym => ?_
  · rw [nonTerminals_add, List.map_append]
    split
    · rename_i hmem
      exact h.nonTerminals.concat_of_mem hmem
    · rename_i hmem
      exact h.nonTerminals.concat_of_not_mem hmem
  · rw [expansions_add, List.filter_append, List.map_append, ← h.expansions sym]
    by_cases hsym : sym = lhs
    · simp [hsym]
    · simp [hsym, Ne.symm hsym]

theorem ofProductions_concat (name : Text) (ps : List (Symbol × List Symbol))
    (p : Symbol × List Symbol) :
    ofProductions name (ps ++ [p]) = (ofProductions name ps).add p.1 p.2 := by
  rw [ofProductions, List.foldl_append]
  rfl

/-- A grammar holds the productions it has been given. -/
theorem holds_ofProductions (name : Text) (ps : List (Symbol × List Symbol)) :
    (ofProductions name ps).Holds ps := by
  -- Induction from the end, as the last production is added last.
  induction ps using List.reverseRecOn with
  | nil => exact holds_empty name
  | append_singleton ps p ih =>
    rw [ofProductions_concat]
    exact ih.add p.1 p.2

/-- Once there is a start symbol, further productions do not change it. -/
theorem Holds.start?_append {g' : Grammar} {ps' : List (Symbol × List Symbol)} {sym : Symbol}
    (h : g.Holds ps) (h' : g'.Holds (ps ++ ps')) (hstart : g.start? = some sym) :
    g'.start? = some sym := by
  rw [h.start, h.nonTerminals.head?_eq] at hstart
  rw [h'.start, h'.nonTerminals.head?_eq, List.map_append, List.head?_append, hstart]
  rfl

end

end Grammar

namespace Workbench

/-- What can be done to the drafts for a grammar, and to the grammar itself. -/
inductive Move where
  | begin (draft : Text) (lhs : Symbol)
  | extend (draft : Text) (syms : List Symbol)
  | commit (draft : Text)
  | commitEmpty (draft : Text)
  | add (lhs : Symbol) (rhs : List Symbol)

namespace Move

/-- The left-hand side for which a move begins a draft. -/
def begun? (draft : Text) : Move → Option Symbol
  | begin d lhs => if d = draft then some lhs else none
  | extend _ _ | commit _ | commitEmpty _ | add _ _ => none

/-- The symbols that a move adds to a draft. -/
def symbols (draft : Text) : Move → List Symbol
  | extend d syms => if d = draft then syms else []
  | begin _ _ | commit _ | commitEmpty _ | add _ _ => []

end Move

/-- A move that is not possible, as there is no such draft, changes nothing. -/
def perform (w : Workbench) : Move → Workbench
  | .begin d lhs => w.begin d lhs
  | .extend d syms => (w.extend d syms).getD w
  | .commit d => (w.commit d).getD w
  | .commitEmpty d => (w.commitEmpty d).getD w
  | .add lhs rhs => w.addTo w.building lhs rhs

/-- The workbench after moves. -/
def after (w : Workbench) (ms : List Move) : Workbench :=
  ms.foldl perform w

/-- The left-hand side under which a draft was begun last. -/
def leftHandSide? (ms : List Move) (draft : Text) : Option Symbol :=
  (ms.filterMap (Move.begun? draft)).getLast?

/-- The symbols added to a draft since it was begun last. -/
def collected (ms : List Move) (draft : Text) : List Symbol :=
  (ms.rtakeWhile fun m => (m.begun? draft).isNone).flatMap (Move.symbols draft)

/-- What a draft has come to after moves, if it has been begun. -/
def drafted (ms : List Move) (draft : Text) : Option (Symbol × List Symbol) :=
  (leftHandSide? ms draft).map fun lhs => (lhs, collected ms draft)

/-- The production that a move commits when it comes after others. -/
def committed (ms : List Move) : Move → Option (Symbol × List Symbol)
  | .commit d => drafted ms d
  | .commitEmpty d => (drafted ms d).map fun p => (p.1, [])
  | .add lhs rhs => some (lhs, rhs)
  | .begin _ _ | .extend _ _ => none

/-- The productions committed by moves that come after others. -/
def commitsAfter (before : List Move) : List Move → List (Symbol × List Symbol)
  | [] => []
  | m :: ms => (committed before m).toList ++ commitsAfter (before ++ [m]) ms

/-- The productions committed by moves, from first to last. -/
def commits (ms : List Move) : List (Symbol × List Symbol) :=
  commitsAfter [] ms

theorem commitsAfter_append (before ms ms' : List Move) :
    commitsAfter before (ms ++ ms') =
      commitsAfter before ms ++ commitsAfter (before ++ ms) ms' := by
  induction ms generalizing before with
  | nil => rw [List.nil_append, List.append_nil, commitsAfter, List.nil_append]
  | cons m ms ih =>
    rw [List.cons_append, commitsAfter, commitsAfter, ih, List.append_assoc, List.append_assoc]
    rfl

-- What has been committed stays committed.
theorem commits_append (ms ms' : List Move) :
    commits (ms ++ ms') = commits ms ++ commitsAfter ms ms' :=
  commitsAfter_append [] ms ms'

theorem commits_concat (ms : List Move) (m : Move) :
    commits (ms ++ [m]) = commits ms ++ (committed ms m).toList := by
  rw [commits_append, commitsAfter, commitsAfter, List.append_nil]

/-- A draft that is begun anew has no symbols, and otherwise it keeps those it has. -/
theorem drafted_concat (ms : List Move) (m : Move) (draft : Text) :
    drafted (ms ++ [m]) draft =
      match m.begun? draft with
      | some lhs => some (lhs, [])
      | none => (drafted ms draft).map fun p => (p.1, p.2 ++ m.symbols draft) := by
  unfold drafted leftHandSide? collected
  rw [List.filterMap_append, List.getLast?_append, List.rtakeWhile_concat]
  cases hbegun : m.begun? draft with
  | some lhs =>
    rw [List.filterMap_cons_some hbegun, List.filterMap_nil]
    rfl
  | none =>
    rw [List.filterMap_cons_none hbegun, List.filterMap_nil, Option.isNone_none, if_pos rfl,
      List.flatMap_append, List.flatMap_singleton, Option.map_map]
    rfl

theorem draft?_setDraft (w : Workbench) (name : Text) (d : Draft) (other : Text) :
    (w.setDraft name d).draft? other = if name = other then some d else w.draft? other := by
  unfold setDraft draft?
  rw [List.lookup_cons]
  by_cases h : name = other
  · simp [h]
  · rw [if_neg h, beq_false_of_ne (Ne.symm h)]
    -- Leaving out the draft of one name does not touch the others.
    change List.lookup other (w.drafts.filter fun p => decide (p.1 ≠ name)) = _
    induction w.drafts with
    | nil => rfl
    | cons p drafts ih =>
      rw [List.lookup_cons]
      by_cases hp : p.1 = name
      · rw [List.filter_cons_of_neg (by simpa using hp), ih, hp, beq_false_of_ne (Ne.symm h)]
      · rw [List.filter_cons_of_pos (by simpa using hp), List.lookup_cons, ih]

theorem buildingGrammar_addTo {w : Workbench} (h : w.building < w.grammars.length)
    (lhs : Symbol) (rhs : List Symbol) :
    (w.addTo w.building lhs rhs).buildingGrammar = w.buildingGrammar.add lhs rhs := by
  unfold addTo buildingGrammar
  rw [List.getD_eq_getElem?_getD, List.getD_eq_getElem?_getD, List.getElem?_modify,
    List.getElem?_eq_getElem h]
  simp

/-- The grammar and the drafts for it are what moves have made of them. -/
structure Reflects (name : Text) (ms : List Move) (w : Workbench) : Prop where
  grammar : w.buildingGrammar = .ofProductions name (commits ms)
  present : w.building < w.grammars.length
  drafts : ∀ d, w.draft? d = (drafted ms d).map fun p => ⟨w.building, p.1, p.2⟩

section

variable {name : Text} {ms : List Move} {w : Workbench}

theorem reflects_start (name : Text) : Reflects name [] (start name) :=
  ⟨rfl, Nat.zero_lt_succ 1, fun _ => rfl⟩

-- Whatever a move commits is added, and the drafts stay as they are.
theorem Reflects.accept (h : Reflects name ms w) {m : Move}
    (hdrafts : ∀ d, drafted (ms ++ [m]) d = drafted ms d) :
    Reflects name (ms ++ [m])
      ((committed ms m).elim w fun p => w.addTo w.building p.1 p.2) := by
  cases hm : committed ms m with
  | none =>
    refine ⟨?_, h.present, fun d => ?_⟩
    · rw [commits_concat, hm, Option.toList_none, List.append_nil]
      exact h.grammar
    · rw [hdrafts d]
      exact h.drafts d
  | some p =>
    refine ⟨?_, ?_, fun d => ?_⟩
    · rw [Option.elim_some, buildingGrammar_addTo h.present, h.grammar, commits_concat, hm]
      exact (Grammar.ofProductions_concat name _ p).symm
    · rw [Option.elim_some, addTo, List.length_modify]
      exact h.present
    · rw [hdrafts d]
      exact h.drafts d

-- A draft is changed, and nothing is committed.
theorem Reflects.setDraft (h : Reflects name ms w) {m : Move} {draft : Text}
    {p : Symbol × List Symbol} (hm : committed ms m = none)
    (hdrafts : ∀ d, drafted (ms ++ [m]) d = if draft = d then some p else drafted ms d) :
    Reflects name (ms ++ [m]) (w.setDraft draft ⟨w.building, p.1, p.2⟩) := by
  refine ⟨?_, h.present, fun d => ?_⟩
  · rw [commits_concat, hm, Option.toList_none, List.append_nil]
    exact h.grammar
  · rw [draft?_setDraft, hdrafts d]
    by_cases hd : draft = d
    · rw [if_pos hd, if_pos hd]
      rfl
    · rw [if_neg hd, if_neg hd]
      exact h.drafts d

/-- What a move does to the grammar and to the drafts. -/
theorem Reflects.perform (h : Reflects name ms w) (m : Move) :
    Reflects name (ms ++ [m]) (w.perform m) := by
  have hconcat (d : Text) := drafted_concat ms m d
  cases m with
  | begin draft lhs =>
    refine h.setDraft (p := (lhs, [])) rfl fun d => ?_
    rw [hconcat d, Move.begun?]
    by_cases hd : draft = d
    · rw [if_pos hd, if_pos hd]
    · rw [if_neg hd, if_neg hd]
      simp [Move.symbols]
  | extend draft syms =>
    have hextend : w.perform (.extend draft syms) = (drafted ms draft).elim w fun p =>
        w.setDraft draft ⟨w.building, p.1, p.2 ++ syms⟩ := by
      rw [Workbench.perform, Workbench.extend, h.drafts draft]
      cases drafted ms draft <;> rfl
    rw [hextend]
    cases hdraft : drafted ms draft with
    | none =>
      -- Symbols for a draft that has not been begun are lost.
      refine h.accept (m := .extend draft syms) fun d => ?_
      rw [hconcat d, Move.begun?, Move.symbols]
      by_cases hd : draft = d
      · rw [← hd, hdraft]
        rfl
      · simp [hd]
    | some p =>
      refine h.setDraft (p := (p.1, p.2 ++ syms)) rfl fun d => ?_
      rw [hconcat d, Move.begun?, Move.symbols]
      by_cases hd : draft = d
      · rw [if_pos hd, if_pos hd, ← hd, hdraft]
        rfl
      · simp [hd]
  | commit draft =>
    have hcommit : w.perform (.commit draft) =
        (committed ms (.commit draft)).elim w fun p => w.addTo w.building p.1 p.2 := by
      rw [Workbench.perform, Workbench.commit, h.drafts draft, committed]
      cases drafted ms draft <;> rfl
    rw [hcommit]
    exact h.accept fun d => by simp [hconcat d, Move.begun?, Move.symbols]
  | commitEmpty draft =>
    have hcommit : w.perform (.commitEmpty draft) =
        (committed ms (.commitEmpty draft)).elim w fun p => w.addTo w.building p.1 p.2 := by
      rw [Workbench.perform, Workbench.commitEmpty, h.drafts draft, committed]
      cases drafted ms draft <;> rfl
    rw [hcommit]
    exact h.accept fun d => by simp [hconcat d, Move.begun?, Move.symbols]
  | add lhs rhs => exact h.accept fun d => by simp [hconcat d, Move.begun?, Move.symbols]

/-- The grammar and the drafts are what the moves say, however many there have been. -/
theorem reflects_after (name : Text) (ms : List Move) :
    Reflects name ms ((start name).after ms) := by
  -- Induction from the end, as the last move meets what all others have left.
  induction ms using List.reverseRecOn with
  | nil => exact reflects_start name
  | append_singleton ms m ih =>
    rw [after, List.foldl_append]
    exact ih.perform m

end

/-- However the drafts for a grammar are interleaved, the grammar holds what has been
    committed, and so does one that is given its productions one by one. In both cases the
    start symbol stays what it is once there is one. -/
theorem grammar_holds_commits (name : Text) (ms : List Move) :
    ((start name).after ms).buildingGrammar.Holds (commits ms) ∧
      (∀ n sym, ((start name).after (ms.take n)).buildingGrammar.start? = some sym →
        ((start name).after ms).buildingGrammar.start? = some sym) ∧
      ∀ ps, (Grammar.ofProductions name ps).Holds ps ∧
        ∀ n sym, (Grammar.ofProductions name (ps.take n)).start? = some sym →
          (Grammar.ofProductions name ps).start? = some sym := by
  have hholds (ms : List Move) : ((start name).after ms).buildingGrammar.Holds (commits ms) := by
    rw [(reflects_after name ms).grammar]
    exact Grammar.holds_ofProductions name (commits ms)
  refine ⟨hholds ms, fun n sym => ?_, fun ps =>
    ⟨Grammar.holds_ofProductions name ps, fun n sym => ?_⟩⟩
  · have hall : ((start name).after ms).buildingGrammar.Holds
        (commits (ms.take n) ++ commitsAfter (ms.take n) (ms.drop n)) := by
      rw [← commits_append, List.take_append_drop]
      exact hholds ms
    exact (hholds (ms.take n)).start?_append hall
  · have hall : (Grammar.ofProductions name ps).Holds (ps.take n ++ ps.drop n) := by
      rw [List.take_append_drop]
      exact Grammar.holds_ofProductions name ps
    exact (Grammar.holds_ofProductions name (ps.take n)).start?_append hall

/-- Two drafts in progress at the same time. One is continued after it has been committed
    and the other one is committed without its symbol; in the end, what was a terminal is
    given a production. -/
def interleaved : List Move :=
  [.begin "r" "S", .begin "q" "A", .extend "r" ["a"], .extend "q" ["b"], .commit "r",
    .extend "r" ["A"], .commitEmpty "q", .commit "r", .begin "q" "a", .commit "q"]

/-- The start symbol is there half-way and stays, and all that has been committed is held. -/
theorem grammar_holds_commits_interleaved :
    commits interleaved = ([("S", ["a"]), ("A", []), ("S", ["a", "A"]), ("a", [])] :
        List (Symbol × List Symbol)) ∧
      ((start "G").after (interleaved.take 5)).buildingGrammar.start? = some "S" ∧
      ((start "G").after interleaved).buildingGrammar.start? = some "S" ∧
      ((start "G").after interleaved).buildingGrammar.Holds
        [("S", ["a"]), ("A", []), ("S", ["a", "A"]), ("a", [])] := by
  have hcommits : commits interleaved = ([("S", ["a"]), ("A", []), ("S", ["a", "A"]), ("a", [])] :
      List (Symbol × List Symbol)) := by decide
  have hstart : ((start "G").after (interleaved.take 5)).buildingGrammar.start? = some "S" := by
    decide
  rcases grammar_holds_commits "G" interleaved with ⟨hholds, hkept, _⟩
  rw [hcommits] at hholds
  exact ⟨hcommits, hstart, hkept 5 "S" hstart, hholds⟩

end Workbench

end Derivations
