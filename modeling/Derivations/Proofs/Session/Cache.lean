import Derivations.Proofs.Session.History

/-!
# Remembered Analyses

A session analyses a grammar once for each fingerprint, and from then on shows the
analysis it remembers. An analysis comes with the grammar it was made for. So what a
session shows about its grammar is what is shown outside of sessions about the first
grammar loaded that has the same fingerprint.

Whether this can be seen depends on what fingerprints leave out. They leave out names:
a grammar with the rules of an earlier one is shown under the name of the earlier one.
They also leave out whether a quotation mark belongs to a symbol, so even rules can
differ. If no grammar loaded before has the fingerprint without being the same, a
session shows what is shown outside of it.

## Main definitions

* `History.first?`: The first grammar loaded that has a fingerprint.
* `Session.Remembers`: The analyses of a session are those of such grammars.

## Theorems

* `Session.lookup_remember`: What is remembered after one more analysis.
* `Session.remembers_after`: Sessions remember the analyses of first grammars.
* `Invocation.properties_shown`: What a session shows about its grammar.
-/

namespace Derivations

namespace History

/-- The first grammar loaded that has a given fingerprint. -/
def first? (h : History) (fingerprint : Text) : Option Grammar :=
  h.grammars.find? (·.fingerprint = fingerprint)

theorem first?_loaded (h : History) (g : Grammar) (fingerprint : Text) :
    first? (h ++ [.loaded g]) fingerprint =
      (h.first? fingerprint).or (if g.fingerprint = fingerprint then some g else none) := by
  rw [first?, grammars_concat, List.find?_append]
  by_cases hfp : g.fingerprint = fingerprint <;> simp [first?, hfp]

theorem exists_first? {h : History} {g : Grammar} (hg : g ∈ h.grammars) :
    ∃ first, h.first? g.fingerprint = some first := by
  rw [← Option.isSome_iff_exists, first?, List.find?_isSome]
  exact ⟨g, hg, by simp⟩

theorem mem_grammars_of_first? {h : History} {fingerprint : Text} {first : Grammar}
    (hfirst : h.first? fingerprint = some first) :
    first ∈ h.grammars ∧ first.fingerprint = fingerprint := by
  refine ⟨List.mem_of_find?_eq_some hfirst, ?_⟩
  simpa using List.find?_some hfirst

end History

namespace Session

/-- A session remembers, for each fingerprint, the analysis of the first grammar loaded
    that has it. All grammars loaded can be analysed. -/
structure Remembers (h : History) (s : Session) : Prop where
  analyses : ∀ fingerprint,
    s.analyses.lookup fingerprint = (h.first? fingerprint).bind Analysis.of?
  analysable : ∀ g ∈ h.grammars, ∃ a, Analysis.of? g = some a

/-- Remembering an analysis does not replace the one there is for the fingerprint. -/
theorem lookup_remember (s : Session) (g : Grammar) (fingerprint : Text) :
    (s.remember g).analyses.lookup fingerprint =
      (s.analyses.lookup fingerprint).or
        (if g.fingerprint = fingerprint then Analysis.of? g else none) := by
  unfold remember
  by_cases hfp : g.fingerprint = fingerprint
  · subst hfp
    cases hl : s.analyses.lookup g.fingerprint with
    | some a => simp [hl]
    | none => cases ha : Analysis.of? g <;> simp [hl, List.lookup_append]
  · rw [if_neg hfp, Option.or_none]
    split
    · have hne : (fingerprint == g.fingerprint) = false := by simpa using Ne.symm hfp
      rw [List.lookup_append, List.lookup_cons, hne, List.lookup_nil, Option.or_none]
    · rfl

variable {settings : Settings} {h : History} {s t : Session} {e? : Option Event}

/-- The analysis of a grammar that has been loaded is remembered. -/
theorem Remembers.exists_analysis (hr : s.Remembers h) {g : Grammar} (hg : g ∈ h.grammars) :
    ∃ first a, h.first? g.fingerprint = some first ∧ Analysis.of? first = some a ∧
      s.analyses.lookup g.fingerprint = some a := by
  rcases History.exists_first? hg with ⟨first, hfirst⟩
  rcases hr.analysable first (History.mem_grammars_of_first? hfirst).1 with ⟨a, ha⟩
  refine ⟨first, a, hfirst, ha, ?_⟩
  rw [hr.analyses, hfirst]
  exact ha

theorem Remembers.remember_eq (hr : s.Remembers h) {g : Grammar} (hg : g ∈ h.grammars) :
    s.remember g = s := by
  rcases hr.exists_analysis hg with ⟨_, a, _, _, hl⟩
  simp only [remember, hl]

/-- A grammar that is loaded has its analysis remembered. -/
theorem Remembers.load (hr : s.Remembers h) {g : Grammar} {a : Analysis}
    (ha : Analysis.of? g = some a) : (s.remember g).Remembers (h ++ [.loaded g]) := by
  refine ⟨fun fingerprint => ?_, fun other hother => ?_⟩
  · rw [lookup_remember, hr.analyses, History.first?_loaded]
    cases hfirst : h.first? fingerprint with
    | none => by_cases hfp : g.fingerprint = fingerprint <;> simp [hfp]
    | some first =>
      rcases hr.analysable first (History.mem_grammars_of_first? hfirst).1 with ⟨b, hb⟩
      simp [hb]
  · rw [History.grammars_concat, List.mem_append] at hother
    rcases hother with hother | hother
    · exact hr.analysable other hother
    · rw [List.mem_singleton.1 hother]
      exact ⟨a, ha⟩

theorem Remembers.step (hs : s.Reflects settings h) (hr : s.Remembers h)
    (hstep : Step settings s e? t) : t.Remembers (h ++ e?.toList) := by
  cases hstep with
  | idles => simpa using hr
  | @shows g hg =>
    have hmem : g ∈ h.grammars := List.mem_of_getLast? (hs.grammar.symm.trans hg)
    rw [hr.remember_eq hmem]
    simpa using hr
  | @loads g p hp =>
    have hstart := (Parser.isFor_of_of?_eq hp).2
    have ha : ∃ a, Analysis.of? g = some a := by
      unfold Analysis.of?
      rw [hstart]
      exact ⟨_, rfl⟩
    rcases ha with ⟨a, ha⟩
    exact Remembers.load (s := { s with grammar? := some g, engine? := some ⟨p, []⟩ })
      ⟨hr.analyses, hr.analysable⟩ ha
  | prepares | renews | parses =>
    -- No grammar is loaded, and the analyses are left alone.
    refine ⟨fun fingerprint => ?_, fun g hg => hr.analysable g ?_⟩
    · simpa [History.first?, History.grammars_concat] using hr.analyses fingerprint
    · simpa [History.grammars_concat] using hg

/-- Whatever is asked for, sessions remember the analyses of first grammars. -/
theorem remembers_after {env : Environment} (requests : List Request) :
    ∀ {h : History} {s : Session}, s.Reflects env.settings h → s.Remembers h →
      (s.after env requests).Remembers (h ++ s.history env requests) := by
  induction requests with
  | nil =>
    intro h s _ hr
    simpa [after, history] using hr
  | cons r rest ih =>
    intro h s hs hr
    have hstep := @step_eval (env.during r) h s hs r.line
    simpa [after, history, List.append_assoc] using ih (hs.step hstep) (hr.step hs hstep)

theorem remembers_start : start.Remembers [] :=
  ⟨fun _ => rfl, fun _ hg => nomatch hg⟩

end Session

/-- The analysis of a grammar does not depend on its name. -/
theorem Analysis.of?_of_rules_eq {g other : Grammar} {a : Analysis}
    (hrules : other.rules = g.rules) (ha : of? other = some a) :
    of? g = some { a with grammar := g } := by
  rcases g with ⟨name, rules, distinct⟩
  rcases other with ⟨_, _, _⟩
  cases hrules
  rcases Option.map_eq_some_iff.1 ha with ⟨start, hstart, rfl⟩
  exact Option.map_eq_some_iff.2 ⟨start, hstart, rfl⟩

namespace Invocation

variable {env : Environment} {o : Options}

theorem runProperties_of_grammar_eq {g : Grammar} {a : Analysis}
    (hg : env.grammar o.grammar = .ok g) (ha : Analysis.of? g = some a) :
    (runProperties env o).shown = a.console env.display ∧ (runProperties env o).fault? = none := by
  simp only [runProperties, hg, ha, and_self]

theorem remembers_sessionAfter {more : Bool} (hstart : (sessionStart env o).result = .ok more)
    (requests : List Request) :
    (sessionAfter env o requests).Remembers (history env o requests) := by
  have hstep := step_sessionStart hstart
  have hs := Session.reflects_start env.settings
  exact Session.remembers_after requests (hs.step hstep) (Session.remembers_start.step hs hstep)

/-- What a session shows about its grammar is what is shown outside of sessions about the
    first grammar loaded that has the same fingerprint. That is the session's own grammar,
    unless a different one with this fingerprint has been loaded before; and if these have
    the same rules, the analyses differ in nothing but the name of the grammar. -/
theorem properties_shown {more : Bool} (hstart : (sessionStart env o).result = .ok more)
    (requests : List Request) {g : Grammar}
    (hg : (sessionAfter env o requests).grammar? = some g) :
    ∃ first a, (history env o requests).first? g.fingerprint = some first ∧
      Analysis.of? first = some a ∧
      (∀ r, Command.read r.line = .ok .properties →
        ((sessionAfter env o requests).eval (env.during r) r.line).result = .ok false ∧
        ((sessionAfter env o requests).eval (env.during r) r.line).session =
          sessionAfter env o requests ∧
        ((sessionAfter env o requests).eval (env.during r) r.line).shown =
          a.console env.display) ∧
      (∀ env' o', env'.grammar o'.grammar = .ok first →
        (runProperties env' o').shown = a.console env'.display ∧
        (runProperties env' o').fault? = none) ∧
      ((∀ other ∈ (history env o requests).grammars,
          other.fingerprint = g.fingerprint → other = g) → first = g) ∧
      ((∀ other ∈ (history env o requests).grammars,
          other.fingerprint = g.fingerprint → other.rules = g.rules) →
        Analysis.of? g = some { a with grammar := g }) := by
  have hs := reflects_sessionAfter hstart requests
  have hr := remembers_sessionAfter hstart requests
  have hmem : g ∈ (history env o requests).grammars :=
    List.mem_of_getLast? (hs.grammar.symm.trans hg)
  rcases hr.exists_analysis hmem with ⟨first, a, hfirst, ha, hl⟩
  have hmemfirst := History.mem_grammars_of_first? hfirst
  refine ⟨first, a, hfirst, ha, fun r hread => ?_, fun env' o' hg' => ?_, fun hsame => ?_,
    fun hsame => ?_⟩
  · have hremember := hr.remember_eq hmem
    simp only [Session.eval, hread, Session.perform, Session.properties, hg, Session.analysis?, hl]
    exact ⟨trivial, hremember, rfl⟩
  · exact runProperties_of_grammar_eq hg' ha
  · exact hsame first hmemfirst.1 hmemfirst.2
  · exact Analysis.of?_of_rules_eq (hsame first hmemfirst.1 hmemfirst.2) ha

/-- The grammar in the files that are all the same, under a name. -/
def uniformGrammar (name : Text) : Grammar :=
  .ofProductions name [("S", ["a", "S"]), ("S", ["a"])]

/-- Requests to load the same productions under two names. -/
def twice : List Request :=
  [⟨uniform.read, ":load a.txt"⟩, ⟨uniform.read, ":load b.txt"⟩]

theorem properties_shown_twice :
    (sessionAfter uniform {} twice).grammar? = some (uniformGrammar "b") ∧
      ((sessionAfter uniform {} twice).eval uniform ":props").shown =
        (runProperties uniform { grammar := "a.txt" }).shown := by
  have hgrammar : (sessionAfter uniform {} twice).grammar? = some (uniformGrammar "b") := by
    decide +kernel
  have hfirst : (history uniform {} twice).first? (uniformGrammar "b").fingerprint =
      some (uniformGrammar "a") := by
    decide +kernel
  have hread : uniform.grammar "a.txt" = .ok (uniformGrammar "a") := by
    with_unfolding_all rfl
  have hstart : (sessionStart uniform {}).result = .ok false := rfl
  rcases properties_shown hstart twice hgrammar with
    ⟨first, a, hfirst', _, hshown, hprops, _, _⟩
  rw [hfirst] at hfirst'
  rw [← Option.some.inj hfirst'] at hprops
  exact ⟨hgrammar, (hshown ⟨uniform.read, ":props"⟩ rfl).2.2.trans
    (hprops uniform { grammar := "a.txt" } hread).1.symm⟩

/-- A grammar with the rules of an earlier one is shown under the earlier name. -/
theorem earlier_name_shown :
    ((sessionAfter uniform {} twice).grammar?.map (·.name)) = some "b" ∧
      ((sessionAfter uniform {} twice).eval uniform ":props").shown ≠
        (runProperties uniform { grammar := "b.txt" }).shown := by
  decide +kernel

end Invocation

end Derivations
