import Derivations.CommandLine.Run
import Derivations.Proofs.Chart.Parse
import Mathlib.Data.List.DropRight
import Mathlib.Data.Option.Basic

/-!
# Histories of Sessions

A session is changed by the lines that are carried out, and three kinds of them
matter: those which load a grammar, those which choose a limit, and those which
parse a word. What they do is the history of the session. It says all there is to
know about a session: the grammar is the one loaded last, the parser is one for that
grammar with the limit chosen last, whichever came first, and its chart is that of
the last word parsed since the parser was made.

Loading a grammar and choosing a limit change the session before a new parser is
made. Making it could fail for a grammar without productions only, and such grammars
are never loaded. Parsing a word does not fail at all. So a line is either carried
out completely or not at all, and what files hold may change from line to line.

The proof follows the lines. What a line may do is said once, by `Step`, and all
that is true of every session is shown for one step.

## Main definitions

* `Request`: A line and what files hold.
* `Event`, `History`: What has been done in a session.
* `Session.after`, `Session.history`: Where requests lead to, and what they do.
* `Session.Reflects`: A session is what its history says.
* `Session.Step`: What a line may do.
* `Session.Refused`: Why a line is not carried out.
* `Invocation.sessionAfter`, `Invocation.history`: The same from the beginning of a
  session on.

## Theorems

* `Session.step_eval`: A line does one of the things it may do.
* `Session.session_of_error`: A line that is not carried out changes nothing.
* `Session.reflects_after`: A session stays what its history says.
* `Invocation.session_reflects_history`: Sessions are what their histories say, from
  their beginning on.
-/

namespace Derivations

/-- A line, and what files hold when it is carried out. -/
structure Request where
  read : Text → Except FileFault Text
  line : Text

/-- The environment in which a request is carried out. -/
def Environment.during (env : Environment) (r : Request) : Environment :=
  { env with read := r.read }

/-- What a line may do to the grammar and the parser of a session. -/
inductive Event where
  | loaded (g : Grammar)
  | limited (n : Nat)
  | parsed (input : List Symbol)

namespace Event

@[simp]
def grammar? : Event → Option Grammar
  | loaded g => some g
  | _ => none

@[simp]
def limit? : Event → Option Nat
  | limited n => some n
  | _ => none

@[simp]
def input? : Event → Option (List Symbol)
  | parsed input => some input
  | _ => none

/-- Whether the parser in use before the event is given up. -/
@[simp]
def renews : Event → Bool
  | parsed _ => false
  | _ => true

end Event

/-- What a command does when it is carried out. Most commands only show something. -/
def Command.event? (env : Environment) : Command → Option Event
  | .load path => (env.grammar path).toOption.map .loaded
  | .limit n => some (.limited n)
  | .word line => some (.parsed (symbols line))
  | .quit | .properties | .states => none

/-- What has been done in a session, from first to last. -/
abbrev History := List Event

namespace History

/-- The grammars that have been loaded. -/
def grammars (h : History) : List Grammar :=
  h.filterMap Event.grammar?

/-- The grammar loaded last. -/
def grammar? (h : History) : Option Grammar :=
  h.grammars.getLast?

/-- The limit chosen last. -/
def limit? (h : History) : Option Nat :=
  (h.filterMap Event.limit?).getLast?

/-- The last word parsed since a grammar was loaded or a limit chosen. -/
def input? (h : History) : Option (List Symbol) :=
  ((h.rtakeWhile (!·.renews)).filterMap Event.input?).getLast?

theorem grammars_concat (h : History) (e : Event) :
    grammars (h ++ [e]) = h.grammars ++ e.grammar?.toList := by
  cases e <;> simp [grammars, Event.grammar?]

@[simp]
theorem grammar?_concat (h : History) (e : Event) :
    grammar? (h ++ [e]) = e.grammar?.or h.grammar? := by
  cases e <;> simp [grammar?, grammars, Event.grammar?]

@[simp]
theorem limit?_concat (h : History) (e : Event) :
    limit? (h ++ [e]) = e.limit?.or h.limit? := by
  cases e <;> simp [limit?, Event.limit?]

@[simp]
theorem input?_concat (h : History) (e : Event) :
    input? (h ++ [e]) = if e.renews then none else e.input?.or h.input? := by
  cases e <;> simp [input?, Event.input?, Event.renews]

end History

/-- The limit of parsers for which none is chosen. -/
def Parser.presetLimit (settings : Settings) : Nat :=
  overrideLimit defaultLimit (settings.int limitSetting)

-- Parsers are refused to grammars without productions only, and these are not loaded.

theorem Grammar.isSome_start?_of_load_eq {name text : Text} {g : Grammar}
    (hg : Grammar.load name text = .ok g) : g.start?.isSome := by
  simp only [Grammar.load] at hg
  split at hg
  · cases hg
  · split at hg
    · cases hg
    · rename_i hsome
      cases hg
      exact Option.isSome_iff_ne_none.2 (by simpa using hsome)

theorem Environment.isSome_start?_of_grammar_eq {env : Environment} {path : Text} {g : Grammar}
    (hg : env.grammar path = .ok g) : g.start?.isSome := by
  simp only [Environment.grammar] at hg
  split at hg
  · cases hg
  · split at hg
    · rename_i g' hload
      cases hg
      unfold Grammar.loadFile at hload
      split at hload
      · exact Grammar.isSome_start?_of_load_eq hload
      · split at hload <;> cases hload
    · cases hg

theorem Parser.exists_of?_eq {g : Grammar} (hg : g.start?.isSome) (settings : Settings)
    (choices : List Int) : ∃ p, of? g settings choices = some p := by
  rcases Option.isSome_iff_exists.1 hg with ⟨start, hstart⟩
  unfold of?
  rw [hstart]
  exact ⟨_, rfl⟩

/-- A parser made anew has the limit chosen last. -/
theorem Parser.limit_of_of?_eq {settings : Settings} {g : Grammar} {p : Parser}
    {chosen? : Option Nat} (hpos : ∀ n, chosen? = some n → 0 < n)
    (hp : of? g settings [((chosen?.getD 0 : Nat) : Int)] = some p) :
    p.limit = chosen?.getD (presetLimit settings) := by
  unfold of? at hp
  rcases Option.map_eq_some_iff.1 hp with ⟨start, _, rfl⟩
  cases chosen? with
  | none => rfl
  | some n =>
    have hn : (0 : Int) < n := by
      have := hpos n rfl
      omega
    simp only [List.foldl_cons, List.foldl_nil, Option.getD_some, overrideLimit, if_pos hn,
      Int.toNat_natCast]

/-- A parser and its chart are what a history says, given the grammar loaded last. -/
structure Engine.Reflects (settings : Settings) (h : History) (e : Engine) (g : Grammar) :
    Prop where
  grammar : e.parser.IsFor g
  limit : e.parser.limit = h.limit?.getD (Parser.presetLimit settings)
  -- The chart is empty, or that of the last word the parser has been given.
  untouched : h.input? = none → e.chart = []
  parsed : ∀ input, h.input? = some input →
    ∃ o, e.parser.parse input = .ok o ∧ e.chart = o.chart

/-- A parser made because of the last event has not parsed anything. -/
theorem Engine.Reflects.fresh {settings : Settings} {h : History} {event : Event} {p : Parser}
    {g : Grammar} (hrenews : event.renews = true) (hfor : p.IsFor g)
    (hlimit : p.limit = (History.limit? (h ++ [event])).getD (Parser.presetLimit settings)) :
    Engine.Reflects settings (h ++ [event]) ⟨p, []⟩ g := by
  refine ⟨hfor, hlimit, fun _ => rfl, fun input hinput => ?_⟩
  rw [History.input?_concat, if_pos hrenews] at hinput
  cases hinput

namespace Session

/-- A session is what a history says. It has a parser if and only if it has a
    grammar. -/
structure Reflects (settings : Settings) (h : History) (s : Session) : Prop where
  grammar : s.grammar? = h.grammar?
  -- Both are missing, or both are there and the parser is for the grammar.
  engine : Option.Rel (Engine.Reflects settings h) s.engine? s.grammar?
  limit : s.limit = h.limit?.getD 0
  chosen : ∀ n, h.limit? = some n → 0 < n

/-- What a line does, if it is carried out. -/
def event? (env : Environment) (s : Session) (line : Text) : Option Event :=
  match Command.read line, (s.eval env line).result with
  | .ok command, .ok _ => command.event? env
  | _, _ => none

/-- The session after requests. -/
def after (env : Environment) : Session → List Request → Session
  | s, [] => s
  | s, r :: rest => after env (s.eval (env.during r) r.line).session rest

/-- What requests do, from first to last. -/
def history (env : Environment) : Session → List Request → History
  | _, [] => []
  | s, r :: rest =>
    (s.event? (env.during r) r.line).toList ++
      history env (s.eval (env.during r) r.line).session rest

/-- What a line may do: the event, if there is one, and the session afterwards. -/
inductive Step (settings : Settings) (s : Session) : Option Event → Session → Prop where
  | idles : Step settings s none s
  | shows {g : Grammar} (hg : s.grammar? = some g) : Step settings s none (s.remember g)
  | loads {g : Grammar} {p : Parser} (hp : Parser.of? g settings [s.limit] = some p) :
      Step settings s (some (.loaded g))
        ({ s with grammar? := some g, engine? := some ⟨p, []⟩ }.remember g)
  | prepares {n : Nat} (hn : 0 < n) (hg : s.grammar? = none) :
      Step settings s (some (.limited n)) { s with limit := n }
  | renews {n : Nat} {g : Grammar} {p : Parser} (hn : 0 < n) (hg : s.grammar? = some g)
      (hp : Parser.of? g settings [n] = some p) :
      Step settings s (some (.limited n)) { s with limit := n, engine? := some ⟨p, []⟩ }
  | parses {input : List Symbol} {e : Engine} {o : Outcome} (he : s.engine? = some e)
      (ho : e.parser.parse input = .ok o) :
      Step settings s (some (.parsed input)) { s with engine? := some ⟨e.parser, o.chart⟩ }

section Commands

variable {env : Environment} {settings : Settings} {h : History} {s : Session} {g : Grammar}

theorem remember_analyses (s : Session) (g : Grammar) :
    ∃ analyses, s.remember g = { s with analyses := analyses } := by
  unfold remember
  split <;> exact ⟨_, rfl⟩

theorem renew_of_none (hg : s.grammar? = none) : s.renew env = ⟨s, [], [], .ok false⟩ := by
  simp only [renew, hg]

theorem renew_of_some {p : Parser} (hg : s.grammar? = some g)
    (hp : Parser.of? g env.settings [(s.limit : Int)] = some p) :
    s.renew env = ⟨{ s with engine? := some ⟨p, []⟩ }, [], p.log, .ok false⟩ := by
  simp only [renew, hg, hp]

-- Where there is a grammar there is a parser for it, and the other way round.

theorem Reflects.exists_engine (hs : s.Reflects settings h) (hg : s.grammar? = some g) :
    ∃ e, s.engine? = some e ∧ e.Reflects settings h g := by
  have hrel := hs.engine
  rw [hg] at hrel
  generalize s.engine? = engine? at hrel
  cases hrel with
  | some hr => exact ⟨_, rfl, hr⟩

theorem Reflects.exists_grammar {e : Engine} (hs : s.Reflects settings h)
    (he : s.engine? = some e) : ∃ g, s.grammar? = some g ∧ e.Reflects settings h g := by
  have hrel := hs.engine
  rw [he] at hrel
  generalize s.grammar? = grammar? at hrel
  cases hrel with
  | some hr => exact ⟨_, rfl, hr⟩

theorem Reflects.grammar?_eq_none (hs : s.Reflects settings h) (he : s.engine? = none) :
    s.grammar? = none := by
  rcases Option.eq_none_or_eq_some s.grammar? with hg | ⟨g, hg⟩
  · exact hg
  · rcases hs.exists_engine hg with ⟨e, he', _⟩
    rw [he] at he'
    cases he'

/-- Loading a grammar that can be read succeeds, as there is a parser for it. -/
theorem load_of_grammar_eq (s : Session) {path : Text} (hg : env.grammar path = .ok g) :
    ∃ p, Parser.of? g env.settings [(s.limit : Int)] = some p ∧
      (s.load env path).result = .ok false ∧
      (s.load env path).session =
        { s with grammar? := some g, engine? := some ⟨p, []⟩ }.remember g := by
  have hstart := Environment.isSome_start?_of_grammar_eq hg
  rcases Parser.exists_of?_eq hstart env.settings [(s.limit : Int)] with ⟨p, hp⟩
  have hr := renew_of_some (s := { s with grammar? := some g }) rfl hp
  refine ⟨p, hp, ?_, ?_⟩ <;> simp only [load, hg, hr]

theorem load_of_grammar_error (s : Session) {path : Text} {fault : CommandFault}
    (hg : env.grammar path = .error fault) :
    s.load env path = s.refuse (env.grammarLog path) fault := by
  simp only [load, hg]

/-- Setting a limit succeeds. If there is a grammar there is a parser for it. -/
theorem setLimit_spec (hs : s.Reflects env.settings h) {n : Nat} (hn : 0 < n) :
    (s.setLimit env n).result = .ok false ∧
      Step env.settings s (some (.limited n)) (s.setLimit env n).session := by
  unfold setLimit
  rcases Option.eq_none_or_eq_some s.grammar? with hg | ⟨g, hg⟩
  · rw [renew_of_none (s := { s with limit := n }) hg]
    exact ⟨rfl, .prepares hn hg⟩
  · rcases hs.exists_engine hg with ⟨e, _, hr⟩
    have hstart : g.start?.isSome := by
      rw [hr.grammar.2]
      rfl
    rcases Parser.exists_of?_eq hstart env.settings [(n : Int)] with ⟨p, hp⟩
    rw [renew_of_some (s := { s with limit := n }) hg hp]
    exact ⟨rfl, .renews hn hg hp⟩

/-- Parsing a word succeeds if there is a parser, and fails only for want of one. -/
theorem parse_of_engine? {e : Engine} (hs : s.Reflects env.settings h) (he : s.engine? = some e)
    (line : Text) :
    ∃ o, e.parser.parse (symbols line) = .ok o ∧ (s.parse env line).result = .ok false ∧
      (s.parse env line).session = { s with engine? := some ⟨e.parser, o.chart⟩ } := by
  rcases hs.exists_grammar he with ⟨g, _, hr⟩
  rcases Parser.parse_spec hr.grammar (symbols line) with ⟨o, _, ho, _⟩
  refine ⟨o, ho, ?_, ?_⟩ <;> simp only [parse, he, ho]

theorem pos_of_read_eq {line : Text} {n : Nat} (hc : Command.read line = .ok (.limit n)) :
    0 < n := by
  unfold Command.read Command.ofFields at hc
  repeat' split at hc
  all_goals simp only [reduceCtorEq, Except.ok.injEq, Command.limit.injEq] at hc
  omega

end Commands

section Lines

variable {env : Environment} {settings : Settings} {h : History} {s : Session}

/-- Why a line is not carried out: it cannot be read, its grammar cannot be loaded, or
    it needs a grammar and there is none. -/
inductive Refused (env : Environment) (s : Session) (line : Text) : CommandFault → Prop where
  | unread {fault : CommandFault} (hc : Command.read line = .error fault) :
      Refused env s line fault
  | unloaded {path : Text} {fault : CommandFault} (hc : Command.read line = .ok (.load path))
      (hg : env.grammar path = .error fault) : Refused env s line fault
  | noGrammar (hg : s.grammar? = none) : Refused env s line .noGrammar

/-- A line that asks for something is carried out, or it is refused. -/
theorem perform_spec (hs : s.Reflects env.settings h) {line : Text} {command : Command}
    (hc : Command.read line = .ok command) :
    (∃ quit, (s.perform env command).result = .ok quit ∧
      Step env.settings s (command.event? env) (s.perform env command).session) ∨
    ∃ log fault, s.perform env command = s.refuse log fault ∧ Refused env s line fault := by
  cases command with
  | quit => exact .inl ⟨true, rfl, .idles⟩
  | load path =>
    cases hg : env.grammar path with
    | error fault => exact .inr ⟨_, fault, load_of_grammar_error s hg, .unloaded hc hg⟩
    | ok g =>
      rcases load_of_grammar_eq s hg with ⟨p, hp, hok, hsession⟩
      refine .inl ⟨false, hok, ?_⟩
      simp only [perform, Command.event?, hsession, hg]
      exact .loads hp
  | properties =>
    rcases Option.eq_none_or_eq_some s.grammar? with hg | ⟨g, hg⟩
    · exact .inr ⟨[], .noGrammar, by simp only [perform, properties, hg], .noGrammar hg⟩
    · refine .inl ⟨false, ?_, ?_⟩ <;> simp only [perform, properties, hg]
      exact .shows hg
  | limit n =>
    rcases setLimit_spec hs (pos_of_read_eq hc) with ⟨hok, hstep⟩
    exact .inl ⟨false, hok, hstep⟩
  | states =>
    rcases Option.eq_none_or_eq_some s.engine? with he | ⟨e, he⟩
    · exact .inr ⟨[], .noGrammar, by simp only [perform, states, he],
        .noGrammar (hs.grammar?_eq_none he)⟩
    · refine .inl ⟨false, ?_, ?_⟩ <;> simp only [perform, states, he]
      exact .idles
  | word word =>
    rcases Option.eq_none_or_eq_some s.engine? with he | ⟨e, he⟩
    · exact .inr ⟨[], .noGrammar, by simp only [perform, parse, he],
        .noGrammar (hs.grammar?_eq_none he)⟩
    · rcases parse_of_engine? hs he word with ⟨o, ho, hok, hsession⟩
      refine .inl ⟨false, hok, ?_⟩
      simp only [perform, Command.event?, hsession]
      exact .parses he ho

/-- A line is carried out, or it is refused and changes nothing. -/
theorem eval_spec (hs : s.Reflects env.settings h) (line : Text) :
    (∃ quit, (s.eval env line).result = .ok quit ∧
      Step env.settings s (s.event? env line) (s.eval env line).session) ∨
    ∃ fault, (s.eval env line).result = .error fault ∧ (s.eval env line).session = s ∧
      s.event? env line = none ∧ Refused env s line fault := by
  unfold event? eval
  cases hc : Command.read line with
  | error fault => exact .inr ⟨fault, rfl, rfl, rfl, .unread hc⟩
  | ok command =>
    rcases perform_spec hs hc with ⟨quit, hok, hstep⟩ | ⟨log, fault, heq, hrefused⟩
    · refine .inl ⟨quit, hok, ?_⟩
      simp only [hok]
      exact hstep
    · simp only [heq]
      exact .inr ⟨fault, rfl, rfl, rfl, hrefused⟩

/-- A line does one of the things it may do. -/
theorem step_eval (hs : s.Reflects env.settings h) (line : Text) :
    Step env.settings s (s.event? env line) (s.eval env line).session := by
  rcases eval_spec hs line with ⟨_, _, hstep⟩ | ⟨_, _, hsession, hevent, _⟩
  · exact hstep
  · rw [hsession, hevent]
    exact .idles

/-- What a line does is added to the history, and the session stays what it says. -/
theorem Reflects.step {t : Session} {e? : Option Event}
    (hs : s.Reflects settings h) (hstep : Step settings s e? t) :
    t.Reflects settings (h ++ e?.toList) := by
  cases hstep with
  | idles => simpa using hs
  | @shows g hg =>
    rcases remember_analyses s g with ⟨analyses, heq⟩
    rw [heq, Option.toList_none, List.append_nil]
    exact ⟨hs.grammar, hs.engine, hs.limit, hs.chosen⟩
  | @loads g p hp =>
    rcases remember_analyses { s with grammar? := some g, engine? := some ⟨p, []⟩ } g with
      ⟨analyses, heq⟩
    rw [heq]
    rw [hs.limit] at hp
    refine ⟨by simp, .some (.fresh rfl (Parser.isFor_of_of?_eq hp) ?_), ?_, ?_⟩
    · simpa using Parser.limit_of_of?_eq hs.chosen hp
    · simpa using hs.limit
    · simpa using hs.chosen
  | @prepares n hn hg =>
    have hengine := hs.engine
    rw [hg] at hengine
    refine ⟨by simpa using hs.grammar, ?_, by simp, ?_⟩
    · cases he : s.engine? with
      | none => rw [hg]; exact .none
      | some e =>
        rw [he] at hengine
        cases hengine
    · simp only [Option.toList_some, History.limit?_concat, Event.limit?, Option.some_or,
        Option.some.injEq, forall_eq']
      exact hn
  | @renews n g p hn hg hp =>
    have hchosen : ∀ m, History.limit? (h ++ [.limited n]) = some m → 0 < m := by
      simpa using hn
    refine ⟨by simpa using hs.grammar, ?_, by simp, hchosen⟩
    have hfor := Parser.isFor_of_of?_eq hp
    rw [hg]
    refine .some (.fresh rfl hfor (Parser.limit_of_of?_eq hchosen (g := g) ?_))
    simpa using hp
  | @parses input e o he ho =>
    rcases hs.exists_grammar he with ⟨g, hg, hr⟩
    refine ⟨by simpa using hs.grammar, ?_, by simpa using hs.limit, by simpa using hs.chosen⟩
    rw [hg]
    refine .some ⟨hr.grammar, by simpa using hr.limit, by simp, fun word hw => ?_⟩
    rw [show word = input by simpa using hw.symm]
    exact ⟨o, ho, rfl⟩

/-- A session stays what its history says, whatever is asked for. -/
theorem reflects_after (requests : List Request) :
    ∀ {h : History} {s : Session}, s.Reflects env.settings h →
      (s.after env requests).Reflects env.settings (h ++ s.history env requests) := by
  -- Every request adds what it does at the end of the history.
  induction requests with
  | nil =>
    intro h s hs
    simpa [after, history] using hs
  | cons r rest ih =>
    intro h s hs
    have hstep := @step_eval (env.during r) h s hs r.line
    simpa [after, history, List.append_assoc] using ih (hs.step hstep)

theorem reflects_start (settings : Settings) : start.Reflects settings [] :=
  ⟨rfl, .none, rfl, fun _ hn => nomatch hn⟩

end Lines

end Session

namespace Invocation

variable {env : Environment} {o : Options}

/-- A session after requests, given how it was begun. -/
def sessionAfter (env : Environment) (o : Options) (requests : List Request) : Session :=
  (sessionStart env o).session.after env requests

/-- What has been done in a session. It begins with the grammar that is loaded before
    the first line, if there is one. -/
def history (env : Environment) (o : Options) (requests : List Request) : History :=
  ((env.grammar o.grammar).toOption.map Event.loaded).toList ++
    (sessionStart env o).session.history env requests

/-- A session begins with the session that remembers nothing, or one step from it. -/
theorem step_sessionStart {more : Bool} (hstart : (sessionStart env o).result = .ok more) :
    Session.Step env.settings Session.start ((env.grammar o.grammar).toOption.map Event.loaded)
      (sessionStart env o).session := by
  unfold sessionStart at hstart ⊢
  by_cases hempty : o.grammar.isEmpty
  · simp only [hempty, if_true, Environment.grammar]
    exact .idles
  · simp only [hempty, Bool.false_eq_true, if_false] at hstart ⊢
    cases hg : env.grammar o.grammar with
    | error fault =>
      rw [Session.load_of_grammar_error _ hg] at hstart
      cases hstart
    | ok g =>
      rcases Session.load_of_grammar_eq Session.start hg with ⟨p, hp, _, hsession⟩
      rw [hsession]
      exact .loads hp

theorem reflects_sessionAfter {more : Bool} (hstart : (sessionStart env o).result = .ok more)
    (requests : List Request) :
    (sessionAfter env o requests).Reflects env.settings (history env o requests) :=
  Session.reflects_after requests
    ((Session.reflects_start env.settings).step (step_sessionStart hstart))

/-- Files that all hold the same grammar. -/
def uniform : Environment :=
  ⟨[], .plain, fun _ => .ok "S aS|a\n"⟩

/-- Requests to choose a limit and to parse a word. -/
def chosen : List Request :=
  [⟨uniform.read, ":limit 7"⟩, ⟨uniform.read, "aa"⟩]

end Invocation

end Derivations
