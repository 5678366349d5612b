import Derivations.Session.Command
import Derivations.Console.Outline
import Derivations.Console.Table

/-!
# Sessions

A session is a conversation about grammars: a grammar is loaded, words are
parsed with it, its properties and the parser's charts are shown. What a
session remembers is the grammar loaded last, the parser for it with the chart
of the last word parsed, the limit chosen for parsers, and all analyses made so
far. Grammar and limit are changed first, and then a new parser is made from
what the session remembers.

Analyses are remembered by the fingerprint of their grammar. A grammar with the
same productions as an earlier one is not analysed again, and the analysis
shown for it is that of the earlier grammar, under the earlier name.

## Main definitions

* `Environment`: What a session depends on.
* `Session`: What a session remembers.
* `Reply`: What a line results in.
* `Session.renew`: Makes a parser from what is remembered.
* `Session.eval`: Carries out a line.
* `Session.run`: Carries out lines up to the one that ends the session.
-/

namespace Derivations

/-- What a session depends on: the settings of parsers, the display, and the
    contents of files. -/
structure Environment where
  settings : Settings
  display : Display
  read : Text → Except FileFault Text

/-- A parser and the chart of the last word it has parsed, empty if there was
    none. -/
structure Engine where
  parser : Parser
  chart : Chart

/-- What a session remembers. A limit of zero has not been chosen. -/
structure Session where
  grammar? : Option Grammar
  engine? : Option Engine
  limit : Nat
  analyses : List (Text × Analysis)

/-- What a line results in: the session afterwards, what is shown, the messages
    left behind, and whether the session is to end, or why the line is not
    carried out. -/
structure Reply where
  session : Session
  shown : Text
  log : Log
  result : Except CommandFault Bool

/-- A grammar read from a file, or why there is none. -/
def Environment.grammar (env : Environment) (path : Text) : Except CommandFault Grammar :=
  if path.isEmpty then .error .noGrammar
  else
    match Grammar.loadFile path (env.read path) with
    | .ok g => .ok g
    | .error fault => .error (.load fault)

/-- The messages left behind by reading a grammar from a file. -/
def Environment.grammarLog (env : Environment) (path : Text) : Log :=
  if path.isEmpty then []
  else
    Grammar.loadFileLog path (env.read path) ++
      match env.grammar path with
      | .ok g =>
        Log.info ("loaded grammar " ++ g.name ++ " with " ++ Text.decimal g.size ++ " productions")
      | .error _ => []

namespace Session

/-- The session that remembers nothing. -/
def start : Session :=
  ⟨none, none, 0, []⟩

/-- A reply that leaves the session as it is. -/
def refuse (s : Session) (log : Log) (fault : CommandFault) : Reply :=
  ⟨s, [], log, .error fault⟩

/-- The analysis of a grammar, from memory if there is one for its fingerprint. -/
def analysis? (s : Session) (g : Grammar) : Option Analysis :=
  match s.analyses.lookup g.fingerprint with
  | some a => some a
  | none => Analysis.of? g

/-- The session with the analysis of a grammar in memory. -/
def remember (s : Session) (g : Grammar) : Session :=
  match s.analyses.lookup g.fingerprint, Analysis.of? g with
  | none, some a => { s with analyses := s.analyses ++ [(g.fingerprint, a)] }
  | _, _ => s

/-- The message left behind by looking for the analysis of a grammar. -/
def analysisLog (s : Session) (g : Grammar) : Log :=
  match s.analyses.lookup g.fingerprint with
  | some _ => Log.debug ("using cached analysis for grammar " ++ g.fingerprint)
  | none => Analysis.log g

/-- Makes a new parser for the grammar, if there is one. -/
def renew (env : Environment) (s : Session) : Reply :=
  match s.grammar? with
  | none => ⟨s, [], [], .ok false⟩
  | some g =>
    match Parser.of? g env.settings [s.limit] with
    | none => s.refuse [] .noParser
    | some p => ⟨{ s with engine? := some ⟨p, []⟩ }, [], p.log, .ok false⟩

/-- What is shown about a grammar that has just been loaded. -/
def warning (env : Environment) (s : Session) (g : Grammar) : Text :=
  match s.analysis? g with
  | some a =>
    if a.hasProblems then env.display.info ("grammar " ++ g.name ++ " has problems, see :props")
    else []
  | none => []

/-- Loads a grammar from a file, makes a parser for it and analyses it. -/
def load (env : Environment) (s : Session) (path : Text) : Reply :=
  let log := env.grammarLog path
  match env.grammar path with
  | .error fault => s.refuse log fault
  | .ok g =>
    let r := { s with grammar? := some g }.renew env
    match r.result with
    | .error fault => r.session.refuse (log ++ r.log) fault
    | .ok _ =>
      { session := r.session.remember g
        shown := r.session.warning env g
        log := log ++ r.log ++ r.session.analysisLog g
        result := .ok false }

/-- Shows the properties of the grammar. -/
def properties (env : Environment) (s : Session) : Reply :=
  match s.grammar? with
  | none => s.refuse [] .noGrammar
  | some g =>
    let shown :=
      match s.analysis? g with
      | some a => a.console env.display
      | none => []
    ⟨s.remember g, shown, s.analysisLog g, .ok false⟩

/-- Sets the limit, and makes a new parser with it if there is a grammar. -/
def setLimit (env : Environment) (s : Session) (n : Nat) : Reply :=
  { s with limit := n }.renew env

/-- Shows the chart of the last parse. -/
def states (s : Session) : Reply :=
  match s.engine? with
  | none => s.refuse [] .noGrammar
  | some e => ⟨s, e.chart.text, [], .ok false⟩

/-- Parses a word and shows its trees. -/
def parse (env : Environment) (s : Session) (line : Text) : Reply :=
  match s.engine? with
  | none => s.refuse [] .noGrammar
  | some e =>
    let input := symbols line
    match e.parser.parse input with
    | .error fault => s.refuse [] (.parse fault)
    | .ok o =>
      let report : Report := ⟨s.grammar?, none, sentence input, o.found, o.full⟩
      let stages := consoleStages env.display o.found
      { session := { s with engine? := some ⟨e.parser, o.chart⟩ }
        shown := env.display.info report.heading ++ Stage.text stages
        log := o.log e.parser env.settings input ++ Stage.log stages
        result := .ok false }

/-- Carries out a command. -/
def perform (env : Environment) (s : Session) : Command → Reply
  | .quit => ⟨s, [], [], .ok true⟩
  | .load path => s.load env path
  | .properties => s.properties env
  | .limit n => s.setLimit env n
  | .states => s.states
  | .word line => s.parse env line

/-- Carries out a line. -/
def eval (env : Environment) (s : Session) (line : Text) : Reply :=
  match Command.read line with
  | .error fault => s.refuse [] fault
  | .ok command => s.perform env command

/-- Carries out a line as it is typed: white space around it means nothing, an
    empty line is passed over, and a fault is shown. -/
def turn (env : Environment) (s : Session) (line : Text) : Reply :=
  let line := line.trim
  if line.isEmpty then ⟨s, [], [], .ok false⟩
  else
    let r := s.eval env line
    match r.result with
    | .ok _ => r
    | .error fault =>
      { r with shown := r.shown ++ env.display.error fault.text, result := .ok false }

/-- What is shown when a session begins. -/
def welcome (d : Display) : Text :=
  d.info "Welcome to cfgtrees"

/-- The message left behind when a session begins. -/
def welcomeLog : Log :=
  Log.info "Quit with <ctrl>D"

/-- What is shown when a session ends. -/
def farewell : Text := "Good bye!\n"

/-- What is shown and which messages are left behind by lines, up to the one
    that ends the session. -/
def run (env : Environment) (s : Session) : List Text → Text × Log
  | [] => ([], [])
  | line :: rest =>
    let r := s.turn env line
    match r.result with
    | .ok true => (r.shown, r.log)
    | _ =>
      let (shown, log) := r.session.run env rest
      (r.shown ++ shown, r.log ++ log)

end Session

end Derivations
