import Derivations.CommandLine.Invocation
import Derivations.Session.Basic
import Derivations.Session.Typed
import Derivations.Report.Page

/-!
# Running Commands

What the commands do. A command shows something, leaves messages behind, may
create a file, and may fail; what it shows up to its failure is shown all the
same.

## Main definitions

* `TreeFormat`: The ways to show trees.
* `Transcript`: What running a command comes to.
* `Invocation.run`: Runs a command.
* `CommandLine.execute`: Runs a command line in a directory.
-/

namespace Derivations

/-- The ways to show trees. -/
inductive TreeFormat where
  | tree
  | bracket
  | svg
  | html
deriving DecidableEq, Repr

/-- The way with the given name. -/
def TreeFormat.ofName? (name : Text) : Option TreeFormat :=
  if name = Text.ofString "html" then some html
  else if name = Text.ofString "bracket" then some bracket
  else if name = Text.ofString "svg" then some svg
  else if name = Text.ofString "tree" then some tree
  else none

namespace Report

/-- The report with an analysis of its grammar. -/
def analysed (r : Report) : Report :=
  { r with analysis? := r.grammar?.bind Analysis.of? }

/-- A report shown in a given way. A page needs an analysis, which leaves its
    own message behind. -/
def stages (d : Display) (g : Grammar) (r : Report) : TreeFormat → Except Text (List Stage)
  | .html => do
    let page ← r.analysed.pageStages
    return { before := Analysis.log g, chunks := (Supply.empty : Supply Text) } :: page
  | .bracket => .ok (bracketStages r.trees)
  | .svg => .ok (Svg.stages r.trees)
  | .tree => .ok ({ chunks := Supply.ofList [r.heading ++ "\n"] } :: consoleStages d r.trees)

end Report

/-- What running a command comes to. -/
structure Transcript where
  /-- What is shown. -/
  shown : Text := []
  log : Log := []
  /-- The path and the content of the file that is created. -/
  file? : Option (Text × Text) := none
  fault? : Option CommandFault := none

namespace Invocation

/-- What is shown about a parse: its trees in the chosen way and, if wanted, its
    chart. -/
def parseStages (env : Environment) (o : Options) (g : Grammar) (input : List Symbol)
    (outcome : Outcome) : Except CommandFault (List Stage) := do
  let report : Report := ⟨some g, none, sentence input, outcome.found, outcome.full⟩
  let trees ← match TreeFormat.ofName? o.format with
    | none => .error (.format o.format)
    | some f => (report.stages env.display g f).mapError .report
  return trees ++ if o.states then [{ chunks := Supply.ofList outcome.chart.chunks }] else []

/-- Keeps what stages come to. The result holds the text, the messages, and
    what went wrong: nothing. -/
def keep (stages : List Stage) : Text × Log × Option CommandFault :=
  (Stage.text stages, Stage.log stages, none)

/-- Sends stages to an outlet that was found under a path. The result holds what
    was taken and kept, the messages, and what went wrong. What goes elsewhere
    is not kept, so it is not made either. -/
def send (outlet : Outlet) (path : Text) (stages : List Stage) :
    Text × Log × Option CommandFault :=
  match outlet with
  | .full =>
    let fault : FileFault := ⟨.writing, path, .full⟩
    let (r, log) := Stage.perform (Sink.refusing fault) FileFault.text () stages
    (r.taken, log, r.failure?.map .writing)
  | .elsewhere => ([], Stage.log stages, none)
  | .inside _ => keep stages

/-- Parses a word and shows its trees, or puts them into a file. `create` tells
    where the bytes of a file at a path go, or what prevents it from being
    created; nothing is made ready to be shown before that is known. -/
def runParse (env : Environment) (create : Text → Except FileFault Outlet) (o : Options)
    (word : Text) : Transcript :=
  let log := env.grammarLog o.grammar
  match env.grammar o.grammar with
  | .error fault => { log := log, fault? := some fault }
  | .ok g =>
    match Parser.of? g env.settings [o.limit] with
    | none => { log := log, fault? := some .noParser }
    | some p =>
      let input := symbols word
      match p.parse input with
      | .error fault => { log := log ++ p.log, fault? := some (.parse fault) }
      | .ok outcome =>
        let log := log ++ p.log ++ outcome.log p env.settings input
        let finish (send : List Stage → Text × Log × Option CommandFault) :
            Text × Log × Option CommandFault :=
          match parseStages env o g input outcome with
          | .error fault => ([], [], some fault)
          | .ok stages => send stages
        if o.output.isEmpty then
          let (shown, more, fault?) := finish keep
          { shown := shown, log := log ++ more, fault? := fault? }
        else
          match create o.output with
          | .error fault => { log := log, fault? := some (.output fault) }
          | .ok outlet =>
            let (content, more, fault?) := finish (send outlet o.output)
            { log := log ++ more, file? := some (o.output, content), fault? := fault? }

/-- Shows the properties of a grammar. -/
def runProperties (env : Environment) (o : Options) : Transcript :=
  let log := env.grammarLog o.grammar
  match env.grammar o.grammar with
  | .error fault => { log := log, fault? := some fault }
  | .ok g =>
    match Analysis.of? g with
    | none => { log := log ++ Analysis.log g, fault? := some .noGrammar }
    | some a => { shown := a.console env.display, log := log ++ Analysis.log g }

/-- The first reply of a session: a grammar is loaded if one is named. -/
def sessionStart (env : Environment) (o : Options) : Reply :=
  if o.grammar.isEmpty then ⟨Session.start, [], [], .ok false⟩
  else Session.start.load env o.grammar

/-- Holds a session over given lines. -/
def runSession (env : Environment) (o : Options) (lines : List Text) : Transcript :=
  let r := sessionStart env o
  match r.result with
  | .error fault => { log := r.log, fault? := some fault }
  | .ok _ =>
    let (shown, log) := r.session.run env lines
    { shown := r.shown ++ Session.welcome env.display ++ shown ++ Session.farewell
      log := r.log ++ Session.welcomeLog ++ log }

/-- Runs a command. -/
def run (env : Environment) (create : Text → Except FileFault Outlet) (lines : List Text)
    (i : Invocation) : Transcript :=
  match i.verb with
  | .parse => runParse env create i.options i.word
  | .properties => runProperties env i.options
  | .session => runSession env i.options lines
  | .explain | .script => {}

/-- What appears beside the output of a command: the messages that the chosen
    level lets through, beginning with one about the level, and the fault. -/
def errorText (i : Invocation) (t : Transcript) : Text :=
  let level := Level.ofName i.options.trace
  Log.text level (Log.info ("trace level is " ++ i.options.trace) ++ t.log) ++
    match t.fault? with
    | some fault => fault.text ++ "\n"
    | none => []

end Invocation

namespace CommandLine

/-- Why a command line fails. -/
inductive Failure where
  | usage (fault : UsageFault)
  | command (fault : CommandFault)

/-- How a command line ends: the output, what appears beside it, the file that
    was created, and why it failed. -/
structure Ending where
  output : Text
  errors : Text
  file? : Option (List Text × Text)
  failure? : Option Failure

/-- Runs a command line in a directory, with an input for sessions. -/
def execute (dir : Directory) (settings : Settings) (display : Display) (arguments : List Text)
    (input : Text) : Ending :=
  match Invocation.read arguments with
  | .error fault => ⟨[], fault.text ++ "\n", none, some (.usage fault)⟩
  | .ok i =>
    let env : Environment := ⟨settings, display, dir.read⟩
    let t := i.run env dir.create (typedLines input)
    let file? := do
      let (path, content) ← t.file?
      match dir.create path with
      | .ok (.inside elements) => return (elements, content)
      | _ => none
    ⟨t.shown, if i.verb.works then i.errorText t else [], file?, t.fault?.map .command⟩

end CommandLine

end Derivations
