import Derivations.CommandLine.Flags
import Derivations.CommandLine.Suggestion

/-!
# Invocations

Which command a command line asks for. The command is named by the first
argument that is neither a flag nor the value of one. Which flags a command has
is not known before it has been found; until then every flag without an equals
sign is taken to be followed by its value.

Beside the commands that do the program's work there are those which explain
how to use it. What they show is not part of this library, but their command
lines can be wrong like any other.

## Main definitions

* `Verb`: The commands there are.
* `Invocation`: A command with its flags and its argument.
* `UsageFault`: Why a command line is not acceptable.
* `Invocation.read`: Reads a command line.
-/

namespace Derivations

/-- The commands there are. -/
inductive Verb where
  /-- To parse a word. -/
  | parse
  /-- To show the properties of a grammar. -/
  | properties
  /-- To hold a session. -/
  | session
  /-- To explain the program, or the shells it has completion scripts for. -/
  | explain
  /-- To write the completion script for a shell. -/
  | script
deriving DecidableEq, Repr

/-- A command with its flags and the word it is given. -/
structure Invocation where
  verb : Verb
  options : Options
  word : Text
deriving DecidableEq, Repr

/-- Why a command line is not acceptable. -/
inductive UsageFault where
  | flag (fault : FlagFault)
  /-- There are more words than can be parsed. -/
  | tooMany (count : Nat)
  /-- A command that takes no argument is given one. -/
  | unexpected (argument command : Text)
  /-- There is no such command. -/
  | unknown (name : Text) (suggested : List Text)
deriving DecidableEq, Repr

/-- The name the program goes by. -/
def programName : Text := "cfgtrees"

/-- A suggestion on a line of its own. -/
def suggestionLine (name : Text) : Text :=
  "\t" ++ name ++ "\n"

/-- What is added to the complaint about an unknown command. -/
def suggestionText (suggested : List Text) : Text :=
  if suggested.isEmpty then []
  else "\n\nDid you mean this?\n" ++ suggested.flatMap suggestionLine

/-- The fault in words. -/
def UsageFault.text : UsageFault → Text
  | flag fault => fault.text
  | tooMany count => "accepts at most 1 arg(s), received " ++ Text.decimal count
  | unexpected argument command =>
    "unknown command " ++ Quoted.text argument ++ " for " ++
      Quoted.text (programName ++ " " ++ command)
  | unknown name suggested =>
    "unknown command " ++ Quoted.text name ++ " for " ++ Quoted.text programName ++
      suggestionText suggested

namespace Verb

/-- The command with a given name, unless there is more than one. -/
def ofName? (name : Text) : Option Verb :=
  if name = Text.ofString "parse" then some parse
  else if name = Text.ofString "props" then some properties
  else if name = Text.ofString "repl" then some session
  else if name = Text.ofString "help" then some explain
  else none

/-- The command that has a command of its own for every shell. -/
def completion : Text := "completion"

/-- Whether there is a completion script for a shell. -/
def hasScript (shell : Text) : Bool :=
  ["bash", "zsh", "fish", "powershell"].any (Text.ofString · = shell)

/-- The flags of a command. -/
def flags : Verb → List Flag
  | parse => Flag.general ++ Flag.parsing
  | script => Flag.general ++ Flag.scripting
  | _ => Flag.general

/-- Whether a command does some of the program's work. -/
def works : Verb → Bool
  | parse | properties | session => true
  | explain | script => false

/-- The names that may be suggested. -/
def names : List Text := ["parse", "props", "repl", completion]

end Verb

namespace Invocation

/-- Whether an argument looks like a flag whose value is the next argument: a
    name or a single letter, without an equals sign. -/
def takesNext (argument : Text) : Bool :=
  !argument.contains Flag.equals &&
    (Flag.terminator.isPrefixOf argument ||
      (argument.head? == some Flag.hyphen && argument.length == 2))

/-- Whether an argument begins like a flag. -/
def looksLikeFlag (argument : Text) : Bool :=
  argument.head? == some Flag.hyphen

/-- The first argument that is neither a flag nor the value of one. A flag with
    nothing behind its value is the end of the search. -/
def commandName? : List Text → Option Text
  | [] => none
  | argument :: rest =>
    if argument = Flag.terminator then none
    else if takesNext argument then
      match rest with
      | _ :: next :: more => commandName? (next :: more)
      | _ => none
    else if argument.isEmpty || looksLikeFlag argument then commandName? rest
    else some argument

/-- The arguments without the one that names the command. -/
def without (name : Text) : List Text → List Text
  | [] => []
  | argument :: rest =>
    if argument = Flag.terminator then argument :: rest
    else if takesNext argument then
      match rest with
      | value :: more => argument :: value :: without name more
      | [] => [argument]
    else if argument = name then rest
    else argument :: without name rest

/-- Checks what is left of a command line without its flags. Where something is
    to be explained, anything may be left. -/
def ofArguments (verb : Verb) (name : Text) (o : Options) (arguments : List Text) :
    Except UsageFault Invocation :=
  match verb, arguments with
  | .explain, _ => .ok ⟨verb, o, []⟩
  | _, [] => .ok ⟨verb, o, []⟩
  | .parse, [word] => .ok ⟨verb, o, word⟩
  | .parse, words => .error (.tooMany words.length)
  | _, argument :: _ => .error (.unexpected argument name)

/-- Reads a command line for a command. If help is wanted it takes the place of
    what the command does. -/
def readFor (verb : Verb) (name : Text) (arguments : List Text) : Except UsageFault Invocation :=
  match Flag.collect verb.flags {} arguments with
  | .error fault => .error (.flag fault)
  | .ok (o, left) => ofArguments (if o.help then .explain else verb) name o left

/-- Reads a command line for completion scripts. -/
def readCompletion (arguments : List Text) : Except UsageFault Invocation :=
  match (commandName? arguments).filter Verb.hasScript with
  | none => readFor .explain Verb.completion arguments
  | some shell => readFor .script (Verb.completion ++ " " ++ shell) (without shell arguments)

/-- Reads a command line. -/
def read (arguments : List Text) : Except UsageFault Invocation :=
  match commandName? arguments with
  | none => readFor .explain [] arguments
  | some name =>
    if name = Verb.completion then readCompletion (without name arguments)
    else
      match Verb.ofName? name with
      | none => .error (.unknown name (suggestions Verb.names name))
      | some verb => readFor verb name (without name arguments)

end Invocation

end Derivations
