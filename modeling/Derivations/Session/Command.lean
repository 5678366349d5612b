import Derivations.Grammar.File.Load
import Derivations.Chart.Parser
import Derivations.Text.Blank

/-!
# Commands

What a line typed into a session asks for. A line that begins with a colon is a
command with arguments, separated by white space; every other line is a word to
be parsed. Commands that take an argument insist on exactly one, the others do
not look at theirs.

## Main definitions

* `CommandFault`: Why a command is not carried out.
* `Command`: What a line asks for.
* `Command.read`: Reads a line.
-/

namespace Derivations

/-- Why a command is not carried out. -/
inductive CommandFault where
  /-- There is no grammar to work with. -/
  | noGrammar
  /-- The grammar cannot be loaded. -/
  | load (fault : LoadFault)
  /-- There is no parser for the grammar. -/
  | noParser
  /-- A command is to be used differently. -/
  | usage (form : Text)
  /-- A limit is not a positive number. -/
  | limit (argument : Text)
  /-- There is no such command. -/
  | unknown (name : Text)
  /-- There is no such way to show trees. -/
  | format (name : Text)
  /-- There is nothing to report about. -/
  | report (complaint : Text)
  /-- The file for the output cannot be created. -/
  | output (fault : FileFault)
  /-- The output cannot be written to its file. -/
  | writing (fault : FileFault)
  /-- The parser broke down. -/
  | parse (fault : Fault)

/-- The fault in words. -/
def CommandFault.text : CommandFault → Text
  | noGrammar => "no grammar file given, use --grammar"
  | load fault => "cannot load grammar: " ++ fault.text
  | noParser => Parser.refusal
  | usage form => "usage: " ++ form
  | limit argument => "limit must be a positive number: " ++ Quoted.text argument
  | unknown name => "unknown command " ++ name
  | format name => "unknown output format " ++ Quoted.text name
  | report complaint => complaint
  | output fault => "cannot create output file: " ++ fault.text
  | writing fault => fault.text
  | parse fault => fault.text?.getD "chart out of range"

/-- What a line asks for. -/
inductive Command where
  /-- To end the session. -/
  | quit
  /-- To load a grammar from a file. -/
  | load (path : Text)
  /-- To show the properties of the grammar. -/
  | properties
  /-- To set the limit of the parser. -/
  | limit (n : Nat)
  /-- To show the chart of the last parse. -/
  | states
  /-- To parse a word. -/
  | word (line : Text)
deriving DecidableEq, Repr

namespace Command

/-- The byte that commands begin with. -/
def colon : UInt8 := ':'.toUInt8

/-- Reads the name and the arguments of a command. -/
def ofFields (name : Text) (arguments : List Text) : Except CommandFault Command :=
  if name = Text.ofString ":quit" ∨ name = Text.ofString ":q" then .ok .quit
  else if name = Text.ofString ":load" then
    match arguments with
    | [path] => .ok (.load path)
    | _ => .error (.usage ":load FILE")
  else if name = Text.ofString ":props" then .ok .properties
  else if name = Text.ofString ":limit" then
    match arguments with
    | [argument] =>
      match Numeral.plain argument with
      | .value n => if 1 ≤ n then .ok (.limit n.toNat) else .error (.limit argument)
      | _ => .error (.limit argument)
    | _ => .error (.usage ":limit N")
  else if name = Text.ofString ":states" then .ok .states
  else .error (.unknown name)

/-- Reads a line. -/
def read (line : Text) : Except CommandFault Command :=
  if line.head? == some colon then
    match line.fields with
    | name :: arguments => ofFields name arguments
    | [] => .error (.unknown [])
  else
    .ok (.word line)

end Command

end Derivations
