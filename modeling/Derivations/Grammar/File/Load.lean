import Derivations.Grammar.File.Line
import Derivations.Grammar.Listing
import Derivations.Files.Directory

/-!
# Loading Grammars

A grammar file is read line by line up to its end or to the first malformed
line. Its rules, in order, make up the grammar, and there has to be at least
one. The grammar's name does not appear in the file; a grammar that is read
from a file is named after it.

## Main definitions

* `Reading`: The well-formed lines at the front of a text and the first fault.
* `LoadFault`: Why a grammar cannot be loaded.
* `Grammar.load`: The grammar written in a text.
* `Grammar.loadLog`: The messages that loading it leaves behind.
* `Grammar.loadFile`: The grammar written in a file.
-/

namespace Derivations

/-- The well-formed lines at the front of a text, and what is wrong with the
    line behind them, if there is one. -/
structure Reading where
  lines : List Line
  fault? : Option LineFault
deriving DecidableEq, Repr

namespace Reading

/-- Reads lines up to the first malformed one. -/
def ofLines : List (List Token) → Reading
  | [] => ⟨[], none⟩
  | ts :: rest =>
    match Line.read ts with
    | .error fault => ⟨[], some fault⟩
    | .ok line =>
      let r := ofLines rest
      ⟨line :: r.lines, r.fault?⟩

/-- Reads a text. -/
def ofText (t : Text) : Reading :=
  ofLines (Line.split (Token.scan t))

/-- The productions of the lines read, in order. -/
def productions (r : Reading) : List (Symbol × List Symbol) :=
  r.lines.flatMap Line.productions

/-- A message for every symbol that was passed over. -/
def log (r : Reading) : Log :=
  r.lines.flatMap fun
    | .bare lhs =>
      Log.info ("line " ++ Text.decimal lhs.location.line ++ ": ignoring " ++
        Quoted.text lhs.lexeme ++ " without right-hand side")
    | _ => []

end Reading

/-- Why a grammar cannot be loaded. -/
inductive LoadFault where
  /-- A line is malformed. -/
  | malformed (name : Text) (fault : LineFault)
  /-- There are no productions. -/
  | empty (name : Text)
  /-- The text could be read only in part. -/
  | unreadable (name : Text) (cause : Text)
  /-- The file could not be read, after it had been opened. -/
  | unreadableFile (name : Text) (fault : FileFault)
  /-- The file could not be opened. -/
  | unopened (fault : FileFault)
deriving DecidableEq, Repr

/-- The fault in words. -/
def LoadFault.text : LoadFault → Text
  | malformed name fault =>
    "grammar " ++ Quoted.text name ++ ": grammar syntax error: " ++ fault.text
  | empty name => "grammar " ++ Quoted.text name ++ ": " ++ noProductions
  | unreadable name cause => "cannot read grammar " ++ Quoted.text name ++ ": " ++ cause
  | unreadableFile name fault => "cannot read grammar " ++ Quoted.text name ++ ": " ++ fault.text
  | unopened fault => "cannot open grammar file: " ++ fault.text

namespace Grammar

/-- The grammar written in a text. -/
def load (name text : Text) : Except LoadFault Grammar :=
  let r := Reading.ofText text
  match r.fault? with
  | some fault => .error (.malformed name fault)
  | none =>
    let g := ofProductions name r.productions
    if g.start?.isNone then .error (.empty name) else .ok g

/-- The messages that loading a text leaves behind: symbols passed over, and
    the productions if all went well. -/
def loadLog (name text : Text) : Log :=
  (Reading.ofText text).log ++
    match load name text with
    | .ok g => g.dump
    | .error _ => []

/-- The grammar written in a file, given what reading that file gave. -/
def loadFile (path : Text) (content : Except FileFault Text) : Except LoadFault Grammar :=
  match content with
  | .ok text => load (Path.stem path) text
  | .error fault =>
    match fault.operation with
    | .reading => .error (.unreadableFile (Path.stem path) fault)
    | _ => .error (.unopened fault)

/-- The messages that loading a file leaves behind. -/
def loadFileLog (path : Text) (content : Except FileFault Text) : Log :=
  match content with
  | .ok text => loadLog (Path.stem path) text
  | .error _ => []

end Grammar

end Derivations
