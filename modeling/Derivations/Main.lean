import Derivations.CommandLine.Run

/-!
# The Program

The outermost layer: it reads files and lines, hands them to the library, and
writes what comes back. The library asks for the content of a file by its
path; since at most one file is asked for at a time and it is known in advance
which one, the file is read first and its content handed in.

## Main definitions

* `Program.readFile`, `Program.writeFile`: Access to files, failures in words of
  the library.
* `Program.conclude`, `Program.runOnce`: Run a command that is no session.
* `Program.carryOut`, `Program.converse`: Hold a session.
* `main`: Runs a command line.
-/

namespace Derivations

namespace Program

/-- The reason for a failed file operation. -/
def reasonOf : IO.Error → FileReason
  | .noFileOrDirectory _ _ _ => .notFound
  | .inappropriateType _ _ details =>
    if details = "not a directory" then .notDirectory else .isDirectory
  | .invalidArgument _ _ details => if details = "name too long" then .nameTooLong else .invalid
  | .permissionDenied _ _ _ => .denied
  | _ => .notFound

/-- A path as the operating system takes it. -/
def pathOf (path : Text) : String :=
  (String.fromUTF8? ⟨path.toArray⟩).getD ""

/-- The content of a file. -/
def readFile (path : Text) : IO (Except FileFault Text) := do
  try
    let bytes ← IO.FS.readBinFile (pathOf path)
    return .ok bytes.toList
  catch e =>
    let reason := reasonOf e
    return .error ⟨if reason = .isDirectory then .reading else .opening, path, reason⟩

/-- Creates a file with the given content, unless something prevents it. -/
def writeFile (path content : Text) : IO (Option FileFault) := do
  try
    IO.FS.writeBinFile (pathOf path) ⟨content.toArray⟩
    return none
  catch e =>
    return some ⟨.opening, path, reasonOf e⟩

/-- Writes a text. -/
def put (stream : IO.FS.Stream) (t : Text) : IO Unit := do
  stream.write ⟨t.toArray⟩
  stream.flush

/-- The environment in which files have the given content. -/
def environment (content : Except FileFault Text) : Environment :=
  ⟨[], .plain, fun _ => content⟩

/-- Shows what running a command came to. -/
def conclude (i : Invocation) (t : Transcript) : IO UInt32 := do
  put (← IO.getStdout) t.shown
  put (← IO.getStderr) (i.errorText t)
  return if t.fault?.isSome then 1 else 0

/-- Runs a command that is no session. It is first run as if its file could not
    be created, to find out whether it gets that far. -/
def runOnce (i : Invocation) : IO UInt32 := do
  let env := environment (← readFile i.options.grammar)
  let path := i.options.output
  let t := i.run env (fun _ => .error ⟨.opening, path, .denied⟩) []
  match t.fault? with
  | some (.output _) =>
    match ← writeFile path [] with
    | some fault => conclude i (i.run env (fun _ => .error fault) [])
    | none =>
      let t := i.run env (fun _ => .ok (.inside (Path.elements path))) []
      match ← writeFile path ((t.file?.map (·.2)).getD []) with
      | some fault => conclude i { t with fault? := some (.writing fault) }
      | none => conclude i t
  | _ => conclude i t

/-- Shows a reply and those of its messages that the chosen level lets through. -/
def present (i : Invocation) (r : Reply) : IO Unit := do
  put (← IO.getStdout) r.shown
  put (← IO.getStderr) (Log.text (Level.ofName i.options.trace) r.log)

/-- The environment for a line, which depends on the file it asks for. -/
def environmentFor (line : Text) : IO Environment :=
  match Command.read line.trim with
  | .ok (.load path) => return environment (← readFile path)
  | _ => return environment (.ok [])

/-- Carries out lines up to the one that ends the session. The result is the
    session afterwards, if it goes on. -/
def carryOut (i : Invocation) (s : Session) : List Text → IO (Option Session)
  | [] => return some s
  | line :: rest => do
    let r := s.turn (← environmentFor line) line
    present i r
    match r.result with
    | .ok true => return none
    | _ => carryOut i r.session rest

/-- Holds a session until its end or the end of the input. -/
partial def converse (i : Invocation) (s : Session) : IO Unit := do
  let line ← (← IO.getStdin).getLine
  if line.isEmpty then
    return
  match ← carryOut i s (typedLines (Text.ofString line)) with
  | some s' => converse i s'
  | none => return

/-- Runs a session from its welcome to its farewell. -/
def runSession (i : Invocation) : IO UInt32 := do
  let env := environment (← readFile i.options.grammar)
  let r := Invocation.sessionStart env i.options
  match r.result with
  | .error fault =>
    put (← IO.getStderr) (i.errorText { log := r.log, fault? := some fault })
    return 1
  | .ok _ =>
    put (← IO.getStderr) (i.errorText {})
    present i r
    present i ⟨r.session, Session.welcome env.display, Session.welcomeLog, .ok false⟩
    converse i r.session
    put (← IO.getStdout) Session.farewell
    return 0

end Program

end Derivations

open Derivations in
/-- Runs a command line. -/
def main (arguments : List String) : IO UInt32 := do
  match Invocation.read (arguments.map Text.ofString) with
  | .error fault =>
    Program.put (← IO.getStderr) (fault.text ++ "\n")
    return 1
  | .ok i =>
    match i.verb with
    | .explain | .script => return 0
    | .session => Program.runSession i
    | _ => Program.runOnce i
