import Derivations.Text.Lower

/-!
# Trace Messages

Loading, parsing, analysing and presenting leave messages for whoever wants to
follow what happened. Messages are values: the functions that describe an
activity's messages stand beside the function that performs it, and the outer
layer decides which levels are shown.

## Main definitions

* `Level`: How much attention a message asks for.
* `Log`: Messages in order.
* `Level.admits`: Which messages a chosen level lets through.
-/

namespace Derivations

/-- How much attention a message asks for. -/
inductive Level where
  | debug
  | info
  | error
deriving DecidableEq, Repr

/-- A message with its level. -/
structure Message where
  level : Level
  text : Text
deriving DecidableEq, Repr

/-- Messages in the order in which they arose. -/
abbrev Log := List Message

namespace Log

/-- A single message of level debug. -/
def debug (text : Text) : Log := [⟨.debug, text⟩]

/-- A single message of level info. -/
def info (text : Text) : Log := [⟨.info, text⟩]

/-- A single message of level error. -/
def error (text : Text) : Log := [⟨.error, text⟩]

end Log

namespace Level

/-- Whether a chosen level lets a message of another level through: it lets
    through its own and everything that asks for more attention. -/
def admits : Level → Level → Bool
  | .debug, _ => true
  | .info, .debug => false
  | .info, _ => true
  | .error, .error => true
  | .error, _ => false

/-- The level with the given name, whatever the case of its letters. An unknown
    name means info. -/
def ofName (name : Text) : Level :=
  if name.lower = Text.ofString "debug" then .debug
  else if name.lower = Text.ofString "error" then .error
  else .info

/-- The level as it is shown in front of a message. -/
def label : Level → Text
  | .debug => "DEBUG "
  | .info => "INFO  "
  | .error => "ERROR "

end Level

namespace Log

/-- A text that ends its line, either by itself or by a line end put behind
    it. -/
def endLine (t : Text) : Text :=
  if t.getLast? == some '\n'.toUInt8 then t else t ++ "\n"

/-- The messages a chosen level lets through, each on a line of its own behind
    its level. -/
def text (level : Level) (log : Log) : Text :=
  (log.filter (level.admits ·.level)).flatMap fun m => m.level.label ++ endLine m.text

end Log

end Derivations
