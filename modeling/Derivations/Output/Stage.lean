import Derivations.Output.Sink
import Derivations.Log

/-!
# Stages of Output

Output is produced in stages: a tree, a table, a page. A stage leaves messages
behind when it begins, then sends its chunks, and some stages complain if the
sink fails on them. No stage begins after a failure, and neither the messages
nor the chunks of a stage are made before it begins: they may take long to
make, and for nothing.

## Main definitions

* `Stage`: A part of the output with its messages.
* `Stage.perform`: Sends stages to a sink up to the first failure.
* `Stage.text`, `Stage.log`: What stages come to if nothing fails.
-/

namespace Derivations

/-- A part of the output with the messages that come with it. -/
structure Stage where
  /-- The messages left behind at the beginning. -/
  before : Thunk Log := Thunk.pure []
  chunks : Thunk (Supply Text)
  /-- How a complaint about a failure begins, if there is to be one. -/
  complaint? : Option Text := none

namespace Stage

/-- The complaint of a stage about a failure. -/
def complain (s : Stage) (failure : Text) : Log :=
  match s.complaint? with
  | some complaint => Log.error (complaint ++ ": " ++ failure)
  | none => []

/-- Sends stages to a sink up to the first failure, which `describe` puts into
    words. The result holds what became of the chunks, and the messages. -/
def perform {σ ε : Type} (w : Sink σ ε) (describe : ε → Text) (state : σ) :
    List Stage → Receipt σ ε × Log
  | [] => (⟨[], none, state⟩, [])
  | s :: rest =>
    let r := w.send state s.chunks.get
    match r.failure? with
    | some e => (r, s.before.get ++ s.complain (describe e))
    | none =>
      let (r', log) := perform w describe r.state rest
      (r'.after r.taken, s.before.get ++ log)

/-- What stages come to if nothing fails. -/
def text (stages : List Stage) : Text :=
  stages.flatMap fun s => s.chunks.get.toList.flatten

/-- The messages left behind if nothing fails. -/
def log (stages : List Stage) : Log :=
  stages.flatMap (·.before.get)

end Stage

end Derivations
