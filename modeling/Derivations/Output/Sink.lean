import Derivations.Collection.Supply
import Derivations.Text.Basic

/-!
# Sinks

Drawings, tables and charts are produced as supplies of chunks and sent to a
sink, which may fail at any point. A sink that fails has taken part of the
chunk it failed on; nothing is sent to it afterwards, and the chunks that would
have followed are not even made.

## Main definitions

* `Sink`: Something that takes chunks.
* `Sink.Honest`: A failure is reported exactly when something was not taken.
* `Sink.send`: Sends chunks up to the first failure.
* `Sink.bounded`: The sink with room for a number of bytes.
* `Sink.unbounded`: The sink that takes everything.
* `Sink.refusing`: The sink that takes nothing.
-/

namespace Derivations

/-- A sink's answer to a chunk: how many bytes of it were taken, the failure if
    there was one, and the state the sink is in afterwards. -/
structure Answer (σ ε : Type) where
  taken : Nat
  failure? : Option ε
  state : σ

/-- Something that takes chunks, with states of type `σ` and failures of type
    `ε`. -/
structure Sink (σ ε : Type) where
  write : σ → Text → Answer σ ε

/-- What became of a sequence of chunks: the bytes taken, the first failure,
    and the state of the sink afterwards. -/
structure Receipt (σ ε : Type) where
  taken : Text
  failure? : Option ε
  state : σ

namespace Receipt

variable {σ ε : Type}

/-- A receipt with bytes in front that were taken before. -/
def after (taken : Text) (r : Receipt σ ε) : Receipt σ ε :=
  { r with taken := taken ++ r.taken }

end Receipt

namespace Sink

variable {σ ε : Type}

/-- A sink that takes no more than it is offered, and fails exactly if it takes
    less. -/
def Honest (w : Sink σ ε) : Prop :=
  ∀ s chunk, (w.write s chunk).taken ≤ chunk.length ∧
    ((w.write s chunk).failure? = none ↔ (w.write s chunk).taken = chunk.length)

/-- Sends chunks one after the other, up to the first failure. What was taken
    before is given from the last chunk to the first. -/
def sendAfter (w : Sink σ ε) (taken : List Text) (s : σ) : Supply Text → Receipt σ ε
  | .empty => ⟨taken.reverse.flatten, none, s⟩
  | .more chunk rest =>
    let a := w.write s chunk
    let taken := chunk.take a.taken :: taken
    match a.failure? with
    | some e => ⟨taken.reverse.flatten, some e, a.state⟩
    | none => w.sendAfter taken a.state (rest ())

/-- Sends chunks one after the other, up to the first failure. -/
def send (w : Sink σ ε) (s : σ) (chunks : Supply Text) : Receipt σ ε :=
  w.sendAfter [] s chunks

/-- What was taken before has no part in what becomes of further chunks. -/
theorem sendAfter_eq_after (w : Sink σ ε) (taken : List Text) (s : σ) (chunks : Supply Text) :
    w.sendAfter taken s chunks = (w.send s chunks).after taken.reverse.flatten := by
  induction chunks generalizing taken s with
  | empty => simp [send, sendAfter, Receipt.after]
  | more chunk rest ih =>
    rw [send, sendAfter, sendAfter]
    cases h : (w.write s chunk).failure? with
    | some e => simp [Receipt.after]
    | none =>
      simp only
      rw [ih () (_ :: taken), ih () [_]]
      simp [Receipt.after]

@[simp]
theorem send_empty (w : Sink σ ε) (s : σ) : w.send s .empty = ⟨[], none, s⟩ :=
  rfl

/-- A chunk is sent before those which follow it, and these only if the sink
    does not fail on it. -/
theorem send_more (w : Sink σ ε) (s : σ) (chunk : Text) (rest : Unit → Supply Text) :
    w.send s (.more chunk rest) =
      match (w.write s chunk).failure? with
      | some e => ⟨chunk.take (w.write s chunk).taken, some e, (w.write s chunk).state⟩
      | none =>
        (w.send (w.write s chunk).state (rest ())).after
          (chunk.take (w.write s chunk).taken) := by
  rw [send, sendAfter]
  cases h : (w.write s chunk).failure? with
  | some e => simp
  | none =>
    simp only
    rw [sendAfter_eq_after]
    simp

/-- The sink that takes a number of bytes in all and fails when it is offered
    more. Its state is the room left. -/
def bounded (failure : ε) : Sink Nat ε where
  write room chunk :=
    if chunk.length ≤ room then ⟨chunk.length, none, room - chunk.length⟩
    else ⟨room, some failure, 0⟩

/-- The sink that takes nothing and fails on every chunk, even an empty one. -/
def refusing (failure : ε) : Sink Unit ε where
  write _ _ := ⟨0, some failure, ()⟩

/-- The sink that takes everything. -/
def unbounded : Sink Unit ε where
  write _ chunk := ⟨chunk.length, none, ()⟩

end Sink

end Derivations
