import Derivations.Chart.StateSet
import Derivations.Drawing.Svg

/-!
# Output to a Failing Sink

A sink may fail on any chunk, with any part of it taken. There are two ways of dealing with
this. Printing a chart gives up at the first failure and leaves the loops it is in. A drawing is
made by a recursion that would have to be left at every depth, so it goes on to the end instead
and keeps the first failure, and nothing is passed on to the sink once there is one. Sending
chunks made on demand is a third way: after a failure the drawing is not made at all.

All three come to the same. For every sink, honest or not, they call it with the same chunks
in the same states and end with the same receipt. What is known of sending chunks by induction
on the chunks therefore holds of a recursion over trees and of nested loops.

Which calls a sink has received cannot be seen from what it has taken, as a call may take
nothing. A sink that keeps a record of its calls shows them.

## Main definitions

* `Offered`, `Sink.recorded`: The calls of a sink, and the sink that records them.
* `Reported`: What has been taken is the beginning of a text, and the first failure is reported.
* `Delivers`: This is what becomes of a text.
* `Receipt.offer`: Offers a chunk unless there has been a failure.
* `Svg.drawOnto`: A drawing that goes on after a failure.
* `Sink.put`, `Chart.printOnto`: Printing that gives up at a failure.

## Theorems

* `Reported.nil`, `Reported.failed`, `Reported.cons`: What a single call contributes.
* `Sink.send_recorded`: What becomes of chunks, and which calls are made.
* `Svg.drawOnto_eq_send`, `Chart.printOnto_eq_send`: All ways come to the same.
* `Sink.output_cut_at_failure`: Drawings and charts are taken up to the first failure.
-/

namespace Derivations

/-- A chunk that was offered to a sink, and its answer. -/
structure Offered (σ ε : Type) where
  chunk : Text
  answer : Answer σ ε

variable {σ ε : Type}

/-- The part of a chunk that was taken. -/
def Offered.accepted (o : Offered σ ε) : Text :=
  o.chunk.take o.answer.taken

/-- The sink that keeps a record of its calls. -/
def Sink.recorded (w : Sink σ ε) : Sink (σ × List (Offered σ ε)) ε where
  write s chunk :=
    let a := w.write s.1 chunk
    ⟨a.taken, a.failure?, (a.state, s.2 ++ [⟨chunk, a⟩])⟩

/-- A receipt beside the calls it is for. -/
def Receipt.withCalls (r : Receipt σ ε) (calls : List (Offered σ ε)) :
    Receipt (σ × List (Offered σ ε)) ε :=
  ⟨r.taken, r.failure?, (r.state, calls)⟩

/-- What has been taken in some calls is the beginning of a text. There is no call after one
    that fails, and its failure is the one that is reported. None is reported if and only if all
    of the text has been taken. -/
structure Reported (text : Text) (calls : List (Offered σ ε)) (r : Receipt σ ε) : Prop where
  taken : r.taken = calls.flatMap Offered.accepted
  beginning : r.taken <+: text
  last : ∀ before call after, calls = before ++ call :: after → call.answer.failure? ≠ none →
    after = []
  first : r.failure? = calls.findSome? (·.answer.failure?)
  whole : r.failure? = none ↔ r.taken = text

/-- A way of using sinks delivers a text: seen from a sink that keeps a record of its calls,
    these are calls in which the text is taken up to the first failure. -/
def Delivers (way : (τ : Type) → Sink τ ε → τ → Receipt τ ε) (w : Sink σ ε) (s : σ)
    (text : Text) : Prop :=
  ∃ calls, way _ w.recorded (s, []) = (way _ w s).withCalls calls ∧
    Reported text calls (way _ w s)

namespace Reported

theorem nil (s : σ) : Reported [] ([] : List (Offered σ ε)) ⟨[], none, s⟩ where
  taken := rfl
  beginning := List.nil_prefix
  last := fun before _ _ h => absurd h.symm (by simp)
  first := rfl
  whole := iff_of_true rfl rfl

variable {chunk rest : Text} {a : Answer σ ε}

/-- After a failing call, some of its chunk is missing. -/
theorem failed {e : ε} (hle : a.taken ≤ chunk.length)
    (hall : a.failure? = none ↔ a.taken = chunk.length) (hfailure : a.failure? = some e) :
    Reported (chunk ++ rest) [⟨chunk, a⟩] ⟨chunk.take a.taken, some e, a.state⟩ where
  taken := (List.append_nil _).symm
  beginning := (List.take_prefix _ _).trans (List.prefix_append _ _)
  last := fun before call after h _ => by
    cases before with
    | nil => exact (List.cons.inj h).2.symm
    | cons c before => simp at h
  first := by rw [List.findSome?_cons, hfailure]
  whole := by
    have hpart : a.taken ≠ chunk.length := fun h => by
      rw [hall.2 h] at hfailure
      cases hfailure
    refine iff_of_false (Option.some_ne_none e) fun h => hpart ?_
    have hlength := congrArg List.length h
    rw [List.length_take_of_le hle, List.length_append] at hlength
    omega

/-- A call without failure has taken all of its chunk. -/
theorem cons (hall : a.failure? = none ↔ a.taken = chunk.length) (hnone : a.failure? = none)
    {calls : List (Offered σ ε)} {r : Receipt σ ε} (h : Reported rest calls r) :
    Reported (chunk ++ rest) (⟨chunk, a⟩ :: calls) (r.after (chunk.take a.taken)) := by
  have hchunk : chunk.take a.taken = chunk := by rw [hall.1 hnone, List.take_length]
  refine ⟨?_, ?_, fun before call after hsplit hfailure => ?_, ?_, ?_⟩
  · rw [List.flatMap_cons, ← h.taken]
    rfl
  · rw [hchunk]
    exact (List.prefix_append_right_inj chunk).2 h.beginning
  · cases before with
    | nil =>
      rcases hsplit with ⟨⟩
      exact absurd hnone hfailure
    | cons c before => exact h.last before call after (List.cons.inj hsplit).2 hfailure
  · rw [List.findSome?_cons, hnone]
    exact h.first
  · rw [hchunk]
    exact h.whole.trans (List.append_right_inj chunk).symm

end Reported

namespace Sink

/-- What becomes of chunks, and which calls are made, if the sink is honest. -/
theorem send_recorded (w : Sink σ ε) (s : σ) (before : List (Offered σ ε))
    (chunks : Supply Text) :
    ∃ calls, w.recorded.send (s, before) chunks =
        (w.send s chunks).withCalls (before ++ calls) ∧
      (w.Honest → Reported chunks.toList.flatten calls (w.send s chunks)) := by
  induction chunks generalizing s before with
  | empty => exact ⟨[], by rw [List.append_nil]; rfl, fun _ => .nil s⟩
  | more chunk rest ih =>
    rw [send_more, send_more, Supply.toList_more, List.flatten_cons]
    simp only [recorded]
    cases hfailure : (w.write s chunk).failure? with
    | some e =>
      exact ⟨[⟨chunk, w.write s chunk⟩], rfl, fun hw =>
        .failed (hw s chunk).1 (hw s chunk).2 hfailure⟩
    | none =>
      rcases ih () (w.write s chunk).state (before ++ [⟨chunk, w.write s chunk⟩]) with
        ⟨calls, hsend, hreported⟩
      refine ⟨⟨chunk, w.write s chunk⟩ :: calls, ?_, fun hw =>
        .cons (hw s chunk).2 hfailure (hreported hw)⟩
      have hcalls : before ++ ⟨chunk, w.write s chunk⟩ :: calls =
          before ++ [⟨chunk, w.write s chunk⟩] ++ calls := by simp
      change (w.recorded.send _ _).after _ = _
      rw [hsend, hcalls]
      rfl

theorem perform_singleton (w : Sink σ ε) (describe : ε → Text) (s : σ) (stage : Stage) :
    (Stage.perform w describe s [stage]).1 = w.send s stage.chunks.get := by
  rw [Stage.perform]
  cases h : (w.send s stage.chunks.get).failure? with
  | some e => rfl
  | none =>
    simp only [Stage.perform, Receipt.after, List.append_nil]
    rw [← h]

end Sink

section Persistence

namespace Receipt

/-- The receipt for nothing yet. -/
def blank (s : σ) : Receipt σ ε :=
  ⟨[], none, s⟩

/-- Offers a chunk to a sink, unless there has been a failure. -/
def offer (w : Sink σ ε) (r : Receipt σ ε) (chunk : Text) : Receipt σ ε :=
  match r.failure? with
  | some _ => r
  | none =>
    let a := w.write r.state chunk
    ⟨r.taken ++ chunk.take a.taken, a.failure?, a.state⟩

/-- Offers several chunks. -/
def offerAll (w : Sink σ ε) (r : Receipt σ ε) (chunks : List Text) : Receipt σ ε :=
  chunks.foldl (offer w) r

theorem offerAll_append (w : Sink σ ε) (r : Receipt σ ε) (chunks more : List Text) :
    r.offerAll w (chunks ++ more) = (r.offerAll w chunks).offerAll w more :=
  List.foldl_append

/-- After a failure nothing happens any more. -/
theorem offerAll_of_failure (w : Sink σ ε) {r : Receipt σ ε} {e : ε} (h : r.failure? = some e)
    (chunks : List Text) : r.offerAll w chunks = r := by
  induction chunks with
  | nil => rfl
  | cons chunk chunks ih =>
    have hoffer : r.offer w chunk = r := by rw [offer, h]
    rw [offerAll, List.foldl_cons, hoffer]
    exact ih

/-- Offering all chunks comes to the same as sending them up to the first failure. -/
theorem offerAll_eq_send (w : Sink σ ε) {r : Receipt σ ε} (h : r.failure? = none)
    (chunks : Supply Text) :
    r.offerAll w chunks.toList = (w.send r.state chunks).after r.taken := by
  induction chunks generalizing r with
  | empty =>
    rcases r with ⟨taken, failure?, s⟩
    cases h
    simp [offerAll, after]
  | more chunk rest ih =>
    have hoffer : r.offer w chunk = ⟨r.taken ++ chunk.take (w.write r.state chunk).taken,
        (w.write r.state chunk).failure?, (w.write r.state chunk).state⟩ := by rw [offer, h]
    rw [Supply.toList_more, offerAll, List.foldl_cons, hoffer, Sink.send_more]
    cases hfailure : (w.write r.state chunk).failure? with
    | some e => exact offerAll_of_failure w rfl _
    | none =>
      refine (ih () rfl).trans ?_
      simp only [after, List.append_assoc]

end Receipt

namespace Tree

open Layout

mutual

/-- Draws a tree whose leftmost leaf is to be at `x` and whose root is to be at height `y`, and
    tells where the root has been placed. The drawing goes on after a failure. -/
def drawOnto (w : Sink σ ε) (x y levels : Nat) (r : Receipt σ ε) : Tree → Nat × Receipt σ ε
  | leaf sym => (x, r.offerAll w ((drawLeaf sym x y levels).flatMap Svg.mark))
  | node sym children =>
    let (places, r) := drawAllOnto w x (y + rowHeight) (levels - 1) r children
    let root := if places.isEmpty then x else middle places
    (root, r.offerAll w ((drawNode sym root y places).flatMap Svg.mark))

/-- Draws several trees side by side. -/
def drawAllOnto (w : Sink σ ε) (x y levels : Nat) (r : Receipt σ ε) :
    List Tree → List Nat × Receipt σ ε
  | [] => ([], r)
  | t :: ts =>
    let (place, r) := drawOnto w x y levels r t
    let (places, r) := drawAllOnto w (x + t.width * leafDistance) y levels r ts
    (place :: places, r)

end

mutual

/-- Drawing a tree offers its marks, whatever becomes of them. -/
theorem drawOnto_eq (w : Sink σ ε) (x y levels : Nat) (r : Receipt σ ε) (t : Tree) :
    drawOnto w x y levels r t =
      ((draw x y levels t).1, r.offerAll w ((draw x y levels t).2.flatMap Svg.mark)) := by
  match t with
  | leaf sym =>
    rw [drawOnto, draw]
  | node sym children =>
    rw [drawOnto, drawAllOnto_eq, draw]
    simp only [List.flatMap_append, Receipt.offerAll_append]

theorem drawAllOnto_eq (w : Sink σ ε) (x y levels : Nat) (r : Receipt σ ε) (ts : List Tree) :
    drawAllOnto w x y levels r ts =
      ((drawAll x y levels ts).1, r.offerAll w ((drawAll x y levels ts).2.flatMap Svg.mark)) := by
  match ts with
  | [] =>
    rw [drawAllOnto, drawAll]
    rfl
  | t :: ts =>
    rw [drawAllOnto, drawOnto_eq, drawAll]
    simp only [drawAllOnto_eq, List.flatMap_append, Receipt.offerAll_append]

end

end Tree

namespace Svg

/-- The drawing of a tree, which goes on after a failure. -/
def drawOnto (w : Sink σ ε) (s : σ) (t : Tree) : Receipt σ ε :=
  let r := (Receipt.blank s).offerAll w (canvas t)
  let r := (t.drawOnto w Layout.leftMargin Layout.topMargin t.rows r).2
  r.offerAll w ending

/-- A drawing that goes on after a failure is one that is not made any further. -/
theorem drawOnto_eq_send (w : Sink σ ε) (s : σ) (t : Tree) :
    drawOnto w s t = w.send s (chunks t) := by
  have hall : drawOnto w s t = (Receipt.blank s).offerAll w (chunks t).toList := by
    rw [toList_chunks, pieces, Receipt.offerAll_append, Receipt.offerAll_append, drawOnto,
      Tree.drawOnto_eq, Tree.marks]
  rw [hall, Receipt.offerAll_eq_send w rfl]
  rfl

end Svg

end Persistence

section Abandonment

/-- Offers a chunk to a sink, and gives up if it fails. -/
def Sink.put (w : Sink σ ε) (chunk : Text) : ExceptT ε (StateM (Text × σ)) Unit := do
  let (taken, s) ← get
  let a := w.write s chunk
  set (taken ++ chunk.take a.taken, a.state)
  match a.failure? with
  | some e => throw e
  | none => return ()

/-- Prints a chart, and gives up at the first failure. -/
def Chart.print (w : Sink σ ε) (c : Chart) : ExceptT ε (StateM (Text × σ)) Unit :=
  forM c fun s => do
    w.put ("State " ++ Text.integer s.position ++ ":\n")
    forM s.toList fun item => w.put (item.text ++ "\n")
    w.put "\n"

/-- What has become of chunks, if they were offered until something gave up. -/
def Receipt.ofOutcome : Except ε Unit × Text × σ → Receipt σ ε
  | (.ok _, taken, s) => ⟨taken, none, s⟩
  | (.error e, taken, s) => ⟨taken, some e, s⟩

theorem Chart.print_eq_forM (w : Sink σ ε) (c : Chart) : c.print w = forM c.chunks w.put := by
  induction c with
  | nil => rfl
  | cons s c ih =>
    have hlines : forM s.lines w.put = (do
        w.put ("State " ++ Text.integer s.position ++ ":\n")
        forM s.toList fun item => w.put (item.text ++ "\n")
        w.put "\n") := by
      rw [StateSet.lines, List.cons_append, List.forM_cons, List.forM_append, List.forM_map]
      simp only [List.forM_cons, List.forM_nil, bind_pure_unit]
    rw [Chart.chunks, List.flatMap_cons, List.forM_append, hlines, ← Chart.chunks, ← ih]
    exact List.forM_cons

theorem Sink.run_put (w : Sink σ ε) (chunk taken : Text) (s : σ) :
    (w.put chunk).run.run (taken, s) =
      (match (w.write s chunk).failure? with
        | some e => .error e
        | none => .ok (),
      taken ++ chunk.take (w.write s chunk).taken, (w.write s chunk).state) := by
  have hrun : (w.put chunk).run.run (taken, s) =
      (match (w.write s chunk).failure? with
        | some e => (throw e : ExceptT ε (StateM (Text × σ)) Unit)
        | none => pure ()).run.run
      (taken ++ chunk.take (w.write s chunk).taken, (w.write s chunk).state) := rfl
  rw [hrun]
  cases (w.write s chunk).failure? <;> rfl

/-- Giving up at the first failure is not being asked for any more chunks. -/
theorem Receipt.ofOutcome_forM_put (w : Sink σ ε) (taken : Text) (s : σ) (chunks : List Text) :
    ofOutcome ((forM chunks w.put).run.run (taken, s)) =
      (w.send s (Supply.ofList chunks)).after taken := by
  induction chunks generalizing taken s with
  | nil =>
    have hsend : w.send s (Supply.ofList []) = ⟨[], none, s⟩ := rfl
    rw [hsend, after, List.append_nil]
    rfl
  | cons chunk chunks ih =>
    have hsupply : Supply.ofList (chunk :: chunks) = .more chunk fun _ => Supply.ofList chunks :=
      rfl
    rw [List.forM_cons, ExceptT.run_bind, StateT.run_bind, Sink.run_put, hsupply, Sink.send_more]
    cases (w.write s chunk).failure? with
    | some e => rfl
    | none =>
      refine (ih _ _).trans ?_
      simp only [after, List.append_assoc]

/-- What becomes of a chart that is printed. -/
def Chart.printOnto (w : Sink σ ε) (s : σ) (c : Chart) : Receipt σ ε :=
  .ofOutcome ((c.print w).run.run ([], s))

/-- Printing that gives up at the first failure is printing that is not asked for any more. -/
theorem Chart.printOnto_eq_send (w : Sink σ ε) (s : σ) (c : Chart) :
    c.printOnto w s = w.send s (Supply.ofList c.chunks) := by
  rw [printOnto, print_eq_forM, Receipt.ofOutcome_forM_put]
  rfl

end Abandonment

namespace Sink

theorem honest_bounded (failure : ε) : (bounded failure).Honest := by
  intro room chunk
  unfold bounded
  dsimp only
  by_cases h : chunk.length ≤ room
  · rw [if_pos h]
    exact ⟨Nat.le_refl _, iff_of_true rfl rfl⟩
  · rw [if_neg h]
    exact ⟨Nat.le_of_not_le h, iff_of_false (Option.some_ne_none failure) fun hall =>
      h (Nat.le_of_eq hall.symm)⟩

/-- Sending chunks delivers them. -/
theorem delivers_send {w : Sink σ ε} (hw : w.Honest) (s : σ) (chunks : Supply Text) :
    Delivers (fun _ w s => w.send s chunks) w s chunks.toList.flatten := by
  rcases send_recorded w s [] chunks with ⟨calls, hcalls, hreported⟩
  exact ⟨calls, hcalls, hreported hw⟩

theorem delivers_stage {w : Sink σ ε} (hw : w.Honest) (describe : ε → Text) (s : σ)
    (chunks : Supply Text) (complaint? : Option Text) :
    Delivers (fun _ w s => (Stage.perform w describe s
      [{ chunks := chunks, complaint? := complaint? }]).1) w s chunks.toList.flatten := by
  simp only [perform_singleton]
  exact delivers_send hw s chunks

/-- What an honest sink takes of a drawing or of a chart is the beginning of it. There is no
    call after one that fails, its failure is the one that is reported, and none is
    reported if and only if everything has been taken. This is so if a drawing goes on after a
    failure and printing a chart gives up at it, and also if chunks are not made any more. -/
theorem output_cut_at_failure (w : Sink σ ε) (hw : w.Honest) (describe : ε → Text) (s : σ) :
    (∀ t : Tree, Delivers (fun _ w s => Svg.drawOnto w s t) w s (Svg.text t) ∧
      Delivers (fun _ w s => (Stage.perform w describe s [Svg.stage t]).1) w s (Svg.text t)) ∧
    ∀ c : Chart, Delivers (fun _ w s => c.printOnto w s) w s c.text ∧
      Delivers (fun _ w s => (Stage.perform w describe s
        [{ chunks := Supply.ofList c.chunks }]).1) w s c.text := by
  constructor
  · intro t
    refine ⟨?_, delivers_stage hw describe s (Svg.chunks t) _⟩
    simp only [Svg.drawOnto_eq_send]
    exact delivers_send hw s (Svg.chunks t)
  · intro c
    have htext : (Supply.ofList c.chunks).toList.flatten = c.text := by
      rw [Supply.toList_ofList, Chart.text]
    rw [← htext]
    refine ⟨?_, delivers_stage hw describe s (Supply.ofList c.chunks) none⟩
    simp only [Chart.printOnto_eq_send]
    exact delivers_send hw s (Supply.ofList c.chunks)

/-- A sink with little room takes the beginning of a drawing and the heading of a chart. -/
theorem output_cut_at_failure_bounded :
    (bounded ()).Honest ∧
      Delivers (fun _ w s => Svg.drawOnto w s (.node "S" [.leaf "a"])) (bounded ()) 6
        (Svg.text (.node "S" [.leaf "a"])) ∧
      Svg.drawOnto (bounded ()) 6 (.node "S" [.leaf "a"]) = ⟨"<svg w", some (), 0⟩ ∧
      Delivers (fun _ w s => Chart.printOnto w s [.empty 3]) (bounded ()) 9
        (Chart.text [.empty 3]) ∧
      Chart.printOnto (bounded ()) 9 [.empty 3] = ⟨"State 3:\n", some (), 0⟩ := by
  have hw : (bounded ()).Honest := honest_bounded ()
  refine ⟨hw, ?_, ?_, ?_, ?_⟩
  · exact ((output_cut_at_failure (bounded ()) hw (fun _ => "write failed") 6).1 _).1
  · rw [Svg.drawOnto_eq_send]
    rfl
  · exact ((output_cut_at_failure (bounded ()) hw (fun _ => "write failed") 9).2 _).1
  · rfl

end Sink

end Derivations
