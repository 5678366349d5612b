import Derivations.Proofs.Tree.Address

/-!
# Tours of a Tree

What a listener is told depends on what it has answered before, so there is no telling in
advance which nodes a walk will visit. A tour is what a walk may look like from outside: the
calls to the listener, each with the address of the node it is about. On entering a node the
listener says whether the tour goes on below it. If so, the tours of the children follow, in
either order, and when the node is left their values are handed over from left to right. If
not, the node is left at once.

Nothing else has to be known about a walk. Any listener can be made to keep a record of the
calls to it, and this record is a tour, whatever the listener answers. Where the nodes lie,
which of them are visited and in which order are questions about tours, and these are settled
by induction on the tour. The addresses make the difference between parts of the tree that
look alike.

## Main definitions

* `Notice`, `Visit`: A call to a listener, and the same with the address of the node.
* `Listener.recorded`: A listener that keeps a record of the calls to it.
* `Listener.Gives`: What a listener may answer.
* `Tour`: What a walk may look like.
* `Tree.Walked`: The visits a walk makes.

## Theorems

* `Tree.exists_tour`, `Tree.exists_walked`: A walk is a tour.
-/

namespace Derivations

/-- What comes of a call to a listener. -/
inductive Response (α : Type) where
  /-- A node is entered, and the walk goes on to its children or does not. -/
  | entered (goesOn : Bool)
  /-- A node is left with a value, after those of its children if it has been passed
      through. -/
  | left (values : Option (List α)) (value : α)
  /-- A leaf is met and has a value. -/
  | met (value : α)

/-- A call to a listener: the node it is about, where the node lies, and what comes of it. -/
structure Notice (α : Type) where
  node : Tree
  context : Context
  response : Response α

/-- A call about the node at an address. -/
structure Visit (α : Type) where
  path : List Nat
  notice : Notice α

namespace Visit

variable {α : Type}

/-- A visit to a child is a visit below its parent. -/
def under (i : Nat) (v : Visit α) : Visit α :=
  ⟨i :: v.path, v.notice⟩

end Visit

/-- The parts of a walk to the children, in the order in which they are visited. -/
def Direction.order {β : Type} : Direction → List β → List β
  | .leftToRight, parts => parts
  | .rightToLeft, parts => parts.reverse

/-- The visits to children are visits below their parent, in the order of the walk. -/
def Visit.ofChildren {α : Type} (dir : Direction) (visits : List (List (Visit α))) :
    List (Visit α) :=
  (dir.order (visits.mapIdx fun i vs => vs.map (Visit.under i))).flatten

namespace Direction

variable {β γ : Type}

theorem map_order (f : β → γ) (dir : Direction) (parts : List β) :
    (dir.order parts).map f = dir.order (parts.map f) := by
  cases dir with
  | leftToRight => rfl
  | rightToLeft => exact List.map_reverse

end Direction

namespace Visit

variable {α : Type} {dir : Direction} {visits : List (List (Visit α))}

/-- Calls are made in the order of the walk. -/
theorem map_notice_ofChildren (dir : Direction) (visits : List (List (Visit α))) :
    (ofChildren dir visits).map notice = (dir.order visits).flatten.map notice := by
  have hnotice : (visits.mapIdx fun i vs => vs.map (under i)).map (List.map notice) =
      visits.map (List.map notice) := by
    apply List.ext_getElem?
    intro i
    simp [Function.comp_def, under]
  rw [ofChildren, List.map_flatten, List.map_flatten, Direction.map_order, hnotice,
    Direction.map_order]

end Visit

/-- Where one of several siblings lies, if the first of them is child number `i` and starts
    at a given position. -/
def Context.sibling (level : Nat) (start : UInt64) (i : Nat) (ts : List Tree) (j : Nat) : Context :=
  ⟨⟨start + UInt64.ofNat (Tree.leafCountAll (ts.take j)),
    start + UInt64.ofNat (Tree.leafCountAll (ts.take (j + 1)))⟩, level, some (i + j)⟩

/-- Where child number `i` lies if the parent lies in a given context. -/
def Context.child (c : Context) (children : List Tree) (i : Nat) : Context :=
  sibling (c.level + 1) c.span.start 0 children i

namespace Listener

variable {σ α : Type}

/-- What a listener may answer to a call, in any of its states. -/
inductive Gives (l : Listener σ α) : Notice α → Prop where
  | entered (sym : Symbol) (children : List Tree) (c : Context) (s : σ) :
    Gives l ⟨.node sym children, c, .entered ((l.enter sym children c).run s).1⟩
  | left (sym : Symbol) (children : List Tree) (values : Option (List α)) (c : Context) (s : σ) :
    Gives l ⟨.node sym children, c, .left values ((l.exit sym children values c).run s).1⟩
  | met (sym : Symbol) (c : Context) (s : σ) :
    Gives l ⟨.leaf sym, c, .met ((l.terminal sym c).run s).1⟩

/-- An answer, with the call put on record. -/
def record {β : Type} (answer : StateM σ β) (notice : β → Notice α) :
    StateM (σ × List (Notice α)) β :=
  fun s => ((answer.run s.1).1, (answer.run s.1).2, s.2 ++ [notice (answer.run s.1).1])

/-- The listener that keeps a record of the calls to it beside its state. -/
def recorded (l : Listener σ α) : Listener (σ × List (Notice α)) α where
  enter sym children c :=
    record (l.enter sym children c) fun goesOn => ⟨.node sym children, c, .entered goesOn⟩
  exit sym children values c :=
    record (l.exit sym children values c) fun value => ⟨.node sym children, c, .left values value⟩
  terminal sym c := record (l.terminal sym c) fun value => ⟨.leaf sym, c, .met value⟩

theorem run_recorded_enter (l : Listener σ α) (sym : Symbol) (children : List Tree) (c : Context)
    (s : σ) (notices : List (Notice α)) :
    (l.recorded.enter sym children c).run (s, notices) =
      (((l.enter sym children c).run s).1, ((l.enter sym children c).run s).2,
        notices ++ [⟨.node sym children, c, .entered ((l.enter sym children c).run s).1⟩]) :=
  rfl

theorem run_recorded_exit (l : Listener σ α) (sym : Symbol) (children : List Tree)
    (values : Option (List α)) (c : Context) (s : σ) (notices : List (Notice α)) :
    (l.recorded.exit sym children values c).run (s, notices) =
      (((l.exit sym children values c).run s).1, ((l.exit sym children values c).run s).2,
        notices ++
          [⟨.node sym children, c, .left values ((l.exit sym children values c).run s).1⟩]) :=
  rfl

end Listener

/-- The visits to a tree that lies in a given context, and the value they end with. What the
    listener may answer to a call is left open. -/
inductive Tour {α : Type} (gives : Notice α → Prop) (dir : Direction) :
    Context → Tree → List (Visit α) → α → Prop where
  | leaf {sym : Symbol} {c : Context} {value : α} (met : gives ⟨.leaf sym, c, .met value⟩) :
    Tour gives dir c (.leaf sym) [⟨[], .leaf sym, c, .met value⟩] value
  | skip {sym : Symbol} {children : List Tree} {c : Context} {value : α}
      (entered : gives ⟨.node sym children, c, .entered false⟩)
      (left : gives ⟨.node sym children, c, .left none value⟩) :
    Tour gives dir c (.node sym children)
      [⟨[], .node sym children, c, .entered false⟩,
        ⟨[], .node sym children, c, .left none value⟩] value
  | pass {sym : Symbol} {children : List Tree} {c : Context} {value : α}
      (visits : List (List (Visit α))) (values : List α)
      (hvisits : visits.length = children.length) (hvalues : values.length = children.length)
      (entered : gives ⟨.node sym children, c, .entered true⟩)
      (below : ∀ i child vs v, children[i]? = some child → visits[i]? = some vs →
        values[i]? = some v → Tour gives dir (c.child children i) child vs v)
      (left : gives ⟨.node sym children, c, .left (some values) value⟩) :
    Tour gives dir c (.node sym children)
      (⟨[], .node sym children, c, .entered true⟩ :: Visit.ofChildren dir visits ++
        [⟨[], .node sym children, c, .left (some values) value⟩]) value

namespace Tree

variable {σ α : Type}

-- What is done first hands its state on.
theorem run_bind {β γ : Type} (m : StateM σ β) (f : β → StateM σ γ) (s : σ) :
    (m >>= f).run s = (f (m.run s).1).run (m.run s).2 :=
  rfl

theorem run_walkIn_skip {l : Listener σ α} {c : Context} {sym : Symbol} {children : List Tree}
    {s : σ} (h : ((l.enter sym children c).run s).1 = false) (dir : Direction) :
    (walkIn l dir c (node sym children)).run s =
      (l.exit sym children none c).run ((l.enter sym children c).run s).2 := by
  rw [walkIn, run_bind, h]
  rfl

theorem run_walkIn_pass {l : Listener σ α} {c : Context} {sym : Symbol} {children : List Tree}
    {s : σ} (h : ((l.enter sym children c).run s).1 = true) (dir : Direction) :
    (walkIn l dir c (node sym children)).run s =
      (do
        let values ← walkAll l dir (c.level + 1) c.span.start 0 children
        l.exit sym children (some values) c).run ((l.enter sym children c).run s).2 := by
  rw [walkIn, run_bind, h]
  rfl

theorem run_walkAll_cons (l : Listener σ α) (dir : Direction) (level : Nat) (start : UInt64)
    (i : Nat) (t : Tree) (ts : List Tree) (s : σ) :
    (walkAll l dir level start i (t :: ts)).run s =
      let here := walkIn l dir ⟨⟨start, start + UInt64.ofNat t.leafCount⟩, level, some i⟩ t
      let there := walkAll l dir level (start + UInt64.ofNat t.leafCount) (i + 1) ts
      match dir with
      | .leftToRight =>
        ((here.run s).1 :: (there.run (here.run s).2).1, (there.run (here.run s).2).2)
      | .rightToLeft =>
        ((here.run (there.run s).2).1 :: (there.run s).1, (here.run (there.run s).2).2) := by
  cases dir with
  | leftToRight => rw [walkAll]; rfl
  | rightToLeft => rw [walkAll]; rfl

-- The first sibling and those behind it.
theorem sibling_zero (level : Nat) (start : UInt64) (i : Nat) (t : Tree) (ts : List Tree) :
    Context.sibling level start i (t :: ts) 0 =
      ⟨⟨start, start + UInt64.ofNat t.leafCount⟩, level, some i⟩ := by
  simp [Context.sibling, leafCountAll]

theorem sibling_succ (level : Nat) (start : UInt64) (i : Nat) (t : Tree) (ts : List Tree)
    (j : Nat) :
    Context.sibling level start i (t :: ts) (j + 1) =
      Context.sibling level (start + UInt64.ofNat t.leafCount) (i + 1) ts j := by
  simp only [Context.sibling, List.take_succ_cons, leafCountAll, UInt64.ofNat_add,
    UInt64.add_assoc, Nat.add_assoc, Nat.add_comm 1 j]

/-- Siblings have their tours if the first of them has and the others have. -/
theorem tours_cons {gives : Notice α → Prop} {dir : Direction} {level : Nat} {start : UInt64}
    {i : Nat} {t : Tree} {ts : List Tree} {vs : List (Visit α)} {v : α}
    {visits : List (List (Visit α))} {values : List α}
    (hfirst : Tour gives dir ⟨⟨start, start + UInt64.ofNat t.leafCount⟩, level, some i⟩ t vs v)
    (hrest : ∀ j child ws w, ts[j]? = some child → visits[j]? = some ws → values[j]? = some w →
      Tour gives dir (.sibling level (start + UInt64.ofNat t.leafCount) (i + 1) ts j) child ws w) :
    ∀ j child ws w, (t :: ts)[j]? = some child → (vs :: visits)[j]? = some ws →
      (v :: values)[j]? = some w →
        Tour gives dir (.sibling level start i (t :: ts) j) child ws w := by
  intro j child ws w hchild hws hw
  cases j with
  | zero =>
    cases hchild
    cases hws
    cases hw
    rw [sibling_zero]
    exact hfirst
  | succ j =>
    rw [sibling_succ]
    exact hrest j child ws w hchild hws hw

mutual

/-- A walk is a tour, and it makes no difference to the walk that a record is kept. -/
theorem exists_tour (l : Listener σ α) (dir : Direction) (c : Context) (t : Tree) (s : σ)
    (notices : List (Notice α)) :
    ∃ visits, (walkIn l.recorded dir c t).run (s, notices) =
        (((walkIn l dir c t).run s).1, ((walkIn l dir c t).run s).2,
          notices ++ visits.map Visit.notice) ∧
      Tour l.Gives dir c t visits ((walkIn l dir c t).run s).1 := by
  match t with
  | leaf sym =>
    rw [walkIn, walkIn]
    exact ⟨_, rfl, .leaf (.met sym c s)⟩
  | node sym children =>
    have hentered := Listener.Gives.entered (l := l) sym children c s
    have hanswer := l.run_recorded_enter sym children c s notices
    -- The answer on entering decides about how the tour goes on.
    cases h : ((l.enter sym children c).run s).1 with
    | false =>
      rw [h] at hentered hanswer
      rw [run_walkIn_skip h, run_walkIn_skip (by rw [hanswer]), hanswer,
        Listener.run_recorded_exit, List.append_assoc]
      exact ⟨_, rfl, .skip hentered (.left sym children none c _)⟩
    | true =>
      rw [h] at hentered hanswer
      rcases exists_tours l dir (c.level + 1) c.span.start 0 children
        ((l.enter sym children c).run s).2
        (notices ++ [⟨.node sym children, c, .entered true⟩]) with
        ⟨visits, hrun, hvisits, hvalues, hbelow⟩
      rw [run_walkIn_pass h, run_walkIn_pass (by rw [hanswer]), hanswer, run_bind, run_bind, hrun,
        Listener.run_recorded_exit, ← Visit.map_notice_ofChildren]
      refine ⟨_, ?_, .pass visits _ hvisits hvalues hentered hbelow (.left sym children _ c _)⟩
      simp only [List.map_cons, List.map_append, List.map_nil, List.append_assoc,
        List.cons_append, List.nil_append]

/-- The walk to siblings consists of their tours, in the order of the walk. -/
theorem exists_tours (l : Listener σ α) (dir : Direction) (level : Nat) (start : UInt64) (i : Nat)
    (ts : List Tree) (s : σ) (notices : List (Notice α)) :
    ∃ visits, (walkAll l.recorded dir level start i ts).run (s, notices) =
        (((walkAll l dir level start i ts).run s).1, ((walkAll l dir level start i ts).run s).2,
          notices ++ (dir.order visits).flatten.map Visit.notice) ∧
      visits.length = ts.length ∧
      ((walkAll l dir level start i ts).run s).1.length = ts.length ∧
      ∀ j child vs v, ts[j]? = some child → visits[j]? = some vs →
        ((walkAll l dir level start i ts).run s).1[j]? = some v →
          Tour l.Gives dir (.sibling level start i ts j) child vs v := by
  match ts with
  | [] =>
    refine ⟨[], ?_, rfl, by rw [walkAll]; rfl, fun j child _ _ h => absurd h (by simp)⟩
    rw [walkAll, walkAll]
    cases dir <;> simp [Direction.order] <;> rfl
  | t :: ts =>
    rw [run_walkAll_cons, run_walkAll_cons]
    cases dir with
    | leftToRight =>
      rcases exists_tour l .leftToRight ⟨⟨start, start + UInt64.ofNat t.leafCount⟩, level, some i⟩ t
        s notices with ⟨vs, hhere, htour⟩
      rcases exists_tours l .leftToRight level (start + UInt64.ofNat t.leafCount) (i + 1) ts _
        (notices ++ vs.map Visit.notice) with ⟨visits, hthere, hvisits, hvalues, htours⟩
      refine ⟨vs :: visits, ?_, congrArg Nat.succ hvisits, congrArg Nat.succ hvalues,
        tours_cons htour htours⟩
      simp only [hhere, hthere]
      simp [Direction.order]
    | rightToLeft =>
      rcases exists_tours l .rightToLeft level (start + UInt64.ofNat t.leafCount) (i + 1) ts s
        notices with ⟨visits, hthere, hvisits, hvalues, htours⟩
      rcases exists_tour l .rightToLeft ⟨⟨start, start + UInt64.ofNat t.leafCount⟩, level, some i⟩ t
        _ (notices ++ ((Direction.order .rightToLeft visits).flatten.map Visit.notice)) with
        ⟨vs, hhere, htour⟩
      refine ⟨vs :: visits, ?_, congrArg Nat.succ hvisits, congrArg Nat.succ hvalues,
        tours_cons htour htours⟩
      simp only [hhere, hthere]
      simp [Direction.order]

end

/-- A walk makes these visits: they are what a listener that keeps a record is told, and keeping
    a record makes no difference to the walk. -/
def Walked (t : Tree) (l : Listener σ α) (dir : Direction) (s : σ)
    (visits : List (Visit α)) : Prop :=
  (t.walk l.recorded dir).run (s, []) =
    (((t.walk l dir).run s).1, ((t.walk l dir).run s).2, visits.map Visit.notice)

/-- What the calls tell about the visits can be read in the record. -/
theorem Walked.map_notice {β : Type} {t : Tree} {l : Listener σ α} {dir : Direction} {s : σ}
    {visits : List (Visit α)} (h : t.Walked l dir s visits) (f : Notice α → β) :
    visits.map (fun v => f v.notice) = ((t.walk l.recorded dir).run (s, [])).2.2.map f := by
  rw [h, List.map_map]
  rfl

/-- Whatever the listener answers, a walk is a tour. -/
theorem exists_walked (t : Tree) (l : Listener σ α) (dir : Direction) (s : σ) :
    ∃ visits, t.Walked l dir s visits ∧
      Tour l.Gives dir t.rootContext t visits ((t.walk l dir).run s).1 :=
  exists_tour l dir t.rootContext t s []

end Tree

end Derivations
