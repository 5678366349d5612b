import Derivations.Proofs.Tree.Toured
import Mathlib.Data.List.Forall2

/-!
# Walks from the Right

A walk from right to left is not a walk from left to right backwards: a listener is told
about nodes in another order, and if its answers depend on what it has been told before, the
two walks may even visit different nodes. The answers of a steady listener depend on nothing
but what it is asked. Its two walks make the same visits with the same responses, and in
particular every node is left with the same values, which come in the order of the children in
either case. If the calls of one walk are read backwards, so that what was entered is left and
what was left is entered, they are the calls of the other.

The values have no part in the mirror image, since they are not there yet when a node is
entered. That they are the same is a statement of its own.

## Main definitions

* `Listener.Steady`: Answers do not depend on the state.
* `Occasion`, `Occasion.mirrored`: A visit without its response, and how it looks from the other
  end.
* `Visit.HandsOver`: Nodes are left with the values of their children, in order.

## Theorems

* `Tour.mirrors`: The tour from the right mirrors the tour from the left.
* `Tour.handsOver`: Values are handed over in the order of the children.
* `Tree.rightToLeft_mirrors`: A walk from the right mirrors the walk from the left.
-/

namespace Derivations

/-- A listener whose answers do not depend on its state. -/
structure Listener.Steady {σ α : Type} (l : Listener σ α) : Prop where
  enter : ∀ sym children c s s',
    ((l.enter sym children c).run s).1 = ((l.enter sym children c).run s').1
  exit : ∀ sym children values c s s',
    ((l.exit sym children values c).run s).1 = ((l.exit sym children values c).run s').1
  terminal : ∀ sym c s s', ((l.terminal sym c).run s).1 = ((l.terminal sym c).run s').1

/-- There is at most one answer to every call. -/
structure Decided {α : Type} (gives : Notice α → Prop) : Prop where
  entered : ∀ (node : Tree) (c : Context) (goesOn goesOn' : Bool),
    gives ⟨node, c, .entered goesOn⟩ → gives ⟨node, c, .entered goesOn'⟩ → goesOn = goesOn'
  left : ∀ (node : Tree) (c : Context) (values : Option (List α)) (value value' : α),
    gives ⟨node, c, .left values value⟩ → gives ⟨node, c, .left values value'⟩ → value = value'
  met : ∀ (node : Tree) (c : Context) (value value' : α),
    gives ⟨node, c, .met value⟩ → gives ⟨node, c, .met value'⟩ → value = value'

theorem Listener.Steady.decided {σ α : Type} {l : Listener σ α} (hl : l.Steady) :
    Decided l.Gives where
  entered _ c _ _ h h' := by
    cases h with
    | entered sym children _ s =>
      cases h' with
      | entered _ _ _ s' => exact hl.enter sym children c s s'
  left _ c values _ _ h h' := by
    cases h with
    | left sym children _ _ s =>
      cases h' with
      | left _ _ _ _ s' => exact hl.exit sym children values c s s'
  met _ c _ _ h h' := by
    cases h with
    | met sym _ s =>
      cases h' with
      | met _ _ s' => exact hl.terminal sym c s s'

/-- What happens on a visit, apart from its response. -/
inductive Moment where
  | entered
  | left
  | met
deriving DecidableEq, Repr

/-- A visit without its response. -/
structure Occasion where
  path : List Nat
  node : Tree
  context : Context
  moment : Moment

/-- What happens, seen from the other end. -/
def Moment.mirrored : Moment → Moment
  | entered => left
  | left => entered
  | met => met

/-- A visit seen from the other end. -/
def Occasion.mirrored (e : Occasion) : Occasion :=
  { e with moment := e.moment.mirrored }

namespace Response

variable {α : Type}

/-- What happens on the visit. -/
def moment : Response α → Moment
  | entered _ => .entered
  | left _ _ => .left
  | met _ => .met

/-- The value of the node, once there is one. -/
def value? : Response α → Option α
  | entered _ => none
  | left _ value => some value
  | met value => some value

end Response

namespace Visit

variable {α : Type}

/-- The visit without its response. -/
def occasion (v : Visit α) : Occasion :=
  ⟨v.path, v.notice.node, v.notice.context, v.notice.response.moment⟩

/-- A node that has been passed through is left with one value for every child, and each is
    the value with which the child has been left or met. -/
def HandsOver (visits : List (Visit α)) : Prop :=
  ∀ v ∈ visits, ∀ values value, v.notice.response = .left (some values) value →
    values.length = v.notice.node.children.length ∧
      ∀ i x, values[i]? = some x →
        ∃ w ∈ visits, w.path = v.path ++ [i] ∧ w.notice.response.value? = some x

/-- Visits are the mirror image of others: they are the same visits, and if they are read
    backwards, what was entered is left and what was left is entered. -/
def Mirrors (others visits : List (Visit α)) : Prop :=
  others.Perm visits ∧ others.map occasion = (visits.map occasion).reverse.map Occasion.mirrored

theorem Mirrors.append {others visits others' visits' : List (Visit α)}
    (h : Mirrors others visits) (h' : Mirrors others' visits') :
    Mirrors (others' ++ others) (visits ++ visits') := by
  refine ⟨List.perm_append_comm.trans (h.1.append h'.1), ?_⟩
  rw [List.map_append, List.map_append, List.reverse_append, List.map_append, h.2, h'.2]

theorem Mirrors.under {others visits : List (Visit α)} (h : Mirrors others visits) (i : Nat) :
    Mirrors (others.map (Visit.under i)) (visits.map (Visit.under i)) := by
  have hshift (vs : List (Visit α)) : (vs.map (Visit.under i)).map occasion =
      (vs.map occasion).map fun e => { e with path := i :: e.path } := by
    simp [Function.comp_def, occasion, Visit.under]
  refine ⟨h.1.map _, ?_⟩
  rw [hshift, hshift, h.2]
  simp [Function.comp_def, Occasion.mirrored]

/-- Parts that mirror each other are put together from the other end. -/
theorem mirrors_flatten {parts others : List (List (Visit α))}
    (h : List.Forall₂ Mirrors others parts) : Mirrors others.reverse.flatten parts.flatten := by
  induction h with
  | nil => exact ⟨.refl _, rfl⟩
  | cons first _ ih =>
    rw [List.reverse_cons, List.flatten_append, List.flatten_cons, List.flatten_cons,
      List.flatten_nil, List.append_nil]
    exact first.append ih

/-- If the tours of the children mirror each other, so does what is visited below the node. -/
theorem mirrors_ofChildren {visits others : List (List (Visit α))}
    (hlength : others.length = visits.length)
    (h : ∀ (i : Nat) (vs ws : List (Visit α)), visits[i]? = some vs → others[i]? = some ws →
      Mirrors ws vs) :
    Mirrors (ofChildren .rightToLeft others) (ofChildren .leftToRight visits) := by
  have hbelow : List.Forall₂ Mirrors (others.mapIdx fun i ws => ws.map (under i))
      (visits.mapIdx fun i vs => vs.map (under i)) := by
    refine List.forall₂_iff_get.2 ⟨by simpa using hlength, fun i hi hi' => ?_⟩
    simp only [List.get_eq_getElem, List.getElem_mapIdx]
    rw [List.length_mapIdx] at hi hi'
    exact (h i _ _ (List.getElem?_eq_getElem hi') (List.getElem?_eq_getElem hi)).under i
  exact mirrors_flatten hbelow

end Visit

namespace Tour

variable {α : Type} {gives : Notice α → Prop} {dir : Direction} {c : Context} {t : Tree}
  {visits others : List (Visit α)} {value value' : α}

/-- If there is at most one answer to every call, the tour from the right mirrors the tour from
    the left and ends with the same value. -/
theorem mirrors (hd : Decided gives) (h : Tour gives .leftToRight c t visits value)
    (h' : Tour gives .rightToLeft c t others value') :
    value' = value ∧ Visit.Mirrors others visits := by
  induction h generalizing others value' with
  | leaf met =>
    cases h' with
    | leaf met' =>
      have hvalue := hd.met _ _ _ _ met' met
      subst hvalue
      exact ⟨rfl, .refl _, rfl⟩
  | skip entered left =>
    cases h' with
    | skip _ left' =>
      have hvalue := hd.left _ _ _ _ _ left' left
      subst hvalue
      exact ⟨rfl, .refl _, rfl⟩
    -- The node is entered with the same answer in either direction.
    | pass _ _ _ _ entered' => exact absurd (hd.entered _ _ _ _ entered entered') Bool.false_ne_true
  | @pass sym children c value visits values hvisits hvalues entered below left ih =>
    cases h' with
    | skip entered' => exact absurd (hd.entered _ _ _ _ entered' entered) Bool.false_ne_true
    | pass visits' values' hvisits' hvalues' _ below' left' =>
      -- The children have the same values, so the node is left with the same value.
      have hsame : values' = values := by
        refine List.ext_getElem (hvalues'.trans hvalues.symm) fun i hi' hi => ?_
        have hvs := List.getElem?_eq_getElem (l := visits) (i := i) (by omega)
        have hws := List.getElem?_eq_getElem (l := visits') (i := i) (by omega)
        have hchild := List.getElem?_eq_getElem (l := children) (i := i) (by omega)
        exact (ih i _ _ _ hchild hvs (List.getElem?_eq_getElem hi)
          (below' i _ _ _ hchild hws (List.getElem?_eq_getElem hi'))).1
      subst hsame
      have hvalue := hd.left _ _ _ _ _ left' left
      subst hvalue
      -- The children mirror each other one by one, and they come in the opposite order.
      have hchildren : Visit.Mirrors (Visit.ofChildren .rightToLeft visits')
          (Visit.ofChildren .leftToRight visits) := by
        refine Visit.mirrors_ofChildren (hvisits'.trans hvisits.symm) fun i vs ws hvs hws => ?_
        rcases exists_child_of_tour hvisits hvalues hvs with ⟨child, x, hchild, hx⟩
        exact (ih i child vs x hchild hvs hx (below' i child ws x hchild hws hx)).2
      refine ⟨rfl, (hchildren.1.cons _).append_right _, ?_⟩
      simp only [List.map_append, List.map_cons, List.map_nil, List.reverse_append,
        List.reverse_cons, List.reverse_nil, hchildren.2]
      rfl

/-- A tour ends with the value with which its root is left or met. -/
theorem exists_value (h : Tour gives dir c t visits value) :
    ∃ v ∈ visits, v.path = [] ∧ v.notice.response.value? = some value := by
  cases h with
  | leaf met => exact ⟨_, List.mem_singleton_self _, rfl, rfl⟩
  | skip entered left => exact ⟨_, List.mem_cons_of_mem _ (List.mem_singleton_self _), rfl, rfl⟩
  | pass visits values hvisits hvalues entered below left =>
    exact ⟨_, List.mem_append_right _ (List.mem_singleton_self _), rfl, rfl⟩

/-- The values of the children are handed over in the order of the children, in whichever
    order the children have been visited. -/
theorem handsOver (h : Tour gives dir c t visits value) : Visit.HandsOver visits := by
  induction h with
  | leaf met =>
    intro v hv values value hleft
    rw [List.mem_singleton.1 hv] at hleft
    cases hleft
  | skip entered left =>
    intro v hv values value hleft
    rw [List.mem_cons, List.mem_singleton] at hv
    rcases hv with rfl | rfl
    · cases hleft
    · cases hleft
  | @pass sym children c value visits values hvisits hvalues entered below left ih =>
    intro v hv values' value' hleft
    rcases Visit.mem_around_iff.1 hv with rfl | ⟨i, vs, w, hvs, hw, rfl⟩ | rfl
    · cases hleft
    · rcases exists_child_of_tour hvisits hvalues hvs with ⟨child, x, hchild, hx⟩
      rcases ih i child vs x hchild hvs hx w hw values' value' hleft with ⟨hlength, hbelow⟩
      refine ⟨hlength, fun j y hy => ?_⟩
      rcases hbelow j y hy with ⟨u, hu, hpath, hvalue⟩
      exact ⟨u.under i, Visit.mem_around_iff.2 (.inr (.inl ⟨i, vs, u, hvs, hu, rfl⟩)),
        congrArg (i :: ·) hpath, hvalue⟩
    · cases hleft
      -- The value of a child is that with which its tour ends.
      refine ⟨hvalues, fun i x hx => ?_⟩
      rcases exists_getElem?_of_length_eq hvalues hx with ⟨child, hchild⟩
      rcases exists_getElem?_of_length_eq hvisits.symm hchild with ⟨vs, hvs⟩
      rcases (below i child vs x hchild hvs hx).exists_value with ⟨u, hu, hpath, hvalue⟩
      exact ⟨u.under i, Visit.mem_around_iff.2 (.inr (.inl ⟨i, vs, u, hvs, hu, rfl⟩)),
        congrArg (i :: ·) hpath, hvalue⟩

end Tour

namespace Tree

variable {σ α : Type}

/-- If the answers of a listener do not depend on what it has been told before, a walk from
    right to left returns the same value as a walk from left to right. The two walks make the
    same visits with the same responses, so nodes are left with the same values, and these come
    in the order of the children. Read backwards, with entering and leaving exchanged, the
    calls of one walk are the calls of the other, contexts included. Walks in directions other
    than minus one are walks from left to right. -/
theorem rightToLeft_mirrors (t : Tree) (l : Listener σ α) :
    (l.Steady → ∀ s s' : σ, ∃ visits mirrored : List (Visit α),
      t.Walked l .leftToRight s visits ∧ t.Walked l .rightToLeft s' mirrored ∧
      t.Toured visits ∧ t.Toured mirrored ∧
      ((t.walk l .rightToLeft).run s').1 = ((t.walk l .leftToRight).run s).1 ∧
      mirrored.Perm visits ∧
      mirrored.map Visit.occasion = (visits.map Visit.occasion).reverse.map Occasion.mirrored ∧
      Visit.HandsOver visits ∧ Visit.HandsOver mirrored) ∧
    t.walk l (.ofInt (-1)) = t.walk l .rightToLeft ∧
    ∀ n : Int, n ≠ -1 → t.walk l (.ofInt n) = t.walk l .leftToRight := by
  refine ⟨fun hl s s' => ?_, rfl, fun n hn => by rw [Direction.ofInt, if_neg hn]⟩
  rcases exists_walked t l .leftToRight s with ⟨visits, hwalked, htour⟩
  rcases exists_walked t l .rightToLeft s' with ⟨mirrored, hwalked', htour'⟩
  rcases htour.mirrors hl.decided htour' with ⟨hvalue, hperm, hoccasions⟩
  exact ⟨visits, mirrored, hwalked, hwalked', toured_of_tour htour, toured_of_tour htour', hvalue,
    hperm, hoccasions, htour.handsOver, htour'.handsOver⟩

/-- A listener that passes by `D` and reads values as the digits of a number. It counts its
    calls, but does not answer by the count. -/
def digits : Listener Nat Nat where
  enter sym _ _ := modifyGet fun calls => (decide (sym ≠ "D"), calls + 1)
  exit _ _ values _ := modifyGet fun calls =>
    ((values.getD [9]).foldl (fun n digit => 10 * n + digit) 0, calls + 1)
  terminal sym _ := modifyGet fun calls => (if sym = "a" then 1 else 2, calls + 1)

theorem steady_digits : digits.Steady where
  enter _ _ _ _ _ := rfl
  exit _ _ _ _ _ _ := rfl
  terminal _ _ _ _ := rfl

/-- The children of the root have the values 10, 0 and 29, whichever of them is visited
    first. -/
theorem rightToLeft_mirrors_lopsided :
    digits.Steady ∧ ((lopsided.walk digits .rightToLeft).run 5).1 = 1029 ∧
      lopsided.walk digits (.ofInt 7) = lopsided.walk digits .leftToRight ∧
      ∃ visits mirrored : List (Visit Nat),
        mirrored.map Visit.occasion = (visits.map Visit.occasion).reverse.map Occasion.mirrored ∧
        ((visits.map Visit.occasion).map fun e => (e.node.symbol, e.moment)) =
          ([("S", .entered), ("A", .entered), ("a", .met), ("B", .entered), ("B", .left),
            ("A", .left), ("B", .entered), ("B", .left), ("C", .entered), ("c", .met),
            ("D", .entered), ("D", .left), ("C", .left), ("S", .left)] :
            List (Symbol × Moment)) := by
  rcases rightToLeft_mirrors lopsided digits with ⟨hmirrors, -, hofInt⟩
  rcases hmirrors steady_digits 0 5 with
    ⟨visits, mirrored, hwalked, -, -, -, hvalue, -, hoccasions, -, -⟩
  have hleft : ((lopsided.walk digits .leftToRight).run 0).1 = 1029 := by decide +kernel
  refine ⟨steady_digits, hvalue.trans hleft, hofInt 7 (by decide), visits, mirrored, hoccasions, ?_⟩
  have hoccasion : ((visits.map Visit.occasion).map fun e => (e.node.symbol, e.moment)) =
      visits.map fun v => (v.notice.node.symbol, v.notice.response.moment) := by
    rw [List.map_map]
    rfl
  rw [hoccasion, hwalked.map_notice fun notice => (notice.node.symbol, notice.response.moment)]
  decide +kernel

end Tree

end Derivations
