import Derivations.Proofs.Tree.Tour

/-!
# What a Tour Visits

A tour visits the root of the tree, and every node whose parent it goes on from. So a node is
left out if and only if a node above it is skipped. A node that is visited is entered and
left, with whatever happens below it in between, and a leaf is met once. All of this holds
whatever the listener decides and in whichever order children are visited, since visits below
different children have addresses of which none begins the other.

With every call comes the context of the node at the address of the call. Spans are 64-bit
words, so they tell the extent of the node in the frontier modulo 2^64; for trees that have
fewer leaves they are the extent.

## Main definitions

* `Visit.Precedes`: The order in which visits may come.
* `Visit.Reaches`, `Visit.Skips`, `Visit.Open`: What has happened at an address and above it.
* `Tree.Told`: What is told about a node that is visited.
* `Tree.Toured`: A tree has been visited as it should be.

## Theorems

* `Tour.located`: Visits are told where their nodes lie.
* `Tour.told`: Nodes are entered and left once, and leaves met once.
* `Tour.reaches_iff`: A node is left out if a node above it is skipped.
* `Tour.ordered`: Whatever happens below a node happens between entering and leaving it.
* `Tree.walk_keeps_place`: A walk visits the tree as it should.
-/

namespace Derivations

namespace Direction

variable {β γ : Type}

theorem mem_order (dir : Direction) (parts : List β) (part : β) :
    part ∈ dir.order parts ↔ part ∈ parts := by
  cases dir with
  | leftToRight => rfl
  | rightToLeft => exact List.mem_reverse

theorem flatten_order_nil_cons (dir : Direction) (parts : List (List γ)) :
    (dir.order ([] :: parts)).flatten = (dir.order parts).flatten := by
  cases dir with
  | leftToRight => rfl
  | rightToLeft => simp [order]

theorem flatten_order_cons_of_eq_nil {dir : Direction} {parts : List (List γ)}
    (h : (dir.order parts).flatten = []) (part : List γ) :
    (dir.order (part :: parts)).flatten = part := by
  cases dir with
  | leftToRight => rw [order, List.flatten_cons, show parts.flatten = [] from h, List.append_nil]
  | rightToLeft =>
    rw [order, List.reverse_cons, List.flatten_append, show parts.reverse.flatten = [] from h]
    simp

-- Only one of the parts has anything in it.
theorem flatten_order_mapIdx (f : β → List γ) (dir : Direction) (parts : List β) (i : Nat) :
    (dir.order (parts.mapIdx fun j part => if j = i then f part else [])).flatten =
      (parts[i]?.map f).getD [] := by
  induction parts generalizing i with
  | nil => cases dir <;> rfl
  | cons part parts ih =>
    rw [List.mapIdx_cons]
    cases i with
    | zero =>
      have hrest : (dir.order (parts.mapIdx fun j part =>
          if j + 1 = 0 then f part else [])).flatten = [] := by
        rw [List.flatten_eq_nil_iff]
        intro l hl
        rcases List.mem_mapIdx.1 ((mem_order dir _ l).1 hl) with ⟨j, _, rfl⟩
        exact if_neg (Nat.succ_ne_zero j)
      rw [flatten_order_cons_of_eq_nil hrest]
      rfl
    | succ i =>
      rw [if_neg (Nat.succ_ne_zero i).symm, flatten_order_nil_cons, List.getElem?_cons_succ, ← ih i]
      simp only [Nat.add_right_cancel_iff]

end Direction

namespace Visit

variable {α : Type} {dir : Direction} {visits : List (List (Visit α))}

/-- One visit may come before another: a node is entered before anything else happens there
    or below it, and nothing happens there or below it after it has been left. A leaf is met
    once. -/
def Precedes (v w : Visit α) : Prop :=
  (∀ goesOn, w.notice.response = .entered goesOn → ¬w.path <+: v.path) ∧
    (∀ values value, v.notice.response = .left values value → ¬v.path <+: w.path) ∧
    ∀ value, v.notice.response = .met value → v.path ≠ w.path

/-- What is visited below a node is visited below one of its children. -/
theorem mem_ofChildren_iff {w : Visit α} :
    w ∈ ofChildren dir visits ↔
      ∃ i vs, ∃ v : Visit α, visits[i]? = some vs ∧ v ∈ vs ∧ w = v.under i := by
  rw [ofChildren, List.mem_flatten]
  constructor
  · rintro ⟨l, hl, hw⟩
    rcases List.mem_mapIdx.1 ((Direction.mem_order dir _ l).1 hl) with ⟨i, hi, rfl⟩
    rcases List.mem_map.1 hw with ⟨v, hv, rfl⟩
    exact ⟨i, _, v, List.getElem?_eq_getElem hi, hv, rfl⟩
  · rintro ⟨i, vs, v, hvs, hv, rfl⟩
    rcases List.getElem?_eq_some_iff.1 hvs with ⟨hi, rfl⟩
    exact ⟨_, (Direction.mem_order dir _ _).2 (List.mem_mapIdx.2 ⟨i, hi, rfl⟩),
      List.mem_map_of_mem hv⟩

/-- What is visited when a node is passed through: the node, what is below it, and the node
    again. -/
theorem mem_around_iff {first last w : Visit α} :
    w ∈ first :: ofChildren dir visits ++ [last] ↔
      w = first ∨ (∃ i vs, ∃ v : Visit α, visits[i]? = some vs ∧ v ∈ vs ∧ w = v.under i) ∨
        w = last := by
  rw [List.cons_append, List.mem_cons, List.mem_append, List.mem_singleton, mem_ofChildren_iff]

/-- The visits to an address below a child are visits of the tour of that child. -/
theorem filter_ofChildren (dir : Direction) (visits : List (List (Visit α))) (i : Nat)
    (path : List Nat) :
    (ofChildren dir visits).filter (fun w => decide (w.path = i :: path)) =
      ((visits[i]?.map fun vs => (vs.filter fun v => decide (v.path = path)).map
        (under i)).getD []) := by
  have hfilter : (visits.mapIdx fun j vs => vs.map (under j)).map
        (List.filter fun w => decide (w.path = i :: path)) =
      visits.mapIdx fun j vs =>
        if j = i then (vs.filter fun v => decide (v.path = path)).map (under i) else [] := by
    apply List.ext_getElem?
    intro j
    rw [List.getElem?_map, List.getElem?_mapIdx, List.getElem?_mapIdx, Option.map_map]
    congr 1
    funext vs
    rw [Function.comp_apply, List.filter_map]
    by_cases h : j = i
    · subst h
      simp [Function.comp_def, under]
    · simp [Function.comp_def, under, h]
  rw [ofChildren, List.filter_flatten, Direction.map_order, hfilter,
    Direction.flatten_order_mapIdx]

/-- Nothing that is visited below a node is visited at the node. -/
theorem filter_ofChildren_nil (dir : Direction) (visits : List (List (Visit α))) :
    (ofChildren dir visits).filter (fun w => decide (w.path = [])) = [] := by
  rw [List.filter_eq_nil_iff]
  intro w hw
  rcases mem_ofChildren_iff.1 hw with ⟨i, vs, v, _, _, rfl⟩
  simp [under]

theorem precedes_under_iff (i : Nat) (v w : Visit α) :
    (v.under i).Precedes (w.under i) ↔ v.Precedes w := by
  simp [Precedes, under]

-- Visits below different children may come in any order.
theorem precedes_of_ne {i j : Nat} (h : i ≠ j) (v w : Visit α) :
    (v.under i).Precedes (w.under j) := by
  refine ⟨fun _ _ hpre => ?_, fun _ _ _ hpre => ?_, fun _ _ hpath => ?_⟩
  · exact h (List.cons_prefix_cons.1 hpre).1.symm
  · exact h (List.cons_prefix_cons.1 hpre).1
  · exact h (List.cons.inj hpath).1

/-- If the tours of the children are in order, so is what is visited below the node. -/
theorem pairwise_ofChildren (h : ∀ vs ∈ visits, vs.Pairwise Precedes) :
    (ofChildren dir visits).Pairwise Precedes := by
  rw [ofChildren, List.pairwise_flatten]
  constructor
  · intro l hl
    rcases List.mem_mapIdx.1 ((Direction.mem_order dir _ l).1 hl) with ⟨i, hi, rfl⟩
    rw [List.pairwise_map]
    exact (h _ (List.getElem_mem hi)).imp fun hvw => (precedes_under_iff i _ _).2 hvw
  · have hacross : (visits.mapIdx fun i vs => vs.map (under i)).Pairwise fun l₁ l₂ =>
        ∀ x ∈ l₁, ∀ y ∈ l₂, x.Precedes y ∧ y.Precedes x := by
      rw [List.pairwise_iff_getElem]
      intro i j hi hj hij x hx y hy
      rw [List.getElem_mapIdx] at hx hy
      rcases List.mem_map.1 hx with ⟨v, _, rfl⟩
      rcases List.mem_map.1 hy with ⟨w, _, rfl⟩
      exact ⟨precedes_of_ne (Nat.ne_of_lt hij) v w, precedes_of_ne (Nat.ne_of_gt hij) w v⟩
    cases dir with
    | leftToRight => exact hacross.imp fun hxy x hx y hy => (hxy x hx y hy).1
    | rightToLeft =>
      refine List.pairwise_reverse.2 ?_
      exact hacross.imp fun hxy y hy x hx => (hxy x hx y hy).2

end Visit

/-- What is told about a node that is visited: that it is entered and that it is left, with
    the values of its children if the walk went on to them; or that a leaf is met. -/
inductive Tree.Told {α : Type} : Tree → List (Response α) → Prop where
  | leaf (sym : Symbol) (value : α) : Told (.leaf sym) [.met value]
  | skipped (sym : Symbol) (children : List Tree) (value : α) :
    Told (.node sym children) [.entered false, .left none value]
  | passed (sym : Symbol) (children : List Tree) (values : List α) (value : α) :
    Told (.node sym children) [.entered true, .left (some values) value]

/-- Where the part at an address lies if the tree lies in a given context. -/
def Context.along (c : Context) (t : Tree) (path : List Nat) : Context :=
  ⟨⟨c.span.start + UInt64.ofNat (t.extentAt path).1,
    c.span.start + UInt64.ofNat (t.extentAt path).2⟩, c.level + path.length,
    path.getLast?.or c.place⟩

theorem Context.along_nil {c : Context} {t : Tree}
    (h : c.span.stop = c.span.start + UInt64.ofNat t.leafCount) : c.along t [] = c := by
  rw [along, Tree.extentAt_eq (Tree.at?_nil t), Tree.leavesBefore, Nat.zero_add, ← h]
  simp

theorem Context.along_cons {c : Context} {t child part : Tree} {i : Nat} {path : List Nat}
    (hchild : t.children[i]? = some child) (hpart : child.at? path = some part) :
    c.along t (i :: path) = (c.child t.children i).along child path := by
  have hat : t.at? (i :: path) = some part := by
    rw [Tree.at?_cons, hchild, Option.bind_some, hpart]
  rw [along, along, Tree.extentAt_eq hat, Tree.extentAt_eq hpart, Tree.leavesBefore_cons hchild,
    Context.child, sibling]
  simp only [UInt64.ofNat_add, UInt64.add_assoc, List.length_cons, List.getLast?_cons,
    Nat.zero_add]
  rw [Nat.add_assoc, Nat.add_comm 1]
  cases path.getLast? <;> rfl

theorem exists_getElem?_of_length_eq {β γ : Type} {as : List β} {bs : List γ} {i : Nat} {a : β}
    (h : as.length = bs.length) (ha : as[i]? = some a) : ∃ b, bs[i]? = some b :=
  ⟨_, List.getElem?_eq_getElem (h ▸ (List.getElem?_eq_some_iff.1 ha).1)⟩

-- There is a tour and a value for every child, and a child for every tour.
theorem exists_child_of_tour {α : Type} {children : List Tree} {visits : List (List (Visit α))}
    {values : List α} (hvisits : visits.length = children.length)
    (hvalues : values.length = children.length) {i : Nat} {vs : List (Visit α)}
    (hvs : visits[i]? = some vs) :
    ∃ child value, children[i]? = some child ∧ values[i]? = some value := by
  rcases exists_getElem?_of_length_eq hvisits hvs with ⟨child, hchild⟩
  rcases exists_getElem?_of_length_eq hvalues.symm hchild with ⟨value, hvalue⟩
  exact ⟨child, value, hchild, hvalue⟩

namespace Tour

variable {α : Type} {gives : Notice α → Prop} {dir : Direction} {c : Context} {t : Tree}
  {visits : List (Visit α)} {value : α}

/-- A visit is about the node at its address, in the context of that node. -/
theorem located (h : Tour gives dir c t visits value)
    (hstop : c.span.stop = c.span.start + UInt64.ofNat t.leafCount) :
    ∀ v ∈ visits, t.at? v.path = some v.notice.node ∧ v.notice.context = c.along t v.path := by
  induction h with
  | leaf met =>
    intro v hv
    rw [List.mem_singleton.1 hv]
    exact ⟨rfl, (Context.along_nil hstop).symm⟩
  | skip entered left =>
    intro v hv
    rw [List.mem_cons, List.mem_singleton] at hv
    rcases hv with rfl | rfl
    · exact ⟨rfl, (Context.along_nil hstop).symm⟩
    · exact ⟨rfl, (Context.along_nil hstop).symm⟩
  | @pass sym children c value visits values hvisits hvalues entered below left ih =>
    intro v hv
    rcases Visit.mem_around_iff.1 hv with rfl | ⟨i, vs, w, hvs, hw, rfl⟩ | rfl
    · exact ⟨rfl, (Context.along_nil hstop).symm⟩
    · rcases exists_child_of_tour hvisits hvalues hvs with ⟨child, x, hchild, hx⟩
      -- The context of a child ends where its leaves end, so the induction can go on.
      have hchildStop : (c.child children i).span.stop =
          (c.child children i).span.start + UInt64.ofNat child.leafCount := by
        simp only [Context.child, Context.sibling, Tree.leafCountAll_take_succ hchild,
          UInt64.ofNat_add, UInt64.add_assoc]
      rcases ih i child vs x hchild hvs hx hchildStop w hw with ⟨hat, hcontext⟩
      refine ⟨?_, ?_⟩
      · rw [Visit.under, Tree.at?_cons, Tree.children, hchild]
        exact hat
      · rw [Visit.under, Context.along_cons (t := .node sym children) hchild hat]
        exact hcontext
    · exact ⟨rfl, (Context.along_nil hstop).symm⟩

/-- Nothing happens below a node before it has been entered or after it has been left. -/
theorem ordered (h : Tour gives dir c t visits value) : visits.Pairwise Visit.Precedes := by
  induction h with
  | leaf met => exact List.pairwise_singleton _ _
  | skip entered left => simp [Visit.Precedes]
  | @pass sym children c value visits values hvisits hvalues entered below left ih =>
    have hbelow : (Visit.ofChildren dir visits).Pairwise Visit.Precedes := by
      refine Visit.pairwise_ofChildren fun vs hvs => ?_
      rcases List.mem_iff_getElem?.1 hvs with ⟨i, hi⟩
      rcases exists_child_of_tour hvisits hvalues hi with ⟨child, x, hchild, hx⟩
      exact ih i child vs x hchild hi hx
    rw [List.cons_append, List.pairwise_cons, List.pairwise_append]
    refine ⟨fun w hw => ?_, hbelow, List.pairwise_singleton _ _, fun v hv w hw => ?_⟩
    · rw [List.mem_append, List.mem_singleton, Visit.mem_ofChildren_iff] at hw
      rcases hw with ⟨i, vs, w, _, _, rfl⟩ | rfl
      · simp [Visit.Precedes, Visit.under]
      · simp [Visit.Precedes]
    · rcases Visit.mem_ofChildren_iff.1 hv with ⟨i, vs, v, _, _, rfl⟩
      rw [List.mem_singleton.1 hw]
      simp [Visit.Precedes, Visit.under]

end Tour

namespace Visit

variable {α : Type} {dir : Direction} {visits : List (List (Visit α))} {first last : Visit α}

-- The first and the last visit are those to the node itself.
theorem filter_around_nil (hfirst : first.path = []) (hlast : last.path = []) :
    (first :: ofChildren dir visits ++ [last]).filter (fun w => decide (w.path = [])) =
      [first, last] := by
  rw [List.cons_append, List.filter_cons, List.filter_append, filter_ofChildren_nil]
  simp [hfirst, hlast]

theorem filter_around_cons (hfirst : first.path = []) (hlast : last.path = []) {i : Nat}
    {vs : List (Visit α)} (hvs : visits[i]? = some vs) (path : List Nat) :
    (first :: ofChildren dir visits ++ [last]).filter (fun w => decide (w.path = i :: path)) =
      (vs.filter fun v => decide (v.path = path)).map (under i) := by
  rw [List.cons_append, List.filter_cons, List.filter_append, filter_ofChildren, hvs]
  simp [hfirst, hlast]

/-- What happens at an address below a child happens on the tour of that child. -/
theorem exists_around_cons_iff (hfirst : first.path = []) (hlast : last.path = []) (i : Nat)
    (path : List Nat) (happens : Notice α → Prop) :
    (∃ v ∈ first :: ofChildren dir visits ++ [last], v.path = i :: path ∧ happens v.notice) ↔
      ∃ vs, visits[i]? = some vs ∧ ∃ v ∈ vs, v.path = path ∧ happens v.notice := by
  constructor
  · rintro ⟨v, hv, hpath, hnotice⟩
    rcases mem_around_iff.1 hv with rfl | ⟨j, vs, w, hvs, hw, rfl⟩ | rfl
    · exact absurd (hfirst.symm.trans hpath) (by simp)
    · rcases List.cons.inj hpath with ⟨rfl, hrest⟩
      exact ⟨vs, hvs, w, hw, hrest, hnotice⟩
    · exact absurd (hlast.symm.trans hpath) (by simp)
  · rintro ⟨vs, hvs, v, hv, rfl, hnotice⟩
    exact ⟨v.under i, mem_around_iff.2 (.inr (.inl ⟨i, vs, v, hvs, hv, rfl⟩)), rfl, hnotice⟩

/-- Whether anything happens at an address. -/
def Reaches (visits : List (Visit α)) (path : List Nat) : Prop :=
  ∃ v ∈ visits, v.path = path

/-- Whether the node at an address is entered without going on to its children. -/
def Skips (visits : List (Visit α)) (path : List Nat) : Prop :=
  ∃ v ∈ visits, v.path = path ∧ v.notice.response = .entered false

/-- Whether nothing above an address is skipped. -/
def Open (visits : List (Visit α)) (path : List Nat) : Prop :=
  ∀ above, above <+: path → above ≠ path → ¬Skips visits above

theorem open_nil (visits : List (Visit α)) : Open visits [] :=
  fun _ hpre hne => absurd (List.prefix_nil.1 hpre) hne

theorem reaches_around_cons_iff (hfirst : first.path = []) (hlast : last.path = []) {i : Nat}
    {path : List Nat} :
    Reaches (first :: ofChildren dir visits ++ [last]) (i :: path) ↔
      ∃ vs, visits[i]? = some vs ∧ Reaches vs path := by
  have haround := @exists_around_cons_iff _ dir visits _ _ hfirst hlast i path fun _ => True
  simpa only [Reaches, and_true] using haround

theorem open_around_cons_iff (hfirst : first.path = []) (hlast : last.path = [])
    (hgoesOn : first.notice.response ≠ .entered false)
    (hleft : last.notice.response ≠ .entered false)
    {i : Nat} {vs : List (Visit α)} (hvs : visits[i]? = some vs) (path : List Nat) :
    Open (first :: ofChildren dir visits ++ [last]) (i :: path) ↔ Open vs path := by
  have hskips (above : List Nat) :
      Skips (first :: ofChildren dir visits ++ [last]) (i :: above) ↔ Skips vs above := by
    rw [Skips, exists_around_cons_iff hfirst hlast i above fun notice =>
      notice.response = .entered false, hvs]
    simp [Skips]
  constructor
  · intro h above hpre hne hskip
    exact h (i :: above) (List.cons_prefix_cons.2 ⟨rfl, hpre⟩)
      (fun heq => hne (List.cons.inj heq).2) ((hskips above).2 hskip)
  · intro h above hpre hne hskip
    cases above with
    | nil =>
      -- The node itself is not skipped.
      rcases hskip with ⟨v, hv, hpath, hnotice⟩
      rcases mem_around_iff.1 hv with rfl | ⟨j, _, w, _, _, rfl⟩ | rfl
      · exact hgoesOn hnotice
      · exact absurd hpath (by simp [under])
      · exact hleft hnotice
    | cons j above =>
      rcases List.cons_prefix_cons.1 hpre with ⟨rfl, hrest⟩
      exact h above hrest (fun heq => hne (by rw [heq])) ((hskips above).1 hskip)

end Visit

namespace Tour

variable {α : Type} {gives : Notice α → Prop} {dir : Direction} {c : Context} {t : Tree}
  {visits : List (Visit α)} {value : α}

/-- A node that is visited is entered once and left once, or it is a leaf and met once. -/
theorem told (h : Tour gives dir c t visits value) :
    ∀ v ∈ visits, v.notice.node.Told
      ((visits.filter fun w => decide (w.path = v.path)).map fun w => w.notice.response) := by
  induction h with
  | @leaf sym c value met =>
    intro v hv
    rw [List.mem_singleton.1 hv]
    exact .leaf sym value
  | @skip sym children c value entered left =>
    intro v hv
    rw [List.mem_cons, List.mem_singleton] at hv
    rcases hv with rfl | rfl
    · exact .skipped sym children value
    · exact .skipped sym children value
  | @pass sym children c value visits values hvisits hvalues entered below left ih =>
    intro v hv
    rcases Visit.mem_around_iff.1 hv with rfl | ⟨i, vs, w, hvs, hw, rfl⟩ | rfl
    · rw [Visit.filter_around_nil rfl rfl]
      exact .passed sym children values value
    · rcases exists_child_of_tour hvisits hvalues hvs with ⟨child, x, hchild, hx⟩
      rw [Visit.under, Visit.filter_around_cons rfl rfl hvs, List.map_map]
      exact ih i child vs x hchild hvs hx w hw
    · rw [Visit.filter_around_nil rfl rfl]
      exact .passed sym children values value

/-- A node is visited if and only if no node above it is skipped. -/
theorem reaches_iff (h : Tour gives dir c t visits value) (path : List Nat) :
    Visit.Reaches visits path ↔ (t.at? path).isSome = true ∧ Visit.Open visits path := by
  induction h generalizing path with
  | @leaf sym c value met =>
    cases path with
    | nil => exact iff_of_true ⟨_, List.mem_cons_self, rfl⟩ ⟨rfl, Visit.open_nil _⟩
    | cons i path => simp [Visit.Reaches, Tree.at?_cons, Tree.children]
  | @skip sym children c value entered left =>
    cases path with
    | nil => exact iff_of_true ⟨_, List.mem_cons_self, rfl⟩ ⟨rfl, Visit.open_nil _⟩
    | cons i path =>
      -- Nothing below the root is visited, and the root is skipped.
      refine iff_of_false (by simp [Visit.Reaches]) fun hopen => ?_
      exact hopen.2 [] List.nil_prefix (by simp) ⟨_, List.mem_cons_self, rfl, rfl⟩
  | @pass sym children c value visits values hvisits hvalues entered below left ih =>
    cases path with
    | nil => exact iff_of_true ⟨_, List.mem_cons_self, rfl⟩ ⟨rfl, Visit.open_nil _⟩
    | cons i path =>
      rw [Visit.reaches_around_cons_iff rfl rfl, Tree.at?_cons, Tree.children]
      cases hchild : children[i]? with
      | none =>
        have hnone : visits[i]? = none := by
          rw [List.getElem?_eq_none_iff] at hchild ⊢
          exact hvisits ▸ hchild
        simp [hnone]
      | some child =>
        rcases exists_getElem?_of_length_eq hvisits.symm hchild with ⟨vs, hvs⟩
        rcases exists_getElem?_of_length_eq hvalues.symm hchild with ⟨x, hx⟩
        rw [Visit.open_around_cons_iff rfl rfl (by simp) (by simp) hvs, Option.bind_some,
          ← ih i child vs x hchild hvs hx path, hvs]
        simp

end Tour

/-- A tree has been visited as it should be: visits are told where their nodes lie, a node is
    left out if and only if a node above it is skipped, every node that is visited is entered
    and left once, and whatever happens below it happens in between. -/
structure Tree.Toured {α : Type} (t : Tree) (visits : List (Visit α)) : Prop where
  located : ∀ v ∈ visits, t.at? v.path = some v.notice.node ∧ v.notice.context = t.contextAt v.path
  reaches_iff : ∀ path,
    Visit.Reaches visits path ↔ (t.at? path).isSome = true ∧ Visit.Open visits path
  told : ∀ v ∈ visits, v.notice.node.Told
    ((visits.filter fun w => decide (w.path = v.path)).map fun w => w.notice.response)
  ordered : visits.Pairwise Visit.Precedes

namespace Tree

variable {σ α : Type}

theorem along_rootContext (t : Tree) (path : List Nat) :
    t.rootContext.along t path = t.contextAt path := by
  simp [Context.along, contextAt, rootContext]

/-- A tour from the root visits the tree as it should. -/
theorem toured_of_tour {gives : Notice α → Prop} {dir : Direction} {t : Tree}
    {visits : List (Visit α)} {value : α} (h : Tour gives dir t.rootContext t visits value) :
    t.Toured visits where
  located v hv := by
    rw [← along_rootContext]
    exact h.located (by simp [rootContext]) v hv
  reaches_iff := h.reaches_iff
  told := h.told
  ordered := h.ordered

-- A position in a frontier that is not too long fits into a word.
theorem toNat_extentAt {t part : Tree} {path : List Nat} (h : t.at? path = some part)
    (hsize : t.leafCount < UInt64.size) :
    (t.contextAt path).span.start.toNat = (t.extentAt path).1 ∧
      (t.contextAt path).span.stop.toNat = (t.extentAt path).2 := by
  rcases exists_frontier_eq_append h with ⟨front, rest, hsplit, hlength⟩
  have hle := congrArg List.length hsplit
  simp only [List.length_append, length_frontier, hlength] at hle
  rw [contextAt, extentAt_eq h]
  exact ⟨UInt64.toNat_ofNat_of_lt' (by omega), UInt64.toNat_ofNat_of_lt' (by omega)⟩

/-- Whatever a listener decides, and in either direction, a walk visits the tree as it should.
    With every call comes a context whose span starts behind the leaves to the left of the node
    and is as long as the node has leaves, so that it holds the frontier of the node; whose
    level is the depth of the node; and whose place is that among its siblings. The spans of
    the children of a node are adjacent and make up its own. -/
theorem walk_keeps_place (t : Tree) (l : Listener σ α) (dir : Direction) (s : σ) :
    ∃ visits : List (Visit α), t.Walked l dir s visits ∧ t.Toured visits ∧
      ∀ v ∈ visits,
        v.notice.context.span = ⟨UInt64.ofNat (t.leavesBefore v.path),
          UInt64.ofNat (t.leavesBefore v.path + v.notice.node.leafCount)⟩ ∧
        v.notice.context.level = v.path.length ∧ v.notice.context.place = v.path.getLast? ∧
        t.frontier.extract (t.leavesBefore v.path)
          (t.leavesBefore v.path + v.notice.node.leafCount) = v.notice.node.frontier ∧
        (t.leafCount < UInt64.size →
          t.frontier.extract v.notice.context.span.start.toNat v.notice.context.span.stop.toNat =
            v.notice.node.frontier) ∧
        ∀ sym children, v.notice.node = node sym children →
          Tiled (t.extentAt v.path).1 (t.extentAt v.path).2
            ((List.range children.length).map fun i => t.extentAt (v.path ++ [i])) := by
  rcases exists_walked t l dir s with ⟨visits, hwalked, htour⟩
  have htoured := toured_of_tour htour
  refine ⟨visits, hwalked, htoured, fun v hv => ?_⟩
  rcases htoured.located v hv with ⟨hat, hcontext⟩
  have hextent := extentAt_eq hat
  have hfrontier := extract_frontier hat
  refine ⟨?_, ?_, ?_, ?_, fun hsize => ?_, fun sym children hnode => ?_⟩
  · rw [hcontext, contextAt, hextent]
  · rw [hcontext, contextAt]
  · rw [hcontext, contextAt]
  · rw [hextent] at hfrontier
    exact hfrontier
  · rcases toNat_extentAt hat hsize with ⟨hstart, hstop⟩
    rw [hcontext, hstart, hstop]
    exact hfrontier
  · rw [hnode] at hat
    exact tiled_extentAt hat

/-- Two leaves on the right, one on the left, and nodes without children between them. -/
def lopsided : Tree :=
  node "S" [node "A" [leaf "a", node "B" []], node "B" [],
    node "C" [leaf "c", node "D" [leaf "d"]]]

/-- A listener that goes on from the first two nodes it enters, and counts the leaves that it
    has met. -/
def twoNodes : Listener Nat Nat where
  enter _ _ _ := modifyGet fun entered => (decide (entered < 2), entered + 1)
  exit _ _ values _ := pure ((values.getD []).foldl (fun n value => n + value) 0)
  terminal _ _ := pure 1

/-- From the right, the first two nodes are the root and `C`; the others are left at once, and
    what is below them is not visited. -/
theorem walk_keeps_place_lopsided :
    ∃ visits : List (Visit Nat),
      lopsided.Toured visits ∧ lopsided.leafCount < UInt64.size ∧
      (visits.map fun v => v.notice.node.symbol) =
        (["S", "C", "D", "D", "c", "C", "B", "B", "A", "A", "S"] : List Symbol) ∧
      (visits.map fun v => v.notice.context) =
        [⟨⟨0, 3⟩, 0, none⟩, ⟨⟨1, 3⟩, 1, some 2⟩, ⟨⟨2, 3⟩, 2, some 1⟩, ⟨⟨2, 3⟩, 2, some 1⟩,
          ⟨⟨1, 2⟩, 2, some 0⟩, ⟨⟨1, 3⟩, 1, some 2⟩, ⟨⟨1, 1⟩, 1, some 1⟩, ⟨⟨1, 1⟩, 1, some 1⟩,
          ⟨⟨0, 1⟩, 1, some 0⟩, ⟨⟨0, 1⟩, 1, some 0⟩, ⟨⟨0, 3⟩, 0, none⟩] ∧
      ∀ v ∈ visits,
        lopsided.frontier.extract v.notice.context.span.start.toNat
          v.notice.context.span.stop.toNat = v.notice.node.frontier := by
  rcases walk_keeps_place lopsided twoNodes .rightToLeft 0 with ⟨visits, hwalked, htoured, hall⟩
  have hsize : lopsided.leafCount < UInt64.size := by decide
  refine ⟨visits, htoured, hsize, ?_, ?_, fun v hv => (hall v hv).2.2.2.2.1 hsize⟩
  · rw [hwalked.map_notice fun notice => notice.node.symbol]
    rfl
  · rw [hwalked.map_notice Notice.context]
    rfl

end Tree

end Derivations
