import BytecodeCompiler.Proofs.Tree.WellFormed

-- Parent links. A tree only grows by new nodes, and by what is found out about the nodes that are
-- there. In every tree that grew this way the parent of a node is the first node behind it that
-- lists it as a child. So links only lead forward, and the loop around a node is the parent of the
-- node or the loop around the parent.

namespace BytecodeCompiler.Tree

/-- The trees that can be made: from an empty one, by adding nodes and by changing what is known
about them. -/
inductive Grown : Tree → Prop where
  | empty : Grown .empty
  | push {t : Tree} (h : Grown t) (kind : NodeKind) (span : Span) : Grown (t.push kind span).2
  | infer {t : Tree} (h : Grown t) (id : NodeId) (f : Inferred → Inferred) : Grown (t.infer id f)

theorem isChild_iff_kind? {t : Tree} {parent child : NodeId} :
    t.IsChild parent child ↔ ∃ kind, t.kind? parent = some kind ∧ child ∈ kind.children := by
  cases hn : t.node? parent <;> simp [IsChild, kind?, hn]

/-! ## What growing changes -/

theorem getElem?_foldl_adopt (parent : NodeId) (children : List NodeId) (nodes : Array Node)
    (id : NodeId) :
    (children.foldl (adopt parent) nodes)[id]? = nodes[id]?.map fun n =>
      { n with parent := n.parent <|> if id ∈ children then some parent else none } := by
  induction children generalizing nodes with
  | nil => simp
  | cons c cs ih =>
    rw [List.foldl_cons, ih, adopt, Array.getElem?_modify]
    by_cases hid : c = id
    · subst hid
      cases hnode : nodes[c]? with
      | none => simp
      | some n => cases hparent : n.parent <;> simp [hparent]
    · have hne : id ≠ c := Ne.symm hid
      simp [hid, hne]

theorem size_foldl_adopt (parent : NodeId) (children : List NodeId) (nodes : Array Node) :
    (children.foldl (adopt parent) nodes).size = nodes.size := by
  induction children generalizing nodes with
  | nil => rfl
  | cons c cs ih => rw [List.foldl_cons, ih, adopt, Array.size_modify]

theorem node?_push (t : Tree) (kind : NodeKind) (span : Span) (id : NodeId) :
    (t.push kind span).2.node? id =
      if id = t.size then some ⟨kind, span, none, .empty⟩ else (t.node? id).map fun n =>
        { n with parent := n.parent <|> if id ∈ kind.children then some t.size else none } := by
  have hsize : (kind.children.foldl (adopt t.size) t.nodes).size = t.size :=
    size_foldl_adopt _ _ _
  simp only [push, node?, Array.getElem?_push, hsize, getElem?_foldl_adopt]

theorem kind?_push (t : Tree) (kind : NodeKind) (span : Span) (id : NodeId) :
    (t.push kind span).2.kind? id = if id = t.size then some kind else t.kind? id := by
  rw [kind?, node?_push]
  split
  · rfl
  · simp [kind?, Function.comp_def]

theorem node?_of_size_le {t : Tree} {id : Nat} (h : t.size ≤ id) : t.node? id = none :=
  Array.getElem?_eq_none h

theorem parent?_push (t : Tree) (kind : NodeKind) (span : Span) (id : Nat) :
    (t.push kind span).2.parent? id =
      (t.parent? id <|> if id < t.size ∧ id ∈ kind.children then some t.size else none) := by
  rw [parent?, parent?, node?_push]
  by_cases hlt : id < t.size
  · obtain ⟨n, hn⟩ := node?_of_lt_size hlt
    simp [hn, hlt, Nat.ne_of_lt hlt]
  · rw [node?_of_size_le (Nat.le_of_not_lt hlt)]
    by_cases hid : id = t.size <;> simp [hid, hlt]

theorem kind?_infer (t : Tree) (id : NodeId) (f : Inferred → Inferred) (other : NodeId) :
    (t.infer id f).kind? other = t.kind? other := by
  simp only [kind?, node?, infer, Array.getElem?_modify]
  split
  · simp [Function.comp_def]
  · rfl

theorem parent?_infer (t : Tree) (id : NodeId) (f : Inferred → Inferred) (other : NodeId) :
    (t.infer id f).parent? other = t.parent? other := by
  simp only [parent?, node?, infer, Array.getElem?_modify]
  split
  · rw [Option.bind_map]
    rfl
  · rfl

/-! ## The parent of a node -/

/-- The links of a tree say what its nodes say: the parent of a node is the first node behind it
that lists it. -/
structure Linked (t : Tree) : Prop where
  sound : ∀ {child parent : Nat}, t.parent? child = some parent →
    child < parent ∧ t.IsChild parent child ∧
      ∀ other : Nat, child < other → t.IsChild other child → parent ≤ other
  complete : ∀ {child other : Nat}, child < other → t.IsChild other child →
    ∃ parent, t.parent? child = some parent

theorem lt_size_of_isChild {t : Tree} {parent child : Nat} (h : t.IsChild parent child) :
    parent < t.size := by
  obtain ⟨n, hn, -⟩ := h
  exact lt_size_of_node? hn

theorem isChild_push {t : Tree} {kind : NodeKind} {span : Span} {parent child : NodeId} :
    (t.push kind span).2.IsChild parent child ↔
      (parent = t.size ∧ child ∈ kind.children) ∨ t.IsChild parent child := by
  simp only [isChild_iff_kind?, kind?_push]
  by_cases hparent : parent = t.size
  · have hnone : t.kind? t.size = none := by rw [kind?, node?_of_size_le (Nat.le_refl _)]; rfl
    simp [hparent, hnone]
  · simp [hparent]

theorem Linked.push {t : Tree} (h : Linked t) (kind : NodeKind) (span : Span) :
    Linked (t.push kind span).2 where
  sound := by
    intro child parent hparent
    rw [parent?_push] at hparent
    cases hold : t.parent? child with
    | some old =>
      rw [hold] at hparent
      cases hparent
      obtain ⟨hlt, hchild, hfirst⟩ := h.sound hold
      refine ⟨hlt, isChild_push.mpr (Or.inr hchild), fun other hother hlists => ?_⟩
      rcases isChild_push.mp hlists with ⟨rfl, -⟩ | hlists
      · exact Nat.le_of_lt (lt_size_of_isChild hchild)
      · exact hfirst other hother hlists
    | none =>
      -- The node had no parent, so nobody behind it listed it, and the new node is the first.
      have hnew : child < t.size ∧ child ∈ kind.children ∧ t.size = parent := by
        simpa [hold, and_assoc] using hparent
      obtain ⟨hlt, hmem, rfl⟩ := hnew
      refine ⟨hlt, isChild_push.mpr (Or.inl ⟨rfl, hmem⟩), fun other hother hlists => ?_⟩
      rcases isChild_push.mp hlists with ⟨rfl, -⟩ | hlists
      · exact Nat.le_refl _
      · obtain ⟨p, hp⟩ := h.complete hother hlists
        rw [hold] at hp
        cases hp
  complete := by
    intro child other hother hlists
    rw [parent?_push]
    rcases isChild_push.mp hlists with ⟨rfl, hmem⟩ | hlists
    · cases t.parent? child with
      | some old => exact ⟨old, rfl⟩
      | none => exact ⟨t.size, by simp [hother, hmem]⟩
    · obtain ⟨p, hp⟩ := h.complete hother hlists
      exact ⟨p, by rw [hp]; rfl⟩

theorem Linked.infer {t : Tree} (h : Linked t) (id : NodeId) (f : Inferred → Inferred) :
    Linked (t.infer id f) := by
  have hchild : ∀ {parent child}, (t.infer id f).IsChild parent child ↔ t.IsChild parent child := by
    intro parent child
    simp only [isChild_iff_kind?, kind?_infer]
  constructor
  · intro child parent hparent
    simp only [hchild]
    exact h.sound (by rwa [parent?_infer] at hparent)
  · intro child other hother hlists
    rw [parent?_infer]
    exact h.complete hother (hchild.mp hlists)

theorem linked_empty : Linked .empty := by
  constructor
  · intro child parent hparent
    cases hparent
  · rintro child other - ⟨n, hn, -⟩
    cases hn

theorem Grown.linked {t : Tree} (h : Grown t) : Linked t := by
  induction h with
  | empty => exact linked_empty
  | push _ kind span ih => exact ih.push kind span
  | infer _ id f ih => exact ih.infer id f

/-! ## The loop around a node -/

/-- The loop around a node, inside the function that the node stands in. -/
def loopAbove (t : Tree) (id : NodeId) : Option NodeId :=
  t.climb NodeKind.isLoop NodeKind.isLambda t.size (t.parent? id)

theorem enclosingLoop_eq_loopAbove {t : Tree} {id : NodeId} {n : Node} (h : t.node? id = some n) :
    t.enclosingLoop id = .ok (t.loopAbove id) := enclosingLoop_eq h

namespace Linked

variable {t : Tree} (h : Linked t)

include h

/-- Links lead forward, so a climb has steps enough when it has one for each node behind. -/
theorem climb_add {steps : Nat} {id : Nat} (hsteps : t.size ≤ steps + id) :
    t.climb NodeKind.isLoop NodeKind.isLambda (steps + 1) (t.parent? id) =
      t.climb NodeKind.isLoop NodeKind.isLambda steps (t.parent? id) := by
  induction steps generalizing id with
  | zero =>
    rw [parent?, node?_of_size_le (by omega)]
    rfl
  | succ steps ih =>
    cases hparent : t.parent? id with
    | none => rfl
    | some p =>
      obtain ⟨hlt, ⟨n, hn, -⟩, -⟩ := h.sound hparent
      rw [climb_parent hn, climb_parent hn, ih (by omega)]

/-- The loop around a node is its parent or the loop around its parent. -/
theorem loopAbove_eq {id : Nat} {p : Nat} {n : Node} (hparent : t.parent? id = some p)
    (hn : t.node? p = some n) : t.loopAbove id =
      if n.kind.isLoop then some p else if n.kind.isLambda then none else t.loopAbove p := by
  have hlt := (h.sound hparent).1
  have hsize := lt_size_of_node? hn
  obtain ⟨steps, hsteps⟩ : ∃ steps, t.size = steps + 1 := ⟨t.size - 1, by omega⟩
  unfold loopAbove
  rw [hparent, hsteps, climb_parent hn, h.climb_add (by omega)]

theorem lt_of_climb {steps : Nat} {id loop : Nat}
    (hloop : t.climb NodeKind.isLoop NodeKind.isLambda steps (t.parent? id) = some loop) :
    id < loop := by
  induction steps generalizing id with
  | zero => cases hloop
  | succ steps ih =>
    cases hparent : t.parent? id with
    | none =>
      rw [hparent] at hloop
      cases hloop
    | some p =>
      obtain ⟨hlt, ⟨n, hn, -⟩, -⟩ := h.sound hparent
      rw [hparent, climb_parent hn] at hloop
      split at hloop
      · cases hloop
        exact hlt
      · split at hloop
        · cases hloop
        · exact Nat.lt_trans hlt (ih hloop)

/-- A loop comes behind what it is around. -/
theorem lt_loopAbove {id loop : Nat} (hloop : t.loopAbove id = some loop) : id < loop :=
  h.lt_of_climb hloop

end Linked

/-! ## Trees in which only shared expressions are listed twice -/

/-- Children come before the nodes that list them, and what is not shared has its link to the only
node that lists it. -/
structure Forest (t : Tree) : Prop where
  linked : t.Linked
  ordered : ∀ {parent child : Nat}, t.IsChild parent child → child < parent
  oneParent : ∀ {parent child}, t.IsChild parent child → ¬ t.Is NodeKind.isShared child →
    t.parent? child = some parent

theorem Grown.forest {t : Tree} (h : t.Grown)
    (hordered : ∀ parent child : Nat, t.IsChild parent child → child < parent)
    (hone : ∀ parent other child, t.IsChild parent child → t.IsChild other child →
      ¬ t.Is NodeKind.isShared child → parent = other) : t.Forest where
  linked := h.linked
  ordered := hordered _ _
  oneParent {parent child} hchild hshared := by
    obtain ⟨first, hfirst⟩ := h.linked.complete (hordered parent child hchild) hchild
    rw [hfirst, hone parent first child hchild (h.linked.sound hfirst).2.1 hshared]

theorem Forest.loopAbove_child {t : Tree} (h : t.Forest) {id child : NodeId} {n : Node}
    (hn : t.node? id = some n) (hchild : t.IsChild id child)
    (hshared : ¬ t.Is NodeKind.isShared child) : t.loopAbove child =
      if n.kind.isLoop then some id else if n.kind.isLambda then none else t.loopAbove id :=
  h.linked.loopAbove_eq (h.oneParent hchild hshared) hn

theorem Forest.lt_of_below {t : Tree} (h : t.Forest) {above below : Nat}
    (hbelow : Relation.TransGen t.IsChild above below) : below < above := by
  induction hbelow with
  | single hchild => exact h.ordered hchild
  | tail _ hchild ih => exact Nat.lt_trans (h.ordered hchild) ih

/-- Children come before the nodes that list them and link back to them. This can be checked node by
node, and then no child is listed by two nodes. -/
def LinksBack (t : Tree) : Prop :=
  ∀ id < t.nodes.size, ∀ n ∈ t.node? id, ∀ c ∈ n.kind.children, c < id ∧ t.parent? c = some id

instance (t : Tree) : Decidable t.LinksBack :=
  inferInstanceAs (Decidable (∀ id < t.nodes.size, _))

section LinksBack

variable {t : Tree} (h : t.LinksBack) {parent other child : Nat}

include h

theorem LinksBack.of_isChild (hchild : t.IsChild parent child) :
    child < parent ∧ t.parent? child = some parent := by
  obtain ⟨n, hn, hmem⟩ := hchild
  exact h parent (lt_size_of_node? hn) n hn child hmem

theorem LinksBack.ordered (hchild : t.IsChild parent child) : child < parent :=
  (h.of_isChild hchild).1

theorem LinksBack.parent_unique (hchild : t.IsChild parent child)
    (hchild' : t.IsChild other child) : parent = other :=
  Option.some.inj ((h.of_isChild hchild).2.symm.trans (h.of_isChild hchild').2)

end LinksBack

end BytecodeCompiler.Tree
