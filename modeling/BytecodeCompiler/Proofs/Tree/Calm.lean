import BytecodeCompiler.Proofs.Tree.Evaluation

-- Which nodes leave the scratch registers alone. A loop over an iterable and the first use of a
-- shared expression move into them, and so does an assignment to a name that is one of them. Only
-- what is lowered into the same function counts, so the bodies of functions do not.

namespace BytecodeCompiler

/-- Whether the value refers to a register that loops and shared expressions use. -/
def Value.isScratch (v : Value) : Bool :=
  Register.ofValue? v == some .ra || Register.ofValue? v == some .ri

namespace NodeKind

/-- Whether the node is a loop over an iterable. -/
def isForIn : NodeKind → Bool
  | .forIn .. => true
  | _ => false

/-- Whether the node is a shared expression that its first use computes. -/
def isPending : NodeKind → Bool
  | .shared _ flag => !flag
  | _ => false

/-- Whether the node moves into scratch registers by itself. -/
def fillsScratch : NodeKind → Bool
  | .forIn .. | .shared .. => true
  | _ => false

theorem fillsScratch_of_isForIn {kind : NodeKind} (h : kind.isForIn = true) :
    kind.fillsScratch = true := by
  cases kind with
  | forIn => rfl
  | _ => cases h

theorem fillsScratch_of_isPending {kind : NodeKind} (h : kind.isPending = true) :
    kind.fillsScratch = true := by
  cases kind with
  | shared => rfl
  | _ => cases h

/-- The conditions of a branch of a chain. -/
def branchConds : NodeKind → List NodeId
  | .ifChain conds .. => conds
  | _ => []

/-- The block of a branch of a chain. -/
def branchBlock : NodeKind → List NodeId
  | .ifChain _ body .. => [body]
  | _ => []

theorem mem_children_of_mem_branch {kind : NodeKind} {c : NodeId}
    (h : c ∈ kind.branchConds ∨ c ∈ kind.branchBlock) : c ∈ kind.children := by
  cases kind with
  | ifChain conds body elseIfs elseBody =>
    simp only [branchConds, branchBlock, List.mem_singleton] at h
    simp only [children, List.mem_append, List.mem_cons]
    exact Or.inl (h.imp_right Or.inl)
  | _ => simp [branchConds, branchBlock] at h

theorem mem_targetParts {kind : NodeKind} {id c : NodeId} (h : c ∈ kind.targetParts id) :
    c = id ∨ c ∈ kind.children := by
  cases kind with
  | index | dot => exact Or.inr h
  | _ => exact Or.inl (List.mem_singleton.mp h)

end NodeKind

namespace Tree

/-! ## What is lowered with a node -/

def branchConds (t : Tree) (id : NodeId) : List NodeId := (t.kind? id).elim [] NodeKind.branchConds

def branchBlock (t : Tree) (id : NodeId) : List NodeId := (t.kind? id).elim [] NodeKind.branchBlock

/-- The nodes that are always lowered with a node and into the same function. -/
def inner (t : Tree) : NodeKind → List NodeId
  | .lambda _ | .shared .. => []
  | .ifChain conds block elseIfs elseBlock =>
    (conds ++ elseIfs.flatMap t.branchConds) ++ elseBlock.toList ++
      (block :: elseIfs.flatMap t.branchBlock)
  | .update lhs rhs => (t.kind? lhs).elim [lhs] (NodeKind.targetParts lhs) ++ [rhs]
  | kind => kind.children

/-- One node is lowered with the other and into the same function. -/
def Together (t : Tree) : NodeId → NodeId → Prop :=
  Relation.ReflTransGen fun id c => ∃ n, t.node? id = some n ∧ c ∈ t.inner n.kind

/-- A function that is lowered with the node reaches another node. -/
def Hides (t : Tree) (id c : NodeId) : Prop :=
  ∃ f, t.Together id f ∧ t.Is NodeKind.isLambda f ∧ t.Reaches f c

section Inner

variable {t : Tree} {id c : NodeId} {n : Node}

theorem reaches_child (hn : t.node? id = some n) (hc : c ∈ n.kind.children) : t.Reaches id c :=
  .single ⟨n, hn, hc⟩

theorem reaches_of_mem_branch (h : c ∈ t.branchConds id ∨ c ∈ t.branchBlock id) :
    t.Reaches id c := by
  cases hn : t.node? id with
  | none => simp [branchConds, branchBlock, kind?, hn] at h
  | some n =>
    refine reaches_child hn (NodeKind.mem_children_of_mem_branch ?_)
    simpa [branchConds, branchBlock, kind?, hn] using h

theorem reaches_of_mem_target (h : c ∈ (t.kind? id).elim [id] (NodeKind.targetParts id)) :
    t.Reaches id c := by
  cases hn : t.node? id with
  | none =>
    simp only [kind?, hn, Option.map_none, Option.elim_none, List.mem_singleton] at h
    rw [h]
    exact .refl
  | some n =>
    simp only [kind?, hn, Option.map_some, Option.elim_some] at h
    rcases NodeKind.mem_targetParts h with rfl | hchild
    · exact .refl
    · exact reaches_child hn hchild

/-- What is lowered with a node is below it. -/
theorem reaches_of_mem_inner (hn : t.node? id = some n) (hc : c ∈ t.inner n.kind) :
    t.Reaches id c := by
  have hbelow : ∀ {p}, p ∈ n.kind.children → t.Reaches p c → t.Reaches id c :=
    fun hp hreaches => (reaches_child hn hp).trans hreaches
  cases hkind : n.kind with
  | lambda | shared =>
    rw [hkind] at hc
    cases hc
  | ifChain conds block elseIfs elseBlock =>
    rw [hkind] at hc hbelow
    simp only [inner, List.mem_append, List.mem_cons, List.mem_flatMap] at hc
    simp only [NodeKind.children, List.mem_append, List.mem_cons] at hbelow
    rcases hc with ((hcond | ⟨e, he, hcond⟩) | helse) | rfl | ⟨e, he, hblock⟩
    · exact hbelow (Or.inl (Or.inl hcond)) .refl
    · exact hbelow (Or.inl (Or.inr (Or.inr he))) (reaches_of_mem_branch (Or.inl hcond))
    · exact hbelow (Or.inr helse) .refl
    · exact hbelow (Or.inl (Or.inr (Or.inl rfl))) .refl
    · exact hbelow (Or.inl (Or.inr (Or.inr he))) (reaches_of_mem_branch (Or.inr hblock))
  | update lhs rhs =>
    rw [hkind] at hc hbelow
    rcases List.mem_append.mp hc with htarget | hvalue
    · exact hbelow List.mem_cons_self (reaches_of_mem_target htarget)
    · rw [List.mem_singleton.mp hvalue] at hbelow ⊢
      exact hbelow (List.mem_cons_of_mem _ List.mem_cons_self) .refl
  | _ =>
    rw [hkind] at hc
    exact reaches_child hn (by rw [hkind]; exact hc)

theorem Together.inv (h : t.Together id c) (hn : t.node? id = some n) :
    c = id ∨ ∃ p ∈ t.inner n.kind, t.Together p c := by
  rcases Relation.ReflTransGen.cases_head h with rfl | ⟨p, ⟨n', hn', hp⟩, hrest⟩
  · exact Or.inl rfl
  · cases hn.symm.trans hn'
    exact Or.inr ⟨p, hp, hrest⟩

theorem Together.eq_of_inner_eq_nil (h : t.Together id c) (hn : t.node? id = some n)
    (hinner : t.inner n.kind = []) : c = id := by
  rcases h.inv hn with rfl | ⟨p, hp, -⟩
  · rfl
  · rw [hinner] at hp
    cases hp

theorem Hides.of_inner {p : NodeId} (h : t.Hides p c) (hn : t.node? id = some n)
    (hp : p ∈ t.inner n.kind) : t.Hides id c := by
  obtain ⟨f, htogether, hlambda, hreaches⟩ := h
  exact ⟨f, .head ⟨n, hn, hp⟩ htogether, hlambda, hreaches⟩

end Inner

/-! ## Nodes that leave the registers alone -/

/-- Assigning to the node moves into no scratch register: it is an element, an attribute, or a name
of its own. -/
def AssignsPlainly (t : Tree) (id : NodeId) : Prop :=
  ∃ n, t.node? id = some n ∧ match n.kind with
    | .index .. | .dot .. => True
    | .ident name => (Value.reference (n.machineIdent name)).isScratch = false
    | _ => False

/-- The node itself moves into no scratch register, once some shared expressions are computed. -/
def KeepsScratch (t : Tree) (done : List NodeId) (id : NodeId) : NodeKind → Prop
  | .forIn .. => False
  | .shared _ flag => flag = true ∨ id ∈ done
  | .update lhs _ => t.AssignsPlainly lhs
  | _ => True

/-- Neither the node nor anything that is lowered with it moves into a scratch register. -/
inductive Calm (t : Tree) (done : List NodeId) : NodeId → Prop
  | node {id : NodeId} {n : Node} (hn : t.node? id = some n)
      (hkeeps : t.KeepsScratch done id n.kind) (hinner : ∀ c ∈ t.inner n.kind, t.Calm done c) :
      t.Calm done id

theorem Calm.inv {t : Tree} {done : List NodeId} {id : NodeId} {n : Node} (h : t.Calm done id)
    (hn : t.node? id = some n) :
    t.KeepsScratch done id n.kind ∧ ∀ c ∈ t.inner n.kind, t.Calm done c := by
  obtain ⟨hn', hkeeps, hinner⟩ := h
  cases hn.symm.trans hn'
  exact ⟨hkeeps, hinner⟩

/-- The nodes of the row, lowered after some others, hold a loop over an iterable or the first use
of a shared expression. It is the first use if the expression was not computed, and neither a node
before the row nor a function in the row reaches it. -/
def Stirs (t : Tree) (done before row : List NodeId) : Prop :=
  ∃ id ∈ row, ∃ c, t.Together id c ∧ (t.Is NodeKind.isForIn c ∨
    (t.Is NodeKind.isPending c ∧ c ∉ done ∧ (∀ b ∈ before, ¬ t.Reaches b c) ∧
      ∀ r ∈ row, ¬ t.Hides r c))

end Tree

end BytecodeCompiler
