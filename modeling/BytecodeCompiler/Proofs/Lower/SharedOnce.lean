import BytecodeCompiler.Proofs.Lower.Appending
import BytecodeCompiler.Proofs.Lower.LiveScratch
import BytecodeCompiler.Proofs.Lower.Nested

-- A shared expression is computed once. The first of the declarations that take its elements
-- computes it into a register, and all of them read the register. From then on the operand of the
-- shared expression does not matter to lowering, in whatever order and by whomever the nodes of the
-- tree are lowered: it could as well be any other node.

namespace BytecodeCompiler

/-! ## Trees with another operand -/

/-- The tree in which a shared expression counts as computed and has another operand. -/
def Tree.recast (t : Tree) (shared other : NodeId) : Tree :=
  ⟨t.nodes.modify shared fun n => { n with kind := .shared other true }⟩

theorem Tree.size_recast (t : Tree) (shared other : NodeId) :
    (t.recast shared other).size = t.size := Array.size_modify

theorem Tree.node?_recast (t : Tree) (shared other id : NodeId) :
    (t.recast shared other).node? id = if shared = id then
      (t.node? id).map fun n => { n with kind := .shared other true } else t.node? id := by
  rw [node?, recast, Array.getElem?_modify]
  rfl

/-! ## States with more instructions -/

namespace LowerState

variable {σ : Type}

/-- The state after instructions were appended. -/
def append (s : LowerState σ) (made : List Instr) : LowerState σ :=
  ⟨s.names, s.loopEnds, s.processed, s.out ++ made.toArray⟩

theorem append_nil (s : LowerState σ) : s.append [] = s := by simp [append]

theorem append_append (s : LowerState σ) (made made' : List Instr) :
    (s.append made).append made' = s.append (made ++ made') := by simp [append]

/-- The state after a shared expression was computed. -/
def mark (s : LowerState σ) (shared : NodeId) : LowerState σ :=
  ⟨s.names, s.loopEnds, shared :: s.processed, s.out⟩

end LowerState

namespace Lower

variable {σ : Type} {α : Type} {t : Tree} {shared expr : NodeId} {flag : Bool} {span : Span}
  {parent : Option NodeId} {info : Inferred}

section Recast

variable (he : t.node? shared = some ⟨.shared expr flag, span, parent, info⟩) (other : NodeId)

include he

theorem nodeAt_recast_bind (id : NodeId) (f : Node → Lower σ α)
    (hf : f ⟨.shared other true, span, parent, info⟩ = f ⟨.shared expr flag, span, parent, info⟩) :
    (nodeAt (t.recast shared other) id >>= f) = (nodeAt t id >>= f) := by
  have hnode := t.node?_recast shared other id
  by_cases hid : shared = id
  · subst hid
    rw [if_pos rfl, he] at hnode
    rw [nodeAt_eq hnode, nodeAt_eq he, pure_bind, pure_bind]
    exact hf
  · rw [if_neg hid] at hnode
    rw [nodeAt, nodeAt, hnode]

theorem operand_recast (walk : Walk σ) (id : NodeId) :
    operand (t.recast shared other) walk id = operand t walk id := by
  refine bind_congr fun result => ?_
  cases result with
  | some i => rfl
  | none => exact nodeAt_recast_bind he other id _ rfl

theorem operands_recast (walk : Walk σ) (ids : List NodeId) :
    operands (t.recast shared other) walk ids = operands t walk ids := by
  induction ids with
  | nil => rfl
  | cons id ids ih => rw [operands, operands, operand_recast he, ih]

theorem attrs_recast (walk : Walk σ) (ids : List NodeId) :
    attrs (t.recast shared other) walk ids = attrs t walk ids := by
  induction ids with
  | nil => rfl
  | cons id ids ih =>
    have hexpr : (attrExpr (t.recast shared other) id : Lower σ NodeId) = attrExpr t id :=
      nodeAt_recast_bind he other id _ rfl
    simp only [attrs, hexpr, operand_recast he, ih]

theorem body_recast (walk : Walk σ) (id : NodeId) :
    body (t.recast shared other) walk id = body t walk id :=
  nodeAt_recast_bind he other id _ rfl

theorem guards_recast (walk : Walk σ) (span : Span) (truth : Bool) (l : Ident)
    (conds : List NodeId) :
    guards (t.recast shared other) walk span truth l conds = guards t walk span truth l conds := by
  induction conds with
  | nil => rfl
  | cons cond conds ih =>
    rw [guards, guards, operand_recast he, ih]
    exact bind_congr fun v => nodeAt_recast_bind he other cond _ rfl

theorem branches_recast [NameSupply σ] (walk : Walk σ) (span : Span) (ids : List NodeId) :
    branches (t.recast shared other) walk span ids = branches t walk span ids := by
  induction ids with
  | nil => rfl
  | cons id ids ih =>
    rw [branches, branches]
    simp only [guards_recast he, ih]
    exact nodeAt_recast_bind he other id _ rfl

theorem loopTarget?_recast (id : Option NodeId) :
    (loopTarget? (t.recast shared other) id : Lower σ (Option Instr)) = loopTarget? t id := by
  cases id with
  | none => rfl
  | some id =>
    have htarget : (loopTarget (t.recast shared other) id : Lower σ Instr) = loopTarget t id :=
      nodeAt_recast_bind he other id _ rfl
    rw [loopTarget?, loopTarget?, htarget]

theorem climb_recast (steps : Nat) (id : Option NodeId) :
    (t.recast shared other).climb NodeKind.isLoop NodeKind.isLambda steps id =
      t.climb NodeKind.isLoop NodeKind.isLambda steps id := by
  induction steps generalizing id with
  | zero => rfl
  | succ steps ih =>
    cases id with
    | none => rfl
    | some id =>
      have hnode := t.node?_recast shared other id
      by_cases hid : shared = id
      · subst hid
        rw [if_pos rfl, he] at hnode
        rw [Tree.climb, Tree.climb, hnode, he]
        exact ih parent
      · rw [if_neg hid] at hnode
        simp only [Tree.climb, hnode, ih]

theorem enclosingLoop_recast (id : NodeId) :
    (t.recast shared other).enclosingLoop id = t.enclosingLoop id := by
  have hnode := t.node?_recast shared other id
  simp only [Tree.enclosingLoop, Tree.ancestor, climb_recast he, Tree.size_recast]
  by_cases hid : shared = id
  · subst hid
    rw [if_pos rfl, he] at hnode
    rw [hnode, he]
    rfl
  · rw [if_neg hid] at hnode
    rw [hnode]

theorem breakLoop_recast (id : NodeId) (n : Node) :
    (breakLoop (t.recast shared other) id n : Lower σ Unit) = breakLoop t id n := by
  rw [breakLoop, breakLoop, enclosingLoop_recast he]

theorem spread_recast (walk : Walk σ) (n : Node) (id : NodeId) :
    spread (t.recast shared other) walk n id = spread t walk n id := by
  simp only [spread, operand_recast he]
  cases n.info.runtimeTy <|> n.info.ty with
  | some ty => rfl
  | none => exact nodeAt_recast_bind he other id _ rfl

theorem lambda_recast (walk : Walk σ) (n : Node) (block : NodeId) :
    lambda (t.recast shared other) walk n block = lambda t walk n block := by
  simp only [lambda, body_recast he]

theorem func_recast (walk : Walk σ) (n : Node) (isPub : Bool) (name : String)
    (function : NodeId) :
    func (t.recast shared other) walk n isPub name function =
      func t walk n isPub name function := by
  simp only [func, lambda_recast he]
  exact nodeAt_recast_bind he other function _ rfl

theorem update_recast (walk : Walk σ) (n : Node) (lhs rhs : NodeId) :
    update (t.recast shared other) walk n lhs rhs = update t walk n lhs rhs := by
  simp only [update, operand_recast he]
  exact nodeAt_recast_bind he other lhs _ rfl

theorem loop_recast [NameSupply σ] (walk : Walk σ) (id : NodeId) (n : Node) (start : Lower σ Unit)
    (sets : List NodeId) (each : LoopLabels → Lower σ Unit) (conds : List NodeId)
    (block : NodeId) :
    loop (t.recast shared other) walk id n start sets each conds block =
      loop t walk id n start sets each conds block := by
  simp only [loop, guards_recast he]

theorem declared_recast (walk : Walk σ) {id : NodeId} (hid : shared ≠ id) (element : Nat) :
    declared (t.recast shared other) walk id element = declared t walk id element := by
  have hnode := t.node?_recast shared other id
  rw [if_neg hid] at hnode
  simp only [declared, nodeAt, hnode, sharedElement, sharedWhole, operand_recast he]

/-- A rule that does not use the shared expression as a whole does not see its operand. -/
theorem rule_recast_of_ne [NameSupply σ] (walk : Walk σ) {id : NodeId} (hid : shared ≠ id)
    (hset : ∀ n isPub isConst name element, t.node? id = some n →
      n.kind ≠ .set isPub isConst name shared element) :
    rule (t.recast shared other) walk id = rule t walk id := by
  have hnode := t.node?_recast shared other id
  rw [if_neg hid] at hnode
  cases hn : t.node? id with
  | none =>
    rw [hn] at hnode
    rw [rule, rule, nodeAt, nodeAt, hn, hnode]
    rfl
  | some n =>
    rw [hn] at hnode
    rw [rule, rule, nodeAt_eq hnode, nodeAt_eq hn, pure_bind, pure_bind]
    rcases n with ⟨kind, span, parent, info⟩
    cases kind with
    | file | literal | ident | structAttr | sets | typeAlias | use | exprStmt => rfl
    | block => simp only [block, body_recast he]
    | lambda => simp only [lambda_recast he]
    | func => simp only [func_recast he]
    | tuple | array => simp only [iterable, operands_recast he]
    | struct => simp only [struct, attrs_recast he]
    | ret => simp only [ret, operand_recast he]
    | index => simp only [index, operand_recast he]
    | call => simp only [call, operand_recast he, operands_recast he]
    | dot => simp only [dot, operand_recast he]
    | spread => simp only [spread_recast he]
    | set isPub isConst name inner element =>
      have hinner : shared ≠ inner := by
        rintro rfl
        exact hset _ isPub isConst name element hn rfl
      simp only [set, declared_recast he other walk hinner]
    | shared => simp only [sharedWhole, operand_recast he]
    | update => simp only [update_recast he]
    | cast => simp only [cast, operand_recast he]
    | ifChain => simp only [ifChain, branches_recast he]
    | ternary => simp only [ternary, operand_recast he]
    | forIf => simp only [forIf, loop_recast he]
    | forIn => simp only [forIn, loop_recast he, loopTarget?_recast he, operand_recast he]
    | breakLoop => simp only [breakLoop_recast he]
    | collection => simp only [collection, operand_recast he]
    | binary => simp only [binary, operand_recast he]
    | unary => simp only [unary, operand_recast he]

end Recast

/-! ## Uses of a shared expression -/

/-- A shared expression that was computed is read from its register, without a further step. -/
theorem sharedWhole_of_computed (walk : Walk σ) {n : Node} {s : LowerState σ}
    (h : (flag || s.processed.contains shared) = true) :
    sharedWhole t walk shared n expr flag s = .ok (.register .ra n.span) s := by
  have hfound : isProcessed shared flag s = .ok true s := by
    rw [← h]
    rfl
  rw [sharedWhole, bind_of_ok hfound]
  rfl

/-- A shared expression that was not computed is computed into its register. -/
theorem sharedWhole_of_new {walk : Walk σ} {n : Node} {s s' : LowerState σ} {v : Instr}
    (h : (flag || s.processed.contains shared) = false) (hv : operand t walk expr s = .ok v s') :
    sharedWhole t walk shared n expr flag s = .ok (.register .ra n.span)
      ((s'.mark shared).append [.mov (.register .ra n.span) v n.span]) := by
  have hfound : isProcessed shared flag s = .ok false s := by
    rw [← h]
    rfl
  rw [sharedWhole, bind_of_ok hfound]
  simp only [Bool.not_false, if_true]
  rw [bind_of_ok hv]
  rfl

theorem contains_of_mem {s : LowerState σ} (h : shared ∈ s.processed) (flag : Bool) :
    (flag || s.processed.contains shared) = true := by
  rw [List.contains_iff_mem.mpr h, Bool.or_true]

section Computed

variable [NameSupply σ] (he : t.node? shared = some ⟨.shared expr flag, span, parent, info⟩)
  (other : NodeId)

include he

/-- Once a shared expression was computed, no rule sees its operand. -/
theorem rule_recast (walk : Walk σ) (id : NodeId) {s : LowerState σ} (h : shared ∈ s.processed) :
    rule (t.recast shared other) walk id s = rule t walk id s := by
  have he' := t.node?_recast shared other shared
  rw [if_pos rfl, he] at he'
  by_cases hid : shared = id
  · subst hid
    rw [rule, rule, nodeAt_eq he', nodeAt_eq he, pure_bind, pure_bind]
    simp only [expression]
    rw [bind_of_ok (sharedWhole_of_computed walk (contains_of_mem h _)),
      bind_of_ok (sharedWhole_of_computed walk (contains_of_mem h _))]
  by_cases hset : ∃ n isPub isConst name element, t.node? id = some n ∧
      n.kind = .set isPub isConst name shared element
  · obtain ⟨n, isPub, isConst, name, element, hn, hkind⟩ := hset
    have hn' := t.node?_recast shared other id
    rw [if_neg hid, hn] at hn'
    rw [rule_set_shared hn hkind he rfl, rule_set_shared hn' hkind he' rfl,
      bind_of_ok (sharedWhole_of_computed walk (contains_of_mem h _)),
      bind_of_ok (sharedWhole_of_computed walk (contains_of_mem h _))]
  · have hrule := rule_recast_of_ne he other walk hid fun n isPub isConst name element hn hkind =>
      hset ⟨n, isPub, isConst, name, element, hn, hkind⟩
    rw [hrule]

/-- Once a shared expression was computed, lowering does not see its operand. -/
theorem visit_within_recast (steps : Nat) (id : NodeId) :
    (appending [shared] : Pairing σ σ).Visit (within t steps)
      (within (t.recast shared other) steps) id := by
  induction steps generalizing id with
  | zero => exact (appending [shared]).step_throw trivial
  | succ steps ih =>
    intro before s hs
    have hmem : shared ∈ (s.after before).processed := hs List.mem_cons_self
    rw [within, within, rule_recast he other _ id hmem]
    exact (appendingControl_complete t).visit_rule (appending_covers t).lenient
      (fun c _ => (appending_covers t).fits c) (fun c _ => ih c) before s hs

theorem lowering_recast (id : NodeId) {s : LowerState σ} (h : shared ∈ s.processed) :
    node (t.recast shared other) id s = node t id s ∧
    value (t.recast shared other) id s = value t id s ∧
    root (t.recast shared other) id s = root t id s := by
  have hs : [shared] ⊆ s.processed := List.cons_subset.mpr ⟨h, List.nil_subset _⟩
  have hcovers : (appending [shared] : Pairing σ σ).Covers t := appending_covers t
  have hvisit : ∀ c, (appending [shared] : Pairing σ σ).Visit (within t (enough t))
      (within (t.recast shared other) (enough t)) c := visit_within_recast he other (enough t)
  have henough : enough (t.recast shared other) = enough t := by
    rw [enough, enough, Tree.size_recast]
  refine ⟨?_, ?_, ?_⟩
  · rw [node, henough]
    exact Behind.run_eq (hvisit id) hs
  · rw [value, henough, operand_recast he]
    exact Behind.run_eq ((hvisit id).value hcovers.lenient (hcovers.fits id)) hs
  · rw [root, henough, nodeAt_recast_bind he other id _ rfl]
    exact Behind.run_eq ((appending [shared]).bind_same (Pairing.step_nodeAt (hcovers.fits id))
      fun n _ => Pairing.step_file (hcovers.granted _) fun c _ => hvisit c) hs

end Computed

/-! ## Lowering more of a tree -/

/-- The shared expressions that may be computed when more of the tree was lowered: node by node, by
any walks with names of their own, and also if some of these failed. -/
inductive Later (t : Tree) (computed : List NodeId) : List NodeId → Prop
  | now : Later t computed computed
  | node {τ : Type} [NameSupply τ] {s : LowerState τ} (h : Later t computed s.processed)
      (id : NodeId) : Later t computed (lastState (node t id s)).processed
  | value {τ : Type} [NameSupply τ] {s : LowerState τ} (h : Later t computed s.processed)
      (id : NodeId) : Later t computed (lastState (value t id s)).processed
  | root {τ : Type} [NameSupply τ] {s : LowerState τ} (h : Later t computed s.processed)
      (id : NodeId) : Later t computed (lastState (root t id s)).processed

theorem Later.subset {computed later : List NodeId} (h : Later t computed later) :
    computed ⊆ later := by
  induction h with
  | now => exact List.Subset.refl _
  | node _ id ih =>
    exact Behind.subset_lastState
      ((appendingControl_complete t).visit_within (appending_covers t) _ id) ih
  | value _ id ih =>
    exact Behind.subset_lastState
      ((appendingControl_complete t).value_within (appending_covers t) _ id) ih
  | root _ id ih =>
    exact Behind.subset_lastState
      ((appendingControl_complete t).step_root (appending_covers t) id) ih

/-! ## Declarations of elements -/

/-- A declaration of an element of a shared expression, with what it declares. -/
structure Portion where
  id : NodeId
  declaration : Declaration
  /-- The name in the source. -/
  name : String
  element : Nat
  ty : Ty
  span : Span

namespace Portion

/-- The declaration stands in the tree and takes an element of the shared expression. It has a name
and a type, and the element has a position that is an integer. -/
structure Stands (p : Portion) (t : Tree) (shared : NodeId) : Prop where
  node : ∃ n, t.node? p.id = some n ∧ n.span = p.span ∧ n.ty? = some p.ty ∧
    (n.ident? <|> Ident.ofName? p.name) = some p.declaration.name ∧
    n.kind = .set p.declaration.isPub p.declaration.isConst p.name shared p.element
  short : p.element < 0x8000000000000000

/-- Reading the element from the register, and declaring what was read. -/
def rows (p : Portion) (span : Span) : List Instr :=
  [elementGet span p.element, .set p.declaration p.ty top p.span]

end Portion

theorem identOf_eq {n : Node} {name : String} {i : Ident}
    (h : (n.ident? <|> Ident.ofName? name) = some i) :
    (identOf n name : Lower σ Ident) = pure i := by
  rw [Node.ident?] at h
  rw [identOf]
  cases hfound : n.info.runtimeIdent <|> n.info.ident with
  | some found =>
    rw [hfound] at h
    cases h
    rfl
  | none =>
    rw [hfound] at h
    have hname : Ident.ofName? name = some i := h
    simp only [identOfName, Ident.ofName, hname]
    rfl

theorem tyOf_eq {n : Node} {ty : Ty} (h : n.ty? = some ty) (what : String) :
    (tyOf n what : Lower σ Ty) = pure ty := by
  rw [Node.ty?] at h
  rw [tyOf, h]

theorem Portion.Stands.isChild {p : Portion} (hp : p.Stands t shared) : t.IsChild p.id shared := by
  obtain ⟨n, hn, -, -, -, hkind⟩ := hp.node
  exact ⟨n, hn, by simp [hkind, NodeKind.children]⟩

section Portions

variable [NameSupply σ] {p : Portion} {walk : Walk σ} {s : LowerState σ}
  (he : t.node? shared = some ⟨.shared expr flag, span, parent, info⟩)

include he

/-- What a declaration appends after the shared expression was put into the register. -/
theorem rule_portion {s' : LowerState σ} (hp : p.Stands t shared)
    (hwhole : sharedWhole t walk shared ⟨.shared expr flag, span, parent, info⟩ expr flag s =
      .ok (.register .ra span) s') : rule t walk p.id s = .ok none (s'.append (p.rows span)) := by
  obtain ⟨n, hn, hspan, hty, hident, hkind⟩ := hp.node
  rw [rule_set_shared hn hkind he rfl, bind_of_ok hwhole]
  simp only [identOf_eq hident, tyOf_eq hty, pure_bind, hspan]
  rfl

/-- A declaration that takes an element of a shared expression that was computed. -/
theorem rule_portion_of_computed (hp : p.Stands t shared) (h : shared ∈ s.processed) :
    rule t walk p.id s = .ok none (s.append (p.rows span)) :=
  rule_portion he hp (sharedWhole_of_computed walk (contains_of_mem h flag))

theorem all_portions_of_computed (steps : Nat) {portions : List Portion}
    (hportions : ∀ p ∈ portions, p.Stands t shared) (h : shared ∈ s.processed) :
    all (within t (steps + 1)) (portions.map (·.id)) s =
      .ok () (s.append (portions.flatMap (·.rows span))) := by
  induction portions generalizing s with
  | nil =>
    rw [List.flatMap_nil, LowerState.append_nil]
    rfl
  | cons p portions ih =>
    obtain ⟨hp, hothers⟩ := List.forall_mem_cons.mp hportions
    have hfirst : within t (steps + 1) p.id s = .ok none (s.append (p.rows span)) :=
      rule_portion_of_computed he hp h
    have hrest := ih (s := s.append (p.rows span)) hothers h
    rw [LowerState.append_append] at hrest
    exact (bind_of_ok hfirst).trans hrest

/-- The first declaration computes the shared expression, and all of them read their elements. -/
theorem all_portions_of_new {steps : Nat} {portions : List Portion} (hsome : portions ≠ [])
    (hportions : ∀ p ∈ portions, p.Stands t shared)
    (hnew : (flag || s.processed.contains shared) = false) {v : Instr} {s' : LowerState σ}
    (hv : operand t (within t steps) expr s = .ok v s') :
    all (within t (steps + 1)) (portions.map (·.id)) s = .ok () ((s'.mark shared).append
      (.mov (.register .ra span) v span :: portions.flatMap (·.rows span))) := by
  obtain ⟨p, others, rfl⟩ := List.exists_cons_of_ne_nil hsome
  obtain ⟨hp, hothers⟩ := List.forall_mem_cons.mp hportions
  have hfirst : within t (steps + 1) p.id s = .ok none
      (((s'.mark shared).append [.mov (.register .ra span) v span]).append (p.rows span)) :=
    rule_portion he hp (sharedWhole_of_new hnew hv)
  rw [LowerState.append_append] at hfirst
  have hrest := all_portions_of_computed he steps hothers
    (s := (s'.mark shared).append (.mov (.register .ra span) v span :: p.rows span))
    List.mem_cons_self
  rw [LowerState.append_append] at hrest
  exact (bind_of_ok hfirst).trans hrest

/-- The row of the declarations, behind any instructions. -/
theorem node_sets (hordered : t.Ordered) {id : NodeId} {n : Node} {portions : List Portion}
    (hn : t.node? id = some n) (hkind : n.kind = .sets (portions.map (·.id)))
    (hsome : portions ≠ []) (hportions : ∀ p ∈ portions, p.Stands t shared)
    (hnew : (flag || s.processed.contains shared) = false) {v : Instr} {s' : LowerState σ}
    (hoperand : value t expr ⟨s.names, s.loopEnds, s.processed, #[]⟩ = .ok v s') :
    node t id s = .ok none (((s'.after s.out).mark shared).append
      (.mov (.register .ra span) v span :: portions.flatMap (·.rows span))) := by
  obtain ⟨p, hp⟩ := List.exists_mem_of_ne_nil portions hsome
  -- The operand comes before the shared expression, this before the declaration, and this before
  -- the row. So there are enough steps left for the operand.
  have hrow := hordered id p.id ⟨n, hn, by simpa [hkind, NodeKind.children] using ⟨p, hp, rfl⟩⟩
  have hshared := hordered p.id shared (hportions p hp).isChild
  have hexpr := hordered shared expr ⟨_, he, List.mem_cons_self⟩
  have hid := Tree.lt_size_of_node? hn
  obtain ⟨steps, hsteps⟩ : ∃ steps, t.size = steps + 1 :=
    Nat.exists_eq_add_one_of_ne_zero (by omega)
  have hv := operand_after hordered (by omega) (by omega : steps > expr) hoperand s.out
  have hempty : LowerState.after s.out ⟨s.names, s.loopEnds, s.processed, #[]⟩ = s :=
    s.after_emptied
  rw [hempty] at hv
  have hall := all_portions_of_new he hsome hportions hnew hv
  rw [← hsteps] at hall
  have hrule : (node t id : Lower σ _) =
      statement (all (within t t.size) (portions.map (·.id))) := by
    rw [node, enough, within, rule, nodeAt_eq hn, pure_bind, hkind]
  rw [hrule]
  exact bind_of_ok hall

end Portions

/-- A row of declarations that take elements of a shared expression computes it once, into the
register, and then reads and declares one element after the other. From then on, whatever more of
the tree was lowered and by whom, the shared expression is read from the register without an
instruction, its elements are read and declared, and lowering does the same with any other
operand. -/
theorem shared_computed_once [NameSupply σ] (hordered : t.Ordered) {id : NodeId} {n e : Node}
    {portions : List Portion} {s s' : LowerState σ} {v : Instr} (hn : t.node? id = some n)
    (hkind : n.kind = .sets (portions.map (·.id))) (hsome : portions ≠ [])
    (hportions : ∀ p ∈ portions, p.Stands t shared) (he : t.node? shared = some e)
    (hshared : e.kind = .shared expr false) (hnew : shared ∉ s.processed)
    (hoperand : value t expr ⟨s.names, s.loopEnds, s.processed, #[]⟩ = .ok v s') :
    node t id s = .ok none ⟨s'.names, s'.loopEnds, shared :: s'.processed, s.out ++ s'.out ++
      (.mov (.register .ra e.span) v e.span :: portions.flatMap (·.rows e.span)).toArray⟩ ∧
    (∀ p ∈ portions, (Int64.ofNat p.element).toInt = p.element) ∧
    ∀ (τ : Type) [NameSupply τ] (later : LowerState τ),
      Later t (shared :: s'.processed) later.processed →
        node t shared later = .ok (some (.register .ra e.span)) later ∧
        value t shared later = .ok (.register .ra e.span) later ∧
        (∀ p : Portion, p.Stands t shared →
          node t p.id later = .ok none (later.append (p.rows e.span))) ∧
        ∀ other c : NodeId, node (t.recast shared other) c later = node t c later ∧
          value (t.recast shared other) c later = value t c later ∧
          root (t.recast shared other) c later = root t c later := by
  rcases e with ⟨kind, span, parent, info⟩
  obtain rfl : kind = .shared expr false := hshared
  refine ⟨?_, fun p hp => Int64.toInt_ofNat_of_lt (hportions p hp).short,
    fun τ _ later hlater => ?_⟩
  · refine node_sets he hordered hn hkind hsome hportions ?_ hoperand
    simpa using hnew
  · have hmem : shared ∈ later.processed := hlater.subset List.mem_cons_self
    have hnode : node t shared later = .ok (some (.register .ra span)) later := by
      rw [node, enough, within, rule, nodeAt_eq he, pure_bind]
      exact bind_of_ok (sharedWhole_of_computed _ (contains_of_mem hmem false))
    exact ⟨hnode, bind_of_ok hnode, fun p hp => rule_portion_of_computed he hp hmem,
      fun other c => lowering_recast he other c hmem⟩

/-- Two declarations that take the elements of what a call gives. -/
def calledTree : Tree :=
  ⟨#[node (.ident "f"), node (.call 0 []), node (.shared 1 false), node (.set false false "a" 2 0),
    node (.set true true "b" 2 1), node (.sets [3, 4])]⟩
where
  node (kind : NodeKind) : Node := ⟨kind, .none, none, ⟨some .any, none, none, none, none⟩⟩

def calledPortions : List Portion :=
  [⟨3, ⟨false, false, .name "a"⟩, "a", 0, .any, .none⟩,
    ⟨4, ⟨true, true, .name "b"⟩, "b", 1, .any, .none⟩]

theorem calledPortions_stand : ∀ p ∈ calledPortions, p.Stands calledTree 2 := by
  refine List.forall_mem_cons.mpr ⟨?_, List.forall_mem_singleton.mpr ?_⟩
  · exact ⟨⟨_, rfl, rfl, rfl, rfl, rfl⟩, by decide⟩
  · exact ⟨⟨_, rfl, rfl, rfl, rfl, rfl⟩, by decide⟩

/-- The call is made once. A second row over the same expression only reads the register, and does
so whatever the operand is. -/
theorem shared_computed_once_called :
    let s : LowerState SequentialNames := .ofNames .start
    calledTree.Ordered ∧ (∀ p ∈ calledPortions, p.Stands calledTree 2) ∧ ∃ s' call,
      value calledTree 1 s = .ok top s' ∧ s'.out = #[call] ∧
      node calledTree 5 s = .ok none ⟨s'.names, s'.loopEnds, [2],
        #[call, .mov (.register .ra .none) top .none, elementGet .none 0,
          .set ⟨false, false, .name "a"⟩ .any top .none, elementGet .none 1,
          .set ⟨true, true, .name "b"⟩ .any top .none]⟩ ∧
      let later : LowerState SequentialNames := ⟨.start, [], [2], #[]⟩
      (∀ p ∈ calledPortions, node calledTree p.id later = .ok none (later.append (p.rows .none))) ∧
      ∀ other : NodeId, node (calledTree.recast 2 other) 5 later = node calledTree 5 later := by
  intro s
  have hordered : calledTree.Ordered := by decide
  have hvalue : value calledTree 1 s = .ok top ⟨.start, [], [],
    #[.call (.value (.named (.name "f") .nil) .none) (.args [] .none) .none]⟩ := rfl
  have hrow : calledTree.node? 5 = some (calledTree.node (.sets [3, 4])) := rfl
  obtain ⟨hnode, -, hlater⟩ := shared_computed_once (s := s) hordered hrow rfl
    (List.cons_ne_nil _ _) calledPortions_stand rfl rfl List.not_mem_nil hvalue
  obtain ⟨-, -, hreads, hrecast⟩ := hlater SequentialNames ⟨.start, [], [2], #[]⟩ .now
  exact ⟨hordered, calledPortions_stand, _, _, hvalue, rfl, hnode,
    fun p hp => hreads p (calledPortions_stand p hp), fun other => (hrecast other 5).1⟩

end Lower

end BytecodeCompiler
