import BytecodeCompiler.Lower
import BytecodeCompiler.Proofs.Lower.Ledger
import BytecodeCompiler.Proofs.Tree.WellFormed
import Mathlib.Data.List.Forall2

-- Two lowerings side by side. A pairing says when a step of one lowering goes with a step of
-- another, in a way that is kept by what all rules are made of: doing one step after the other,
-- giving up, and appending an instruction to the block at hand. Each rule is then gone through
-- once, here, and what is proved about lowering is a choice of a pairing.
--
-- A pairing also says which faults and which places it takes. A rule complains about a node that
-- lacks what the rule reads. So a pairing takes the complaints, or the tree must be sound.

namespace BytecodeCompiler

/-- Whether lowering complains about a node with the fault. -/
def Fault.isComplaint : Fault → Bool
  | .unknownNode .. | .identTooLong _ | .missingInference .. | .noValue .. | .breakOutsideLoop _ =>
    true
  | _ => false

/-- Whether the instruction works on operands and holds no label, no jump and no block. A call takes
an array of anything. -/
def Instr.isWork : Instr → Bool
  | .set .. | .typeAlias .. | .mov .. | .unary .. | .binary .. | .collection .. | .indexGet ..
  | .indexSet .. | .length .. | .attrGet .. | .attrSet .. | .cast .. | .ternary .. | .ret ..
  | .use .. => true
  | .call _ (.iterable (.array .any) _ _) _ => true
  | _ => false

theorem Instr.isStraight_of_isWork {i : Instr} (h : i.isWork = true) : i.isStraight = true := by
  cases i with
  | compareJump | jump | label | lambda | block => cases h
  | _ => rfl

/-- Whether the rule of the node makes labels, jumps or blocks. -/
def NodeKind.isControl : NodeKind → Bool
  | .block _ | .lambda _ | .func .. | .ifChain .. | .forIf .. | .forIn .. | .breakLoop => true
  | _ => false

/-- The children that are lowered for what they append. An attribute gives what its expression
gives. -/
def NodeKind.visited : NodeKind → List NodeId
  | .file _ nodes | .sets nodes => nodes
  | .exprStmt expr | .structAttr _ expr => [expr]
  | _ => []

theorem NodeKind.mem_children_of_mem_visited {kind : NodeKind} {child : NodeId}
    (h : child ∈ kind.visited) : child ∈ kind.children := by
  cases kind with
  | file | sets | exprStmt | structAttr => exact h
  | _ => cases h

/-- One node is reached from the other by going down at least once. -/
def Tree.Below (t : Tree) : NodeId → NodeId → Prop := Relation.TransGen t.IsChild

/-- One node lists the other where a value is needed. -/
def Tree.IsValue (t : Tree) (parent child : NodeId) : Prop :=
  ∃ n, t.node? parent = some n ∧ child ∈ n.kind.values

theorem Tree.IsValue.isChild {t : Tree} {parent child : NodeId} (h : t.IsValue parent child) :
    t.IsChild parent child := by
  obtain ⟨n, hn, hmem⟩ := h
  exact ⟨n, hn, NodeKind.mem_children_of_mem_values hmem⟩

namespace Lower

/-- What stands for the attribute: its expression, or a node of another kind itself. -/
def attrTarget (t : Tree) (id : NodeId) : NodeId :=
  match t.kind? id with
  | some (.structAttr _ expr) => expr
  | _ => id

theorem nodeAt_eq {σ : Type} {t : Tree} {id : NodeId} {n : Node} (h : t.node? id = some n) :
    (nodeAt t id : Lower σ Node) = pure n := by
  simp [nodeAt, h]

/-- Both sides give the same result, which is good. -/
def Same {α : Type} (good : α → Prop) (a b : α) : Prop := b = a ∧ good a

/-- When a step of one lowering goes with a step of another. -/
structure Pairing (σ τ : Type) where
  /-- The two steps go together, and their results are related. -/
  step {α β : Type} : (α → β → Prop) → Lower σ α → Lower τ β → Prop
  /-- The operands that both sides may make. -/
  accepts : Instr → Prop
  /-- The places that instructions may come from. -/
  spans : Span → Prop
  /-- The faults that both sides may give up with. -/
  faults : Fault → Prop
  step_pure {α β : Type} {rel : α → β → Prop} {a : α} {b : β} :
    rel a b → step rel (pure a) (pure b)
  step_throw {α β : Type} {rel : α → β → Prop} {fault : Fault} :
    faults fault → step rel (throw fault) (throw fault)
  step_bind {α β γ δ : Type} {rel : α → β → Prop} {rel' : γ → δ → Prop} {m : Lower σ α}
    {m' : Lower τ β} {f : α → Lower σ γ} {f' : β → Lower τ δ} : step rel m m' →
    (∀ a b, rel a b → step rel' (f a) (f' b)) → step rel' (m >>= f) (m' >>= f')
  step_push {i : Instr} : i.isWork = true → spans i.span → (∀ o ∈ i.operands, accepts o) →
    step (Same fun _ => True) (push i) (push i)
  step_isProcessed (id : NodeId) (flag : Bool) :
    step (Same fun _ => True) (isProcessed id flag) (isProcessed id flag)
  step_markProcessed (id : NodeId) :
    step (Same fun _ => True) (markProcessed id) (markProcessed id)
  spans_none : spans .none
  accepts_value (v : Value) {span : Span} : spans span → accepts (.value v span)
  accepts_wrapped {inner : Instr} (ty : Ty) {span : Span} :
    spans span → accepts inner → accepts (.wrapped ty inner span)
  accepts_iterable {members : List Instr} (ty : Ty) {span : Span} :
    spans span → (∀ m ∈ members, accepts m) → accepts (.iterable ty members span)

namespace Pairing

variable {σ τ : Type} (p : Pairing σ τ) {α β γ : Type} {t : Tree} {walk : Walk σ} {walk' : Walk τ}

/-! ## What a node has to have -/

/-- Both sides may complain about any node. -/
def Lenient : Prop := ∀ fault : Fault, fault.isComplaint = true → p.faults fault

/-- What a rule needs is so, if both sides may not complain. -/
def Granted (needed : Prop) : Prop := p.Lenient ∨ needed

/-- The node can be lowered: it is there and has what is promised about it, as far as both sides may
not give up without. -/
structure Fits (t : Tree) (id : NodeId) : Prop where
  missing : t.node? id = none → p.faults (.noSuchNode id)
  span : ∀ {n}, t.node? id = some n → p.spans n.span
  sound : ∀ {n}, t.node? id = some n → p.Granted (n.Sound t)

/-- The pairing takes all faults, and all places of the tree. -/
structure Covers (t : Tree) : Prop where
  faults : ∀ fault, p.faults fault
  spans : ∀ {id n}, t.node? id = some n → p.spans n.span

variable {p}

theorem Granted.imp {needed needed' : Prop} (h : p.Granted needed) (himp : needed → needed') :
    p.Granted needed' := Or.imp_right himp h

theorem Covers.lenient (h : p.Covers t) : p.Lenient := fun fault _ => h.faults fault

theorem Covers.granted (h : p.Covers t) (needed : Prop) : p.Granted needed := Or.inl h.lenient

theorem Covers.fits (h : p.Covers t) (id : NodeId) : p.Fits t id where
  missing _ := h.faults _
  span := h.spans
  sound _ := h.granted _

/-- What a rule lacks, both sides may complain about. -/
theorem Granted.step_throw {needed : Prop} {fault : Fault} {rel : α → β → Prop}
    (h : p.Granted needed) (hnot : ¬ needed) (hfault : fault.isComplaint = true) :
    p.step rel (throw fault) (throw fault) :=
  h.elim (fun hlenient => p.step_throw (hlenient fault hfault)) fun hneeded => absurd hneeded hnot

variable (p)

/-! ## Steps that give the same on both sides -/

theorem bind_same {good : α → Prop} {rel : β → γ → Prop} {m : Lower σ α} {m' : Lower τ α}
    {f : α → Lower σ β} {f' : α → Lower τ γ} (hm : p.step (Same good) m m')
    (hf : ∀ a, good a → p.step rel (f a) (f' a)) : p.step rel (m >>= f) (m' >>= f') := by
  apply p.step_bind hm
  rintro _ _ ⟨rfl, ha⟩
  exact hf _ ha

theorem pure_same {good : α → Prop} {a : α} (ha : good a) :
    p.step (Same good) (pure a) (pure a) := p.step_pure ⟨rfl, ha⟩

variable {p}

theorem step_nodeAt {id : NodeId} (h : p.Fits t id) :
    p.step (Same fun n => t.node? id = some n) (nodeAt t id) (nodeAt t id) := by
  unfold nodeAt
  cases hn : t.node? id with
  | some n => exact p.pure_same rfl
  | none => exact p.step_throw (h.missing hn)

theorem step_tyOf {n : Node} (what : String) (h : p.Granted (n.ty?.isSome = true)) :
    p.step (Same fun ty => n.ty? = some ty) (tyOf n what) (tyOf n what) := by
  unfold tyOf
  split
  · exact p.pure_same ‹_›
  · rename_i hnone
    exact h.step_throw (by simp [Node.ty?, hnone]) rfl

theorem step_identOfName {name : String}
    (h : p.Granted (name.utf8ByteSize ≤ Ident.maxName)) :
    p.step (Same fun _ => True) (identOfName name) (identOfName name) := by
  unfold identOfName Ident.ofName Ident.ofName?
  by_cases hfits : name.utf8ByteSize ≤ Ident.maxName
  · rw [if_pos hfits]
    exact p.pure_same trivial
  · rw [if_neg hfits]
    exact h.step_throw hfits rfl

theorem step_identsOfNames {names : List String}
    (h : ∀ name ∈ names, p.Granted (name.utf8ByteSize ≤ Ident.maxName)) :
    p.step (Same fun _ => True) (identsOfNames names) (identsOfNames names) := by
  induction names with
  | nil => exact p.pure_same trivial
  | cons name names ih =>
    obtain ⟨hfirst, hothers⟩ := List.forall_mem_cons.mp h
    apply p.bind_same (step_identOfName hfirst)
    intro first _
    exact p.bind_same (ih hothers) fun _ _ => p.pure_same trivial

theorem step_identOf {n : Node} {name : String}
    (h : p.Granted (n.ident? = none → name.utf8ByteSize ≤ Ident.maxName)) :
    p.step (Same fun _ => True) (identOf n name) (identOf n name) := by
  unfold identOf
  split
  · exact p.pure_same trivial
  · rename_i hnone
    exact step_identOfName (h.imp fun hname => hname hnone)

theorem accepts_top (p : Pairing σ τ) : p.accepts top := p.accepts_value _ p.spans_none

/-- After an instruction that leaves a result, the operand is the top of the stack. -/
theorem step_push_top {i : Instr} (hi : i.isWork = true) (hspan : p.spans i.span)
    (ho : ∀ o ∈ i.operands, p.accepts o) :
    p.step (Same p.accepts) (do push i; return top) (do push i; return top) :=
  p.bind_same (p.step_push hi hspan ho) fun _ _ => p.pure_same p.accepts_top

variable (p)

/-! ## Nodes -/

/-- The two walks agree on a node that must give an operand. -/
abbrev Value (t : Tree) (walk : Walk σ) (walk' : Walk τ) (id : NodeId) : Prop :=
  p.step (Same p.accepts) (operand t walk id) (operand t walk' id)

/-- The two walks agree on a node, which may give an operand. -/
abbrev Visit (walk : Walk σ) (walk' : Walk τ) (id : NodeId) : Prop :=
  p.step (Same fun result => ∀ i ∈ result, p.accepts i) (walk id) (walk' id)

variable {p}

theorem Visit.value {id : NodeId} (hlenient : p.Lenient) (hid : p.Fits t id)
    (h : p.Visit walk walk' id) : p.Value t walk walk' id := by
  apply p.bind_same h
  intro result hresult
  cases result with
  | some i => exact p.pure_same (hresult i rfl)
  | none => exact p.bind_same (step_nodeAt hid) fun n _ => p.step_throw (hlenient _ rfl)

theorem step_operands {ids : List NodeId} (hids : ∀ c ∈ ids, p.Value t walk walk' c) :
    p.step (Same fun is => ∀ i ∈ is, p.accepts i) (operands t walk ids) (operands t walk' ids) := by
  induction ids with
  | nil => exact p.pure_same (List.forall_mem_nil _)
  | cons id ids ih =>
    obtain ⟨hfirst, hothers⟩ := List.forall_mem_cons.mp hids
    apply p.bind_same hfirst
    intro first hoperand
    apply p.bind_same (ih hothers)
    intro others hoperands
    exact p.pure_same (List.forall_mem_cons.mpr ⟨hoperand, hoperands⟩)

theorem step_all {ids : List NodeId} (hids : ∀ c ∈ ids, p.Visit walk walk' c) :
    p.step (Same fun _ => True) (all walk ids) (all walk' ids) := by
  induction ids with
  | nil => exact p.pure_same trivial
  | cons id ids ih =>
    obtain ⟨hfirst, hothers⟩ := List.forall_mem_cons.mp hids
    exact p.bind_same hfirst fun _ _ => ih hothers

/-! ## Expressions -/

theorem step_literal {n : Node} (hspan : p.spans n.span)
    (hvalue : p.Granted (n.info.value.isSome = true)) :
    p.step (Same p.accepts) (literal n) (literal n) := by
  unfold literal
  split
  · exact p.pure_same (p.accepts_value _ hspan)
  · rename_i hnone
    exact hvalue.step_throw (by simp [hnone]) rfl

theorem step_ident {n : Node} {name : String} (hspan : p.spans n.span)
    (hname : p.Granted (n.ident? = none → name.utf8ByteSize ≤ Ident.maxName)) :
    p.step (Same p.accepts) (ident n name) (ident n name) :=
  p.bind_same (step_identOf hname) fun _ _ => p.pure_same (p.accepts_value _ hspan)

theorem step_iterable {n : Node} {exprs : List NodeId} (hspan : p.spans n.span)
    (hty : p.Granted (n.ty?.isSome = true)) (hexprs : ∀ c ∈ exprs, p.Value t walk walk' c) :
    p.step (Same p.accepts) (iterable t walk n exprs) (iterable t walk' n exprs) := by
  apply p.bind_same (step_tyOf _ hty)
  intro ty _
  apply p.bind_same (step_operands hexprs)
  intro members hmembers
  exact p.pure_same (p.accepts_iterable _ hspan hmembers)

theorem step_attrExpr {id : NodeId} (hid : p.Fits t id) :
    p.step (Same fun target => target = attrTarget t id) (attrExpr t id) (attrExpr t id) := by
  apply p.bind_same (step_nodeAt hid)
  intro n hn
  unfold attrTarget
  rw [Tree.kind?, hn, Option.map_some]
  cases n.kind with
  | structAttr name expr => exact p.pure_same rfl
  | _ => exact p.pure_same rfl

theorem step_attrs {ids : List NodeId} (hfits : ∀ c ∈ ids, p.Fits t c)
    (hids : ∀ c ∈ ids, p.Value t walk walk' (attrTarget t c)) :
    p.step (Same fun is => ∀ i ∈ is, p.accepts i) (attrs t walk ids) (attrs t walk' ids) := by
  induction ids with
  | nil => exact p.pure_same (List.forall_mem_nil _)
  | cons id ids ih =>
    obtain ⟨hid, hfits⟩ := List.forall_mem_cons.mp hfits
    obtain ⟨hfirst, hothers⟩ := List.forall_mem_cons.mp hids
    apply p.bind_same (step_attrExpr hid)
    rintro _ rfl
    apply p.bind_same hfirst
    intro first hoperand
    apply p.bind_same (ih hfits hothers)
    intro others hoperands
    exact p.pure_same (List.forall_mem_cons.mpr ⟨hoperand, hoperands⟩)

theorem step_struct {n : Node} {ids : List NodeId} (hspan : p.spans n.span)
    (hty : p.Granted (n.ty?.isSome = true)) (hfits : ∀ c ∈ ids, p.Fits t c)
    (hids : ∀ c ∈ ids, p.Value t walk walk' (attrTarget t c)) :
    p.step (Same p.accepts) (struct t walk n ids) (struct t walk' n ids) := by
  apply p.bind_same (step_tyOf _ hty)
  intro ty _
  apply p.bind_same (step_attrs hfits hids)
  intro members hmembers
  exact p.pure_same (p.accepts_iterable _ hspan hmembers)

theorem step_call {n : Node} {callee : NodeId} {args : List NodeId} (hspan : p.spans n.span)
    (hcallee : p.Value t walk walk' callee) (hargs : ∀ c ∈ args, p.Value t walk walk' c) :
    p.step (Same p.accepts) (call t walk n callee args) (call t walk' n callee args) := by
  apply p.bind_same hcallee
  intro f hf
  apply p.bind_same (step_operands hargs)
  intro members hmembers
  have hargument : p.accepts (.args members n.span) := p.accepts_iterable _ hspan hmembers
  exact step_push_top rfl hspan (by simp [Instr.operands, hf, hargument])

theorem step_index {n : Node} {expr position : NodeId} (nilSafe : Bool) (hspan : p.spans n.span)
    (hexpr : p.Value t walk walk' expr) (hposition : p.Value t walk walk' position) :
    p.step (Same p.accepts) (index t walk n expr position nilSafe)
      (index t walk' n expr position nilSafe) := by
  apply p.bind_same hexpr
  intro a ha
  apply p.bind_same hposition
  intro b hb
  exact step_push_top rfl hspan (by simp [Instr.operands, ha, hb])

theorem step_dot {n : Node} {expr : NodeId} {name : String} (nilSafe : Bool)
    (hspan : p.spans n.span)
    (hname : p.Granted (n.ident? = none → name.utf8ByteSize ≤ Ident.maxName))
    (hexpr : p.Value t walk walk' expr) :
    p.step (Same p.accepts) (dot t walk n expr name nilSafe) (dot t walk' n expr name nilSafe) := by
  apply p.bind_same hexpr
  intro a ha
  apply p.bind_same (step_identOf hname)
  intro i _
  exact step_push_top rfl hspan (by simp [Instr.operands, ha])

/-- A spread has a type, or what it spreads has one. -/
theorem step_spread {n : Node} {expr : NodeId} (hspan : p.spans n.span) (hfits : p.Fits t expr)
    (hty : p.Granted (n.ty?.isSome = true ∨ ((t.node? expr).bind Node.ty?).isSome = true))
    (hexpr : p.Value t walk walk' expr) :
    p.step (Same p.accepts) (spread t walk n expr) (spread t walk' n expr) := by
  have hwrap : ∀ ty, p.step (Same p.accepts)
      (do return .wrapped ty (← operand t walk expr) n.span)
      (do return .wrapped ty (← operand t walk' expr) n.span) :=
    fun ty => p.bind_same hexpr fun _ ha => p.pure_same (p.accepts_wrapped _ hspan ha)
  unfold spread
  split
  · exact hwrap _
  · rename_i hnone
    apply p.bind_same (step_nodeAt hfits)
    intro e he
    have hother : p.Granted (e.ty?.isSome = true) := by
      refine hty.imp fun h => ?_
      rw [Node.ty?, hnone, he] at h
      exact h.resolve_left Bool.false_ne_true
    exact p.bind_same (step_tyOf _ hother) fun ty _ => hwrap ty

theorem step_binary {n : Node} (op : Operator) {left right : NodeId} (hspan : p.spans n.span)
    (hleft : p.Value t walk walk' left) (hright : p.Value t walk walk' right) :
    p.step (Same p.accepts) (binary t walk n op left right) (binary t walk' n op left right) := by
  apply p.bind_same hleft
  intro a ha
  apply p.bind_same hright
  intro b hb
  exact step_push_top rfl hspan (by simp [Instr.operands, ha, hb])

theorem step_unary {n : Node} (op : Operator) {expr : NodeId} (hspan : p.spans n.span)
    (hexpr : p.Value t walk walk' expr) :
    p.step (Same p.accepts) (unary t walk n op expr) (unary t walk' n op expr) := by
  apply p.bind_same hexpr
  intro a ha
  exact step_push_top rfl hspan (by simp [Instr.operands, ha])

theorem step_ternary {n : Node} {cond ifTrue ifFalse : NodeId} (hspan : p.spans n.span)
    (hcond : p.Value t walk walk' cond) (htrue : p.Value t walk walk' ifTrue)
    (hfalse : p.Value t walk walk' ifFalse) :
    p.step (Same p.accepts) (ternary t walk n cond ifTrue ifFalse)
      (ternary t walk' n cond ifTrue ifFalse) := by
  apply p.bind_same hcond
  intro a ha
  apply p.bind_same htrue
  intro b hb
  apply p.bind_same hfalse
  intro c hc
  exact step_push_top rfl hspan (by simp [Instr.operands, ha, hb, hc])

theorem step_cast {n : Node} {expr : NodeId} (hspan : p.spans n.span)
    (hty : p.Granted (n.ty?.isSome = true)) (hexpr : p.Value t walk walk' expr) :
    p.step (Same p.accepts) (cast t walk n expr) (cast t walk' n expr) := by
  apply p.bind_same hexpr
  intro a ha
  apply p.bind_same (step_tyOf _ hty)
  intro ty _
  have hmachine : p.step (Same p.accepts) (do push (.cast ty a n.span); return top)
      (do push (.cast ty a n.span); return top) :=
    step_push_top rfl hspan (by simp [Instr.operands, ha])
  split
  · split
    · exact hmachine
    · exact p.pure_same (p.accepts_value _ hspan)
  · exact hmachine

/-! ## Declarations and assignments -/

theorem step_sharedWhole (id : NodeId) {n : Node} {expr : NodeId} (flag : Bool)
    (hspan : p.spans n.span) (hexpr : p.Value t walk walk' expr) :
    p.step (Same p.accepts) (sharedWhole t walk id n expr flag)
      (sharedWhole t walk' id n expr flag) := by
  apply p.bind_same (p.step_isProcessed id flag)
  intro done _
  have hregister : p.accepts (.register .ra n.span) := p.accepts_value _ hspan
  split
  · apply p.bind_same hexpr
    intro a ha
    have hmov : p.step (Same fun _ => True) (push (.mov (.register .ra n.span) a n.span))
        (push (.mov (.register .ra n.span) a n.span)) :=
      p.step_push rfl hspan (by simp [Instr.operands, ha, hregister])
    apply p.bind_same hmov
    intro _ _
    exact p.bind_same (p.step_markProcessed id) fun _ _ => p.pure_same hregister
  · exact p.pure_same hregister

theorem step_sharedElement (id : NodeId) {n : Node} {expr : NodeId} (flag : Bool) (element : Nat)
    (hspan : p.spans n.span) (hexpr : p.Value t walk walk' expr) :
    p.step (Same p.accepts) (sharedElement t walk id n expr flag element)
      (sharedElement t walk' id n expr flag element) := by
  apply p.bind_same (step_sharedWhole id flag hspan hexpr)
  intro a ha
  exact step_push_top rfl hspan (by simp [Instr.operands, ha, p.accepts_value _ hspan])

/-- A declaration reads its expression, or what a shared expression computes. -/
theorem step_declared {expr : NodeId} (element : Nat) (hfits : p.Fits t expr)
    (hexpr : p.Value t walk walk' expr)
    (hinner : ∀ c, t.IsValue expr c → p.Value t walk walk' c) :
    p.step (Same p.accepts) (declared t walk expr element) (declared t walk' expr element) := by
  apply p.bind_same (step_nodeAt hfits)
  intro e he
  split
  · rename_i inner flag hkind
    exact step_sharedElement expr flag element (hfits.span he)
      (hinner inner ⟨e, he, by simp [hkind, NodeKind.values]⟩)
  · exact hexpr

theorem step_set {n : Node} (isPub isConst : Bool) {name : String} {expr : NodeId} {element : Nat}
    (hspan : p.spans n.span)
    (hname : p.Granted (n.ident? = none → name.utf8ByteSize ≤ Ident.maxName))
    (hty : p.Granted (n.ty?.isSome = true))
    (hvalue : p.step (Same p.accepts) (declared t walk expr element)
      (declared t walk' expr element)) :
    p.step (Same fun _ => True) (set t walk n isPub isConst name expr element)
      (set t walk' n isPub isConst name expr element) := by
  apply p.bind_same hvalue
  intro a ha
  apply p.bind_same (step_identOf hname)
  intro i _
  apply p.bind_same (step_tyOf _ hty)
  intro ty _
  exact p.step_push rfl hspan (by simp [Instr.operands, ha])

theorem step_typeAlias {n : Node} (isPub : Bool) {name : String} (hspan : p.spans n.span)
    (hty : p.Granted (n.ty?.isSome = true))
    (hname : p.Granted (name.utf8ByteSize ≤ Ident.maxName)) :
    p.step (Same fun _ => True) (typeAlias n isPub name) (typeAlias n isPub name) := by
  apply p.bind_same (step_tyOf _ hty)
  intro ty _
  apply p.bind_same (step_identOfName hname)
  intro i _
  exact p.step_push rfl hspan (List.forall_mem_nil _)

theorem step_use {n : Node} {resolved : String} {imports : List String} {mode : UseMode}
    (hspan : p.spans n.span)
    (hnames : mode.isEmitted = true →
      ∀ name ∈ resolved :: imports, p.Granted (name.utf8ByteSize ≤ Ident.maxName)) :
    p.step (Same fun _ => True) (use n resolved imports mode) (use n resolved imports mode) := by
  unfold use
  split
  · obtain ⟨hresolved, himports⟩ := List.forall_mem_cons.mp (hnames ‹_›)
    apply p.bind_same (step_identsOfNames himports)
    intro is _
    apply p.bind_same (step_identOfName hresolved)
    intro package _
    exact p.step_push rfl hspan (List.forall_mem_nil _)
  · exact p.pure_same trivial

/-- An assignment reads the parts of its target, if it is an element or an attribute. -/
theorem step_update {n : Node} {lhs rhs : NodeId} (hspan : p.spans n.span) (hfits : p.Fits t lhs)
    (hlhs : p.Value t walk walk' lhs) (hrhs : p.Value t walk walk' rhs)
    (hparts : ∀ c, t.IsValue lhs c → p.Value t walk walk' c) :
    p.step (Same fun _ => True) (update t walk n lhs rhs) (update t walk' n lhs rhs) := by
  apply p.bind_same (step_nodeAt hfits)
  intro l hl
  have hname : ∀ name ∈ l.kind.resolvedName,
      p.Granted (l.ident? = none → name.utf8ByteSize ≤ Ident.maxName) :=
    fun name hname => (hfits.sound hl).imp fun hsound => hsound.resolved name hname
  split
  · rename_i expr position nilSafe hkind
    apply p.bind_same (hparts expr ⟨l, hl, by simp [hkind, NodeKind.values]⟩)
    intro a ha
    apply p.bind_same (hparts position ⟨l, hl, by simp [hkind, NodeKind.values]⟩)
    intro b hb
    apply p.bind_same hrhs
    intro c hc
    exact p.step_push rfl hspan (by simp [Instr.operands, ha, hb, hc])
  · rename_i expr name nilSafe hkind
    apply p.bind_same (hparts expr ⟨l, hl, by simp [hkind, NodeKind.values]⟩)
    intro a ha
    apply p.bind_same (step_identOf (hname name (by rw [hkind]; rfl)))
    intro i _
    apply p.bind_same hrhs
    intro b hb
    exact p.step_push rfl hspan (by simp [Instr.operands, ha, hb])
  · rename_i name hkind
    have hreference : ∀ i, p.accepts (.reference i l.span) :=
      fun i => p.accepts_value _ (hfits.span hl)
    apply p.bind_same (step_identOf (hname name (by rw [hkind]; rfl)))
    intro i _
    apply p.bind_same hrhs
    intro a ha
    exact p.step_push rfl hspan (by simp [Instr.operands, ha, hreference])
  · apply p.bind_same hlhs
    intro a ha
    apply p.bind_same hrhs
    intro b hb
    exact p.step_push rfl hspan (by simp [Instr.operands, ha, hb])

theorem step_collection {n : Node} (op : CollectionOp) {target value : NodeId}
    (hspan : p.spans n.span) (htarget : p.Value t walk walk' target)
    (hvalue : p.Value t walk walk' value) :
    p.step (Same fun _ => True) (collection t walk n op target value)
      (collection t walk' n op target value) := by
  apply p.bind_same htarget
  intro a ha
  apply p.bind_same hvalue
  intro b hb
  exact p.step_push rfl hspan (by simp [Instr.operands, ha, hb])

theorem step_ret {n : Node} {expr : Option NodeId} (hspan : p.spans n.span)
    (hexpr : ∀ c ∈ expr.toList, p.Value t walk walk' c) :
    p.step (Same fun _ => True) (ret t walk n expr) (ret t walk' n expr) := by
  have hret : ∀ a, p.accepts a →
      p.step (Same fun _ => True) (push (.ret a n.span)) (push (.ret a n.span)) :=
    fun a ha => p.step_push rfl hspan (by simp [Instr.operands, ha])
  cases expr with
  | some expr => exact p.bind_same (hexpr expr List.mem_cons_self) hret
  | none => exact hret _ (p.accepts_value _ hspan)

theorem step_file {n : Node} (hfile : p.Granted (n.kind.isFile = true))
    (hnodes : ∀ c ∈ n.kind.children, p.Visit walk walk' c) :
    p.step (Same fun _ => True) (file walk n) (file walk' n) := by
  unfold file
  cases hkind : n.kind with
  | file name nodes =>
    rw [hkind] at hnodes
    exact step_all hnodes
  | _ => exact hfile.step_throw (by rw [hkind]; exact Bool.false_ne_true) rfl

/-! ## Rules -/

theorem step_expression {m : Lower σ Instr} {m' : Lower τ Instr}
    (h : p.step (Same p.accepts) m m') :
    p.step (Same fun result => ∀ i ∈ result, p.accepts i) (expression m) (expression m') := by
  apply p.bind_same h
  intro a ha
  exact p.pure_same (by simpa using ha)

theorem step_statement {m : Lower σ Unit} {m' : Lower τ Unit}
    (h : p.step (Same fun _ => True) m m') :
    p.step (Same fun result => ∀ i ∈ result, p.accepts i) (statement m) (statement m') :=
  p.bind_same h fun _ _ => p.pure_same (by simp)

variable [NameSupply σ] [NameSupply τ]

/-- What a rule relies on from its node down: the nodes can be lowered, and the walks agree on those
that have to give an operand. -/
structure Grounded (p : Pairing σ τ) (t : Tree) (walk : Walk σ) (walk' : Walk τ) (id : NodeId) :
    Prop where
  fits : ∀ c, t.Reaches id c → p.Fits t c
  value : ∀ above c, t.Reaches id above → t.IsValue above c → p.Value t walk walk' c

/-- A rule without control goes with itself if its walks agree on the nodes below: on all that have
to give an operand, and on the children that are lowered for what they append. -/
theorem visit_rule {id : NodeId} {n : Node} (hn : t.node? id = some n)
    (hcontrol : n.kind.isControl = false) (h : p.Grounded t walk walk' id)
    (hvisit : ∀ c ∈ n.kind.visited, p.Visit walk walk' c) :
    p.Visit (rule t walk) (rule t walk') id := by
  have hspan : p.spans n.span := (h.fits id .refl).span hn
  have hsound : p.Granted (n.Sound t) := (h.fits id .refl).sound hn
  have hchild : ∀ c ∈ n.kind.values, t.IsChild id c :=
    fun c hc => ⟨n, hn, NodeKind.mem_children_of_mem_values hc⟩
  have hfits : ∀ c ∈ n.kind.values, p.Fits t c := fun c hc => h.fits c (.single (hchild c hc))
  have hvalue : ∀ c ∈ n.kind.values, p.Value t walk walk' c :=
    fun c hc => h.value id c .refl ⟨n, hn, hc⟩
  have hpart : ∀ c ∈ n.kind.values, ∀ d, t.IsValue c d → p.Value t walk walk' d :=
    fun c hc d hd => h.value c d (.single (hchild c hc)) hd
  apply p.bind_same (step_nodeAt (h.fits id .refl))
  intro m hm
  obtain rfl : n = m := Option.some.inj (hn.symm.trans hm)
  rcases n with ⟨kind, span, parent, info⟩
  cases kind with
  | block | lambda | func | ifChain | forIf | forIn | breakLoop => cases hcontrol
  | file name nodes => exact step_statement (step_file (.inr rfl) hvisit)
  | literal => exact step_expression (step_literal hspan (hsound.imp fun hn => hn.literal rfl))
  | ident name =>
    exact step_expression (step_ident hspan (hsound.imp fun hn => hn.resolved name rfl))
  | tuple exprs | array exprs =>
    exact step_expression (step_iterable hspan (hsound.imp fun hn => hn.typed rfl) hvalue)
  | struct attrs =>
    refine step_expression
      (step_struct hspan (hsound.imp fun hn => hn.typed rfl) hfits fun c hc => ?_)
    -- An attribute stands for its expression, which is one level further down.
    unfold attrTarget
    split
    · rename_i name expr hattr
      obtain ⟨a, ha, hakind⟩ := Option.map_eq_some_iff.mp hattr
      exact hpart c hc expr ⟨a, ha, by simp [hakind, NodeKind.values]⟩
    · exact hvalue c hc
  | structAttr name expr => exact hvisit expr List.mem_cons_self
  | ret expr => exact step_statement (step_ret hspan hvalue)
  | index expr position nilSafe =>
    exact step_expression (step_index nilSafe hspan (hvalue expr (by simp [NodeKind.values]))
      (hvalue position (by simp [NodeKind.values])))
  | call callee args =>
    obtain ⟨hcallee, hargs⟩ := List.forall_mem_cons.mp hvalue
    exact step_expression (step_call hspan hcallee hargs)
  | dot expr name nilSafe =>
    exact step_expression (step_dot nilSafe hspan (hsound.imp fun hn => hn.resolved name rfl)
      (hvalue expr List.mem_cons_self))
  | spread expr =>
    exact step_expression (step_spread hspan (hfits expr List.mem_cons_self)
      (hsound.imp fun hn => hn.spread expr rfl) (hvalue expr List.mem_cons_self))
  | sets group => exact step_statement (step_all hvisit)
  | set isPub isConst name expr element =>
    exact step_statement (step_set isPub isConst hspan
      (hsound.imp fun hn => hn.resolved name rfl) (hsound.imp fun hn => hn.typed rfl)
      (step_declared element (hfits expr List.mem_cons_self) (hvalue expr List.mem_cons_self)
        (hpart expr List.mem_cons_self)))
  | shared expr flag =>
    exact step_expression (step_sharedWhole id flag hspan (hvalue expr List.mem_cons_self))
  | update lhs rhs =>
    exact step_statement (step_update hspan (hfits lhs (by simp [NodeKind.values]))
      (hvalue lhs (by simp [NodeKind.values])) (hvalue rhs (by simp [NodeKind.values]))
      (hpart lhs (by simp [NodeKind.values])))
  | typeAlias isPub name =>
    exact step_statement (step_typeAlias isPub hspan (hsound.imp fun hn => hn.typed rfl)
      (hsound.imp fun hn => hn.spelled name List.mem_cons_self))
  | cast expr =>
    exact step_expression (step_cast hspan (hsound.imp fun hn => hn.typed rfl)
      (hvalue expr List.mem_cons_self))
  | use path resolved imports mode =>
    refine step_statement (step_use hspan fun hmode name hname => hsound.imp fun hn => ?_)
    exact hn.spelled name (by simpa only [NodeKind.spelledNames, if_pos hmode] using hname)
  | ternary cond ifTrue ifFalse =>
    exact step_expression (step_ternary hspan (hvalue cond (by simp [NodeKind.values]))
      (hvalue ifTrue (by simp [NodeKind.values])) (hvalue ifFalse (by simp [NodeKind.values])))
  | collection op target value =>
    exact step_statement (step_collection op hspan (hvalue target (by simp [NodeKind.values]))
      (hvalue value (by simp [NodeKind.values])))
  | binary op left right =>
    exact step_expression (step_binary op hspan (hvalue left (by simp [NodeKind.values]))
      (hvalue right (by simp [NodeKind.values])))
  | unary op expr => exact step_expression (step_unary op hspan (hvalue expr List.mem_cons_self))
  | exprStmt expr => exact step_statement (step_all hvisit)

end Pairing

end Lower

end BytecodeCompiler
