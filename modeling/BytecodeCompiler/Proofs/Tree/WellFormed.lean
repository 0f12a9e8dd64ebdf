import BytecodeCompiler.Tree
import Mathlib.Logic.Relation

-- Well-formed programs: what a parser and a checker promise about the nodes below a file. Every
-- node stands where its kind may stand, every slot that has to be filled is filled, and every break
-- stands in a loop. All of it is said about the nodes that are reached from the file and about the
-- parents that these nodes store. A node outside matters only as such a parent: it may have listed
-- a node below the file and so have set its link.

namespace BytecodeCompiler

namespace NodeKind

/-! ## What stands where -/

/-- Whether the node stands for a value. -/
def isExpression : NodeKind → Bool
  | .literal | .ident _ | .lambda _ | .tuple _ | .struct _ | .structAttr .. | .array _ | .index ..
  | .call .. | .dot .. | .spread _ | .shared .. | .cast _ | .ternary .. | .binary ..
  | .unary .. => true
  | _ => false

def isLiteral : NodeKind → Bool
  | .literal => true
  | _ => false

def isFile : NodeKind → Bool
  | .file .. => true
  | _ => false

def isBlock : NodeKind → Bool
  | .block _ => true
  | _ => false

def isChain : NodeKind → Bool
  | .ifChain .. => true
  | _ => false

def isSet : NodeKind → Bool
  | .set .. => true
  | _ => false

def isShared : NodeKind → Bool
  | .shared .. => true
  | _ => false

def isBreak : NodeKind → Bool
  | .breakLoop => true
  | _ => false

/-- The children that stand where a value is needed. -/
def values : NodeKind → List NodeId
  | .tuple exprs | .array exprs => exprs
  | .struct attrs => attrs
  | .structAttr _ expr | .dot expr .. | .spread expr | .set _ _ _ expr _ | .shared expr _
  | .cast expr | .unary _ expr => [expr]
  | .ret expr => expr.toList
  | .index expr position _ => [expr, position]
  | .call callee args => callee :: args
  | .update lhs rhs => [lhs, rhs]
  | .ifChain conds .. | .forIf _ conds _ => conds
  | .ternary cond ifTrue ifFalse => [cond, ifTrue, ifFalse]
  | .forIn _ _ expr _ => [expr]
  | .collection _ target value => [target, value]
  | .binary _ left right => [left, right]
  | _ => []

/-- The parts of an element or an attribute that is assigned to. Anything else is its own part. -/
def targetParts (id : NodeId) : NodeKind → List NodeId
  | .index expr position _ => [expr, position]
  | .dot expr _ _ => [expr]
  | _ => [id]

/-- The other children that may only be of one kind, and that kind. -/
def fixedKinds : NodeKind → List NodeId × (NodeKind → Bool)
  | .lambda body => ([body], isBlock)
  | .func _ _ function => ([function], isLambda)
  | .ifChain _ _ elseIfs _ => (elseIfs, isChain)
  | .forIn key value _ _ => (key.toList ++ value.toList, isSet)
  | _ => ([], isExpression)

/-! ## What is found out -/

/-- Whether the machine is told the type of the node. -/
def isTyped : NodeKind → Bool
  | .tuple _ | .array _ | .struct _ | .set .. | .func .. | .typeAlias .. | .cast _ => true
  | _ => false

/-- What a spread spreads. -/
def spreadOperand : NodeKind → Option NodeId
  | .spread expr => some expr
  | _ => none

/-- The name in the source of a node whose name is resolved. -/
def resolvedName : NodeKind → Option String
  | .ident name | .dot _ name _ | .set _ _ name _ _ | .func _ name _ => some name
  | _ => none

/-- The names that go into the code as they are spelled. -/
def spelledNames : NodeKind → List String
  | .typeAlias _ name => [name]
  | .use _ resolved imports mode => if mode.isEmitted then resolved :: imports else []
  | _ => []

theorem mem_children_of_mem_values {kind : NodeKind} {child : NodeId} (h : child ∈ kind.values) :
    child ∈ kind.children := by
  cases kind with
  | set isPub isConst name expr element => exact h
  | update lhs rhs => exact h
  | ret expr => exact h
  | collection op target value => exact h
  | ifChain conds block elseIfs elseBlock => simp_all [values, children]
  | forIf sets conds block => simp_all [values, children]
  | forIn key value expr block => simp_all [values, children]
  | _ => first | exact h | cases h

/-- Below an expression, only the body of a function is no value. -/
theorem children_eq_values {kind : NodeKind} (h : kind.isExpression = true)
    (hlambda : kind.isLambda = false) : kind.children = kind.values := by
  cases kind with
  | lambda body => cases hlambda
  | literal | ident | tuple | struct | structAttr | array | index | call | dot | spread | shared
  | cast | ternary | binary | unary => rfl
  | _ => cases h

end NodeKind

namespace Node

/-- The type that the machine sees. -/
def ty? (n : Node) : Option Ty := n.info.runtimeTy <|> n.info.ty

/-- The name that the machine sees, where one was resolved. -/
def ident? (n : Node) : Option Ident := n.info.runtimeIdent <|> n.info.ident

end Node

namespace Tree

/-! ## Nodes and the nodes below them -/

/-- The node is there and of such a kind. -/
def Is (t : Tree) (p : NodeKind → Bool) (id : NodeId) : Prop := (t.kind? id).any p = true

instance (t : Tree) (p : NodeKind → Bool) (id : NodeId) : Decidable (t.Is p id) :=
  inferInstanceAs (Decidable (_ = true))

/-- One node lists the other among its children. -/
def IsChild (t : Tree) (parent child : NodeId) : Prop :=
  ∃ n, t.node? parent = some n ∧ child ∈ n.kind.children

/-- One node is reached from the other by going from parents to children. -/
def Reaches (t : Tree) : NodeId → NodeId → Prop := Relation.ReflTransGen t.IsChild

/-- One node is reached from the other without going into the body of a function. -/
def Inside (t : Tree) : NodeId → NodeId → Prop :=
  Relation.TransGen fun parent child => t.IsChild parent child ∧ ¬ t.Is NodeKind.isLambda parent

theorem is_iff {t : Tree} {p : NodeKind → Bool} {id : NodeId} {n : Node}
    (h : t.node? id = some n) : t.Is p id ↔ p n.kind = true := by
  simp [Is, kind?, h]

theorem exists_node_of_is {t : Tree} {p : NodeKind → Bool} {id : NodeId} (h : t.Is p id) :
    ∃ n, t.node? id = some n ∧ p n.kind = true := by
  cases hn : t.node? id with
  | none => simp [Is, kind?, hn] at h
  | some n => exact ⟨n, rfl, (is_iff hn).mp h⟩

theorem lt_size_of_node? {t : Tree} {id : Nat} {n : Node} (h : t.node? id = some n) :
    id < t.size := (Array.getElem?_eq_some_iff.mp h).1

theorem node?_of_lt_size {t : Tree} {id : Nat} (h : id < t.size) : ∃ n, t.node? id = some n :=
  ⟨_, Array.getElem?_eq_getElem h⟩

theorem Inside.reaches {t : Tree} {above below : NodeId} (h : t.Inside above below) :
    t.Reaches above below := by
  induction h with
  | single hedge => exact .single hedge.1
  | tail _ hedge ih => exact ih.tail hedge.1

end Tree

/-! ## Well-formed programs -/

/-- What is promised about a node, apart from how it hangs together with the nodes around it. -/
structure Node.Sound (t : Tree) (n : Node) : Prop where
  values : ∀ child ∈ n.kind.values, t.Is NodeKind.isExpression child
  fixed : ∀ child ∈ n.kind.fixedKinds.1, t.Is n.kind.fixedKinds.2 child
  literal : n.kind.isLiteral = true → n.info.value.isSome
  typed : n.kind.isTyped = true → n.ty?.isSome
  signature : n.kind.isLambda = true → (n.ty?.bind Ty.signature?).isSome
  /-- A spread has a type, or what it spreads has one. -/
  spread : ∀ expr ∈ n.kind.spreadOperand, n.ty?.isSome ∨ ((t.node? expr).bind Node.ty?).isSome
  /-- A name that was not resolved fits its length byte. -/
  resolved : ∀ name ∈ n.kind.resolvedName, n.ident? = none → name.utf8ByteSize ≤ Ident.maxName
  spelled : ∀ name ∈ n.kind.spelledNames, name.utf8ByteSize ≤ Ident.maxName

instance (t : Tree) (n : Node) : Decidable (n.Sound t) :=
  decidable_of_iff
    ((∀ child ∈ n.kind.values, t.Is NodeKind.isExpression child) ∧
      (∀ child ∈ n.kind.fixedKinds.1, t.Is n.kind.fixedKinds.2 child) ∧
      (n.kind.isLiteral = true → n.info.value.isSome) ∧
      (n.kind.isTyped = true → n.ty?.isSome) ∧
      (n.kind.isLambda = true → (n.ty?.bind Ty.signature?).isSome) ∧
      (∀ expr ∈ n.kind.spreadOperand,
        n.ty?.isSome ∨ ((t.node? expr).bind Node.ty?).isSome) ∧
      (∀ name ∈ n.kind.resolvedName, n.ident? = none → name.utf8ByteSize ≤ Ident.maxName) ∧
      ∀ name ∈ n.kind.spelledNames, name.utf8ByteSize ≤ Ident.maxName)
    ⟨fun ⟨values, fixed, literal, typed, signature, spread, resolved, spelled⟩ =>
      ⟨values, fixed, literal, typed, signature, spread, resolved, spelled⟩,
    fun h => ⟨h.values, h.fixed, h.literal, h.typed, h.signature, h.spread, h.resolved, h.spelled⟩⟩

namespace Tree

/-- A program that a parser and a checker went through, from its file down. -/
structure WellFormed (t : Tree) (root : NodeId) : Prop where
  file : t.Is NodeKind.isFile root
  ordered : ∀ {id child : Nat}, t.Reaches root id → t.IsChild id child → child < id
  /-- Only a shared expression is listed by a node that is not its parent. -/
  oneParent : ∀ {id child}, t.Reaches root id → t.IsChild id child →
    ¬ t.Is NodeKind.isShared child → t.parent? child = some id
  sound : ∀ {id n}, t.Reaches root id → t.node? id = some n → n.Sound t
  /-- A break stands in a loop below the file, and in the same function as the loop. -/
  breaks : ∀ {id}, t.Reaches root id → t.Is NodeKind.isBreak id →
    ∃ loop, t.Reaches root loop ∧ t.Is NodeKind.isLoop loop ∧ t.Inside loop id

/-- A tree is well-formed if what is asked of the nodes below the file is so for all nodes. -/
theorem WellFormed.of_nodes {t : Tree} {root : NodeId} (hfile : t.Is NodeKind.isFile root)
    (hsound : ∀ id < t.size, ∀ n ∈ t.node? id, n.Sound t)
    (hchildren : ∀ id < t.size, ∀ n ∈ t.node? id, ∀ child ∈ n.kind.children,
      child < id ∧ (¬ t.Is NodeKind.isShared child → t.parent? child = some id))
    (hbreaks : ∀ id < t.size, t.Is NodeKind.isBreak id →
      ∃ loop, t.Reaches root loop ∧ t.Is NodeKind.isLoop loop ∧ t.Inside loop id) :
    t.WellFormed root where
  file := hfile
  ordered _ hchild := by
    obtain ⟨n, hn, hmem⟩ := hchild
    exact (hchildren _ (lt_size_of_node? hn) n hn _ hmem).1
  oneParent _ hchild := by
    obtain ⟨n, hn, hmem⟩ := hchild
    exact (hchildren _ (lt_size_of_node? hn) n hn _ hmem).2
  sound _ hn := hsound _ (lt_size_of_node? hn) _ hn
  breaks _ hbreak := by
    obtain ⟨n, hn, -⟩ := exists_node_of_is hbreak
    exact hbreaks _ (lt_size_of_node? hn) hbreak

/-! ## The loop around a node -/

theorem enclosingLoop_eq {t : Tree} {id : NodeId} {n : Node} (h : t.node? id = some n) :
    t.enclosingLoop id =
      .ok (t.climb NodeKind.isLoop NodeKind.isLambda t.size (t.parent? id)) := by
  simp [enclosingLoop, ancestor, parent?, h]

/-- What the climb from a child meets first is its parent. -/
theorem climb_parent {t : Tree} {id : NodeId} {n : Node} (h : t.node? id = some n) (steps : Nat) :
    t.climb NodeKind.isLoop NodeKind.isLambda (steps + 1) (some id) =
      if n.kind.isLoop then some id
      else if n.kind.isLambda then none
      else t.climb NodeKind.isLoop NodeKind.isLambda steps (t.parent? id) := by
  simp [climb, parent?, h]

namespace WellFormed

variable {t : Tree} {root : NodeId} (h : WellFormed t root)

include h

theorem reaches_lt_size {id : Nat} (hid : t.Reaches root id) : id < t.size := by
  induction hid with
  | refl =>
    obtain ⟨n, hn, -⟩ := exists_node_of_is h.file
    exact lt_size_of_node? hn
  | tail hreach hchild ih => exact Nat.lt_trans (h.ordered hreach hchild) ih

theorem exists_node {id : Nat} (hid : t.Reaches root id) : ∃ n, t.node? id = some n :=
  node?_of_lt_size (h.reaches_lt_size hid)

/-- A child that is no expression stands below a statement or is the body of a function. -/
theorem not_expression_of_child {id child : NodeId} (hid : t.Reaches root id)
    (hchild : t.IsChild id child) (hexpr : ¬ t.Is NodeKind.isExpression child)
    (hlambda : ¬ t.Is NodeKind.isLambda id) : ¬ t.Is NodeKind.isExpression id := by
  intro hid'
  obtain ⟨n, hn, hmem⟩ := hchild
  rw [is_iff hn, Bool.not_eq_true] at hlambda
  rw [NodeKind.children_eq_values ((is_iff hn).mp hid') hlambda] at hmem
  exact hexpr ((h.sound hid hn).values child hmem)

omit h in
theorem not_shared_of_not_expression {id : NodeId} (hexpr : ¬ t.Is NodeKind.isExpression id) :
    ¬ t.Is NodeKind.isShared id := by
  intro hshared
  obtain ⟨n, hn, hkind⟩ := exists_node_of_is hshared
  refine hexpr ((is_iff hn).mpr ?_)
  cases hk : n.kind with
  | shared expr flag => rfl
  | _ => rw [hk] at hkind; cases hkind

/-- From a statement inside a loop, climbing leads to a loop below the file that it is inside. By
the path from the loop down: the parent is a loop itself, or a statement inside the loop too. -/
theorem climb_of_inside {loop id : Nat} (hloop : t.Reaches root loop)
    (hkind : t.Is NodeKind.isLoop loop) (hinside : t.Inside loop id)
    (hexpr : ¬ t.Is NodeKind.isExpression id) :
    ∃ found, t.Reaches root found ∧ t.Is NodeKind.isLoop found ∧ t.Inside found id ∧
      ∀ steps, t.size ≤ steps + id →
        t.climb NodeKind.isLoop NodeKind.isLambda steps (t.parent? id) = some found := by
  have hclimb : ∀ {p : Nat}, t.Reaches root p → ∀ {c : Nat}, t.IsChild p c →
      ¬ t.Is NodeKind.isExpression c → ∀ steps, t.size ≤ steps + c →
      ∃ n k, t.node? p = some n ∧ steps = k + 1 ∧ t.size ≤ k + p ∧ t.parent? c = some p := by
    intro p hp c hc hcexpr steps hsteps
    obtain ⟨n, hn⟩ := h.exists_node hp
    have hlt := h.ordered hp hc
    have hsize := h.reaches_lt_size hp
    exact ⟨n, steps - 1, hn, by omega, by omega,
      h.oneParent hp hc (not_shared_of_not_expression hcexpr)⟩
  induction hinside with
  | @single c hedge =>
    refine ⟨loop, hloop, hkind, .single hedge, fun steps hsteps => ?_⟩
    obtain ⟨n, k, hn, rfl, -, hparent⟩ := hclimb hloop hedge.1 hexpr steps hsteps
    rw [hparent, climb_parent hn, if_pos ((is_iff hn).mp hkind)]
  | @tail p c hpath hedge ih =>
    have hp : t.Reaches root p := hloop.trans (Inside.reaches hpath)
    by_cases hagain : t.Is NodeKind.isLoop p
    · refine ⟨p, hp, hagain, .single hedge, fun steps hsteps => ?_⟩
      obtain ⟨n, k, hn, rfl, -, hparent⟩ := hclimb hp hedge.1 hexpr steps hsteps
      rw [hparent, climb_parent hn, if_pos ((is_iff hn).mp hagain)]
    · obtain ⟨found, hfound, hfoundLoop, hin, hrest⟩ :=
        ih (h.not_expression_of_child hp hedge.1 hexpr hedge.2)
      refine ⟨found, hfound, hfoundLoop, hin.tail hedge, fun steps hsteps => ?_⟩
      obtain ⟨n, k, hn, rfl, hk, hparent⟩ := hclimb hp hedge.1 hexpr steps hsteps
      have hnotLoop : ¬ n.kind.isLoop = true := fun hl => hagain ((is_iff hn).mpr hl)
      have hnotLambda : ¬ n.kind.isLambda = true := fun hl => hedge.2 ((is_iff hn).mpr hl)
      rw [hparent, climb_parent hn, if_neg hnotLoop, if_neg hnotLambda]
      exact hrest k hk

theorem le_of_reaches {above below : Nat} (habove : t.Reaches root above)
    (hreaches : t.Reaches above below) : below ≤ above := by
  induction hreaches with
  | refl => exact Nat.le_refl _
  | tail hreach hchild ih =>
    exact Nat.le_trans (Nat.le_of_lt (h.ordered (habove.trans hreach) hchild)) ih

/-- What is inside a node below the file has a smaller number. -/
theorem lt_of_inside {above below : Nat} (habove : t.Reaches root above)
    (hinside : t.Inside above below) : below < above := by
  induction hinside with
  | single hedge => exact h.ordered habove hedge.1
  | tail hpath hedge ih =>
    exact Nat.lt_trans (h.ordered (habove.trans (Inside.reaches hpath)) hedge.1) ih

end WellFormed

/-- A loop below the file that a statement stands in, however deep. Inside an expression there is
none that a break could leave. -/
structure StandsIn (t : Tree) (root id loop : NodeId) : Prop where
  statement : ¬ t.Is NodeKind.isExpression id
  below : t.Reaches root loop
  isLoop : t.Is NodeKind.isLoop loop
  inside : t.Inside loop id

namespace WellFormed

variable {t : Tree} {root : NodeId} (h : WellFormed t root)

include h

/-- A break leaves a loop that it stands in. -/
theorem standsIn_of_break {id : NodeId} (hid : t.Reaches root id)
    (hbreak : t.Is NodeKind.isBreak id) :
    ∃ loop, t.StandsIn root id loop ∧ t.enclosingLoop id = .ok (some loop) := by
  obtain ⟨loop, hloop, hkind, hinside⟩ := h.breaks hid hbreak
  obtain ⟨n, hn, hnbreak⟩ := exists_node_of_is hbreak
  have hexpr : ¬ t.Is NodeKind.isExpression id := by
    rw [is_iff hn]
    cases hk : n.kind with
    | breakLoop => simp [NodeKind.isExpression]
    | _ => rw [hk] at hnbreak; cases hnbreak
  obtain ⟨found, hfound, hfoundLoop, hin, hclimb⟩ := h.climb_of_inside hloop hkind hinside hexpr
  refine ⟨found, ⟨hexpr, hfound, hfoundLoop, hin⟩, ?_⟩
  rw [enclosingLoop_eq hn, hclimb t.size (Nat.le_add_right _ _)]

/-- A child stands in the loops that its parent stands in, and in the parent if that is a loop. -/
theorem standsIn_child {id child loop : NodeId} (hid : t.Reaches root id)
    (hchild : t.IsChild id child) (hin : t.StandsIn root child loop) :
    ¬ t.Is NodeKind.isLambda id ∧
      ((loop = id ∧ t.Is NodeKind.isLoop id) ∨ t.StandsIn root id loop) := by
  obtain ⟨hexpr, hreach, hloop, hinside⟩ := hin
  have honly : ∀ p, t.Reaches root p → t.IsChild p child → p = id := by
    intro p hp hpchild
    have hnotShared := not_shared_of_not_expression hexpr
    exact Option.some.inj ((h.oneParent hp hpchild hnotShared).symm.trans
      (h.oneParent hid hchild hnotShared))
  cases hinside with
  | single hedge =>
    obtain rfl := honly loop hreach hedge.1
    exact ⟨hedge.2, Or.inl ⟨rfl, hloop⟩⟩
  | @tail p _ hpath hedge =>
    obtain rfl := honly p (hreach.trans (Inside.reaches hpath)) hedge.1
    exact ⟨hedge.2, Or.inr ⟨h.not_expression_of_child hid hchild hexpr hedge.2, hreach, hloop,
      hpath⟩⟩

/-- The file stands in no loop. -/
theorem not_standsIn_root {loop : Nat} : ¬ t.StandsIn root root loop := by
  intro hin
  have habove := h.lt_of_inside hin.below hin.inside
  exact absurd habove (Nat.not_lt.mpr (h.le_of_reaches .refl hin.below))

end WellFormed

end Tree

end BytecodeCompiler
