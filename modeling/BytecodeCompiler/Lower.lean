import BytecodeCompiler.Lower.Control
import BytecodeCompiler.Lower.Statement

-- Lowering of whole trees: which rule a node follows, and the walk that follows the rules
-- down. No path through a tree without cycles is longer than the tree, so the walk has that
-- many steps and one more to meet a number that is no node.

namespace BytecodeCompiler.Lower

variable {σ : Type} [NameSupply σ]

/-- Lower the declarations of a file. -/
def file (walk : Walk σ) (n : Node) : Lower σ Unit :=
  match n.kind with
  | .file _ nodes => all walk nodes
  | _ => unknown n

/-- A rule that gives an operand. -/
def expression (rule : Lower σ Instr) : Lower σ (Option Instr) := return some (← rule)

/-- A rule that gives nothing. -/
def statement (rule : Lower σ Unit) : Lower σ (Option Instr) := do
  rule
  return none

/-- Lower a node by the rule of its kind, with a walk for the nodes below it. -/
def rule (t : Tree) (walk : Walk σ) (id : NodeId) : Lower σ (Option Instr) := do
  let n ← nodeAt t id
  match n.kind with
  | .file _ _ => statement (file walk n)
  | .block _ => statement (block t walk id n)
  | .literal => expression (literal n)
  | .ident name => expression (ident n name)
  | .lambda body => expression (lambda t walk n body)
  | .func isPub name function => statement (func t walk n isPub name function)
  | .tuple exprs => expression (iterable t walk n exprs)
  | .struct attrs => expression (struct t walk n attrs)
  | .structAttr _ expr => walk expr
  | .array exprs => expression (iterable t walk n exprs)
  | .ret expr => statement (ret t walk n expr)
  | .index expr position nilSafe => expression (index t walk n expr position nilSafe)
  | .call callee args => expression (call t walk n callee args)
  | .dot expr name nilSafe => expression (dot t walk n expr name nilSafe)
  | .spread expr => expression (spread t walk n expr)
  | .sets group => statement (all walk group)
  | .set isPub isConst name expr element =>
    statement (set t walk n isPub isConst name expr element)
  | .shared expr flag => expression (sharedWhole t walk id n expr flag)
  | .update lhs rhs => statement (update t walk n lhs rhs)
  | .typeAlias isPub name => statement (typeAlias n isPub name)
  | .cast expr => expression (cast t walk n expr)
  | .use _ resolved imports mode => statement (use n resolved imports mode)
  | .ifChain _ _ elseIfs elseBlock => statement (ifChain t walk id n elseIfs elseBlock)
  | .ternary cond ifTrue ifFalse => expression (ternary t walk n cond ifTrue ifFalse)
  | .forIf sets conds body => statement (forIf t walk id n sets conds body)
  | .forIn key value expr body => statement (forIn t walk id n key value expr body)
  | .breakLoop => statement (breakLoop t id n)
  | .collection op target value => statement (collection t walk n op target value)
  | .binary op left right => expression (binary t walk n op left right)
  | .unary op expr => expression (unary t walk n op expr)
  | .exprStmt expr => statement (all walk [expr])

/-- Lower a node that is nowhere more than so many steps deep. -/
def within (t : Tree) : (steps : Nat) → Walk σ
  | 0, id => throw (.cyclicTree id)
  | steps + 1, id => rule t (within t steps) id

/-- How many steps are enough for a tree without cycles. -/
def enough (t : Tree) : Nat := t.size + 1

/-! ## Entry points -/

/-- Lower a node. -/
def node (t : Tree) (id : NodeId) : Lower σ (Option Instr) := within t (enough t) id

/-- Lower a node that must give an operand. -/
def value (t : Tree) (id : NodeId) : Lower σ Instr := operand t (within t (enough t)) id

/-- Lower the declarations of a file node. -/
def root (t : Tree) (id : NodeId) : Lower σ Unit := do
  file (within t (enough t)) (← nodeAt t id)

end BytecodeCompiler.Lower
