import BytecodeCompiler.Lower.Expression

-- Lowering of declarations, assignments and the other plain statements.

namespace BytecodeCompiler.Lower

variable {σ : Type}

/-! ## Shared expressions

The first use computes the expression into a scratch register. Every use reads the register. -/

/-- Note that a shared expression was computed. -/
def markProcessed (id : NodeId) : Lower σ Unit
  | ⟨names, loopEnds, processed, out⟩ => .ok () ⟨names, loopEnds, id :: processed, out⟩

/-- Whether a shared expression was computed, here or before lowering began. -/
def isProcessed (id : NodeId) (flag : Bool) : Lower σ Bool := do
  return flag || (← get).processed.contains id

/-- The whole of a shared expression. -/
def sharedWhole (t : Tree) (walk : Walk σ) (id : NodeId) (n : Node) (expr : NodeId)
    (flag : Bool) : Lower σ Instr := do
  if !(← isProcessed id flag) then
    let v ← operand t walk expr
    push (.mov (.register .ra n.span) v n.span)
    markProcessed id
  return .register .ra n.span

/-- One element of a shared expression. -/
def sharedElement (t : Tree) (walk : Walk σ) (id : NodeId) (n : Node) (expr : NodeId)
    (flag : Bool) (element : Nat) : Lower σ Instr := do
  let whole ← sharedWhole t walk id n expr flag
  push (.indexGet (.value (.int (Int64.ofNat element)) n.span) true whole n.span)
  return top

/-! ## Declarations -/

/-- The value of a declaration. Of a shared expression it takes one element. -/
def declared (t : Tree) (walk : Walk σ) (expr : NodeId) (element : Nat) : Lower σ Instr := do
  let e ← nodeAt t expr
  match e.kind with
  | .shared inner flag => sharedElement t walk expr e inner flag element
  | _ => operand t walk expr

def set (t : Tree) (walk : Walk σ) (n : Node) (isPub isConst : Bool) (name : String)
    (expr : NodeId) (element : Nat) : Lower σ Unit := do
  let v ← declared t walk expr element
  let i ← identOf n name
  let ty ← tyOf n "declared type"
  push (.set ⟨isPub, isConst, i⟩ ty v n.span)

/-- A function declares a constant that is bound to its lambda. -/
def func (t : Tree) (walk : Walk σ) (n : Node) (isPub : Bool) (name : String)
    (function : NodeId) : Lower σ Unit := do
  let f ← nodeAt t function
  match f.kind with
  | .lambda block =>
    let v ← lambda t walk f block
    let i ← identOf n name
    let ty ← tyOf n "function type"
    push (.set ⟨isPub, true, i⟩ ty v n.span)
  | _ => unknown f

def typeAlias (n : Node) (isPub : Bool) (name : String) : Lower σ Unit := do
  let ty ← tyOf n "aliased type"
  let i ← identOfName name
  push (.typeAlias ⟨isPub, true, i⟩ ty n.span)

/-- Names as identifiers, up to the first that is too long. -/
def identsOfNames : List String → Lower σ (List Ident)
  | [] => pure []
  | name :: names => do
    let first ← identOfName name
    let others ← identsOfNames names
    return first :: others

/-- A package in use. The host binds foreign packages by itself. -/
def use (n : Node) (resolved : String) (imports : List String) (mode : UseMode) :
    Lower σ Unit := do
  if mode.isEmitted then
    let imports ← identsOfNames imports
    let package ← identOfName resolved
    push (.use mode package imports n.span)

/-! ## Assignments -/

/-- An assignment: a store at an index, a store of an attribute, or a move. -/
def update (t : Tree) (walk : Walk σ) (n : Node) (lhs rhs : NodeId) : Lower σ Unit := do
  let l ← nodeAt t lhs
  match l.kind with
  | .index expr position _ =>
    let target ← operand t walk expr
    let position ← operand t walk position
    let v ← operand t walk rhs
    push (.indexSet position target v n.span)
  | .dot expr name nilSafe =>
    let target ← operand t walk expr
    let i ← identOf l name
    let v ← operand t walk rhs
    push (.attrSet nilSafe i target v n.span)
  | .ident name =>
    let i ← identOf l name
    let v ← operand t walk rhs
    push (.mov (.reference i l.span) v n.span)
  | _ =>
    let target ← operand t walk lhs
    let v ← operand t walk rhs
    push (.mov target v n.span)

/-- A change of a collection in place. -/
def collection (t : Tree) (walk : Walk σ) (n : Node) (op : CollectionOp)
    (target value : NodeId) : Lower σ Unit := do
  let target ← operand t walk target
  let v ← operand t walk value
  push (.collection op target v n.span)

/-! ## Blocks and returns -/

/-- A block as a statement. -/
def block (t : Tree) (walk : Walk σ) (id : NodeId) (n : Node) : Lower σ Unit := do
  let body ← body t walk id
  push (.block body n.span)

def ret (t : Tree) (walk : Walk σ) (n : Node) (expr : Option NodeId) : Lower σ Unit := do
  let v ← match expr with
    | some expr => operand t walk expr
    | none => pure (.nil n.span)
  push (.ret v n.span)

end BytecodeCompiler.Lower
