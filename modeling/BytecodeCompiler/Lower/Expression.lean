import BytecodeCompiler.Lower.State

-- Lowering of expressions. A value that is there already (a literal, a name, a literal of
-- several members) becomes an operand. A value that has to be computed is left on the result
-- stack, and the operand is the top of the stack.

namespace BytecodeCompiler.Lower

variable {σ : Type}

/-! ## Literals and names -/

/-- A literal is the value that the checker found. -/
def literal (n : Node) : Lower σ Instr :=
  match n.info.value with
  | some v => pure (.value v n.span)
  | none => throw (.missingInference "literal value" n.span)

/-- A name is a reference that falls back to the value that the checker found, else to nil. -/
def ident (n : Node) (name : String) : Lower σ Instr := do
  let i ← identOf n name
  return .value (.named i (n.info.value.getD .nil)) n.span

/-- A tuple or an array. -/
def iterable (t : Tree) (walk : Walk σ) (n : Node) (exprs : List NodeId) : Lower σ Instr := do
  let ty ← tyOf n "iterable type"
  return .iterable ty (← operands t walk exprs) n.span

/-- The expression of an attribute. A node of another kind stands for itself. -/
def attrExpr (t : Tree) (id : NodeId) : Lower σ NodeId := do
  match (← nodeAt t id).kind with
  | .structAttr _ expr => pure expr
  | _ => pure id

/-- The attributes of a struct, each looked up right before it is lowered. -/
def attrs (t : Tree) (walk : Walk σ) : List NodeId → Lower σ (List Instr)
  | [] => pure []
  | id :: ids => do
    let first ← operand t walk (← attrExpr t id)
    let others ← attrs t walk ids
    return first :: others

/-- A struct: its attributes in the order of declaration. -/
def struct (t : Tree) (walk : Walk σ) (n : Node) (ids : List NodeId) : Lower σ Instr := do
  let ty ← tyOf n "struct type"
  return .iterable ty (← attrs t walk ids) n.span

/-! ## Access and calls -/

/-- A call. The arguments travel as an array of anything. -/
def call (t : Tree) (walk : Walk σ) (n : Node) (callee : NodeId) (ids : List NodeId) :
    Lower σ Instr := do
  let callee ← operand t walk callee
  let args ← operands t walk ids
  push (.call callee (.args args n.span) n.span)
  return top

def index (t : Tree) (walk : Walk σ) (n : Node) (expr position : NodeId) (nilSafe : Bool) :
    Lower σ Instr := do
  let target ← operand t walk expr
  let position ← operand t walk position
  push (.indexGet position nilSafe target n.span)
  return top

def dot (t : Tree) (walk : Walk σ) (n : Node) (expr : NodeId) (name : String) (nilSafe : Bool) :
    Lower σ Instr := do
  let target ← operand t walk expr
  let i ← identOf n name
  push (.attrGet i nilSafe target n.span)
  return top

/-- A spread wraps its iterable, in the type of the spread or else of the iterable. -/
def spread (t : Tree) (walk : Walk σ) (n : Node) (expr : NodeId) : Lower σ Instr := do
  let ty ← match n.info.runtimeTy <|> n.info.ty with
    | some ty => pure ty
    | none => tyOf (← nodeAt t expr) "spread type"
  return .wrapped ty (← operand t walk expr) n.span

/-! ## Operators -/

def binary (t : Tree) (walk : Walk σ) (n : Node) (op : Operator) (left right : NodeId) :
    Lower σ Instr := do
  let left ← operand t walk left
  let right ← operand t walk right
  push (.binary op left right n.span)
  return top

def unary (t : Tree) (walk : Walk σ) (n : Node) (op : Operator) (expr : NodeId) :
    Lower σ Instr := do
  let operand ← operand t walk expr
  push (.unary op operand n.span)
  return top

def ternary (t : Tree) (walk : Walk σ) (n : Node) (cond ifTrue ifFalse : NodeId) :
    Lower σ Instr := do
  let cond ← operand t walk cond
  let ifTrue ← operand t walk ifTrue
  let ifFalse ← operand t walk ifFalse
  push (.ternary cond ifTrue ifFalse n.span)
  return top

/-- A cast. The machine casts what has a name. Of anything else the checker knows the value
already, and only if it does not is the cast left to the machine. -/
def cast (t : Tree) (walk : Walk σ) (n : Node) (expr : NodeId) : Lower σ Instr := do
  let operand ← operand t walk expr
  let ty ← tyOf n "cast type"
  let byMachine : Lower σ Instr := do
    push (.cast ty operand n.span)
    return top
  match n.info.value with
  | some v => if operand.isNamed then byMachine else return .value v n.span
  | none => byMachine

/-! ## Functions -/

/-- A function. Its instruction leaves the closure on the result stack. -/
def lambda (t : Tree) (walk : Walk σ) (n : Node) (block : NodeId) : Lower σ Instr := do
  match (← tyOf n "lambda type").signature? with
  | some signature =>
    let body ← body t walk block
    push (.lambda signature body n.span)
    return top
  | none => throw (.missingInference "lambda type" n.span)

end BytecodeCompiler.Lower
