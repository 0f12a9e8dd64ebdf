import BytecodeCompiler.Instr
import BytecodeCompiler.Names
import BytecodeCompiler.Tree

-- The state of lowering a tree to instructions, and the steps that every rule uses.
-- Instructions are only ever appended to the block at hand. What was appended before a fault
-- stays there.

namespace BytecodeCompiler

/-- The state of lowering, over a supply of names. -/
structure LowerState (σ : Type) where
  names : σ
  /-- The end label of every loop lowered so far, the latest first. -/
  loopEnds : List (NodeId × Ident)
  /-- The shared expressions that were computed so far. -/
  processed : List NodeId
  /-- The block that instructions go to. -/
  out : Array Instr

namespace LowerState

variable {σ : Type}

/-- Nothing lowered yet. -/
def ofNames (names : σ) : LowerState σ := ⟨names, [], [], #[]⟩

/-- Forget the loops, as for a new walk over the same tree. -/
def forgetLoops (s : LowerState σ) : LowerState σ := ⟨s.names, [], s.processed, s.out⟩

/-- Forget all that belongs to the tree, as for a new tree. -/
def forgetTree (s : LowerState σ) : LowerState σ := ⟨s.names, [], [], s.out⟩

end LowerState

/-- A step of lowering. -/
abbrev Lower (σ : Type) := EStateM Fault (LowerState σ)

/-- How a node is lowered: an expression gives an operand, a statement gives nothing. -/
abbrev Lower.Walk (σ : Type) := NodeId → Lower σ (Option Instr)

namespace Lower

variable {σ : Type}

/-! ## Output -/

/-- Append an instruction. -/
def push (i : Instr) : Lower σ Unit
  | ⟨names, loopEnds, processed, out⟩ => .ok () ⟨names, loopEnds, processed, out.push i⟩

/-- Lower into a new block, and give its instructions. A fault drops the new block. -/
def inBlock (inside : Lower σ Unit) : Lower σ (List Instr)
  | ⟨names, loopEnds, processed, out⟩ =>
    match inside ⟨names, loopEnds, processed, #[]⟩ with
    | .ok _ s => .ok s.out.toList ⟨s.names, s.loopEnds, s.processed, out⟩
    | .error fault s => .error fault ⟨s.names, s.loopEnds, s.processed, out⟩

/-- The top of the result stack. -/
def top : Instr := .register .rpop .none

/-! ## Names -/

/-- A name that was not used before. -/
def fresh [NameSupply σ] : Lower σ Ident
  | ⟨names, loopEnds, processed, out⟩ =>
    match NameSupply.fresh names with
    | some (name, names) => .ok name ⟨names, loopEnds, processed, out⟩
    | none => .error .namesExhausted ⟨names, loopEnds, processed, out⟩

/-- A name from the source as an identifier. -/
def identOfName (name : String) : Lower σ Ident := liftExcept (Ident.ofName name)
where
  liftExcept : Except Fault Ident → Lower σ Ident
    | .ok i => pure i
    | .error fault => throw fault

/-! ## Nodes -/

/-- The node of a number, which must be in the tree. -/
def nodeAt (t : Tree) (id : NodeId) : Lower σ Node :=
  match t.node? id with
  | some n => pure n
  | none => throw (.noSuchNode id)

/-- The fault of a node that has no rule where it stands. -/
def unknown {α : Type} (n : Node) : Lower σ α := throw (.unknownNode n.kind.name n.span)

/-- The type that the machine sees for a node. -/
def tyOf (n : Node) (what : String) : Lower σ Ty :=
  match n.info.runtimeTy <|> n.info.ty with
  | some ty => pure ty
  | none => throw (.missingInference what n.span)

/-- The name that the machine sees for a node, else the name in the source. -/
def identOf (n : Node) (name : String) : Lower σ Ident :=
  match n.info.runtimeIdent <|> n.info.ident with
  | some i => pure i
  | none => identOfName name

/-- Lower a node that must give an operand. -/
def operand (t : Tree) (walk : Walk σ) (id : NodeId) : Lower σ Instr := do
  match (← walk id) with
  | some i => pure i
  | none =>
    let n ← nodeAt t id
    throw (.noValue n.kind.name n.span)

/-- Lower nodes that must give operands, in order. -/
def operands (t : Tree) (walk : Walk σ) : List NodeId → Lower σ (List Instr)
  | [] => pure []
  | id :: ids => do
    let first ← operand t walk id
    let others ← operands t walk ids
    return first :: others

/-- Lower nodes in order for what they append. -/
def all (walk : Walk σ) : List NodeId → Lower σ Unit
  | [] => pure ()
  | id :: ids => do
    let _ ← walk id
    all walk ids

/-- Lower the statements of a block node into a new block. -/
def body (t : Tree) (walk : Walk σ) (id : NodeId) : Lower σ (List Instr) := do
  let n ← nodeAt t id
  match n.kind with
  | .block nodes => inBlock (all walk nodes)
  | _ => unknown n

end Lower

end BytecodeCompiler
