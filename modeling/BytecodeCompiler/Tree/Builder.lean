import BytecodeCompiler.Tree

-- Building trees node by node, with the slots filled the way a checker leaves them. Every
-- new node gets the builder's position.

namespace BytecodeCompiler

/-- A tree under construction, and the position that new nodes get. -/
structure Builder where
  tree : Tree
  file : FileId
  line : UInt32
  col : UInt32
deriving Inhabited

/-- A step that adds to a tree. -/
abbrev Build := StateM Builder

namespace Builder

/-- An empty tree of a file, at its first line and column. -/
def ofFile (file : FileId) : Builder := ⟨.empty, file, 1, 1⟩

end Builder

namespace Build

/-- Move the position of the nodes to come. -/
def moveTo (line col : UInt32) : Build Unit := modify fun b => { b with line, col }

/-- Add a node. -/
def node (kind : NodeKind) : Build NodeId := modifyGet fun b =>
  let (id, tree) := b.tree.push kind ⟨b.file, b.line, b.col, 1⟩
  (id, { b with tree })

/-- Change what is known about a node. -/
def infer (id : NodeId) (f : Inferred → Inferred) : Build Unit :=
  modify fun b => { b with tree := b.tree.infer id f }

/-- Set the type of a node. -/
def typed (id : NodeId) (ty : Ty) : Build NodeId := do
  infer id fun info => { info with ty := some ty }
  return id

/-- Resolve a node to a name. A name that is too long resolves to nothing. -/
def named (id : NodeId) (name : String) : Build NodeId := do
  infer id fun info => { info with ident := Ident.ofName? name }
  return id

/-- The type of a node, and any type while it has none. -/
def tyOf (id : NodeId) : Build Ty := do
  return (((← get).tree.node? id).bind (·.info.ty)).getD .any

/-! ## Nodes that follow from their parts -/

/-- The type that a node has because of its parts. -/
def derivedTy : NodeKind → Build (Option Ty)
  | .tuple exprs => return some (.tuple (← exprs.mapM tyOf))
  | .index expr _ _ => return some (← tyOf expr).element
  | .call callee _ => return some (← tyOf callee).callResult
  | .spread expr | .shared expr _ | .unary _ expr => return some (← tyOf expr)
  | .ternary _ ifTrue _ => return some (← tyOf ifTrue)
  | .binary op left _ => return some (← if op.isLogical then pure .bool else tyOf left)
  | _ => return none

/-- The name that a node refers to. -/
def referredName? : NodeKind → Option String
  | .ident name | .dot _ name _ => some name
  | _ => none

/-- Add a node with the type and the name that follow from what it is. -/
def checked (kind : NodeKind) : Build NodeId := do
  let ty ← derivedTy kind
  let id ← node kind
  infer id fun info => { info with ty, ident := (referredName? kind).bind Ident.ofName? }
  return id

/-! ## Nodes that are told their type -/

/-- Set the value of a node and the type that belongs to it. -/
def valued (id : NodeId) (v : Value) : Build NodeId := do
  infer id fun info => { info with ty := some v.ty, value := some v }
  return id

def literal (v : Value) : Build NodeId := do valued (← node .literal) v

/-- A name whose value is known. -/
def knownIdent (name : String) (v : Value) : Build NodeId := do
  valued (← checked (.ident name)) v

def array (elem : Ty) (exprs : List NodeId) : Build NodeId := do
  typed (← node (.array exprs)) (.array elem)

/-- One attribute of a struct: its node, and its field if the name is not too long. -/
def structAttr (name : String) (expr : NodeId) : Build (NodeId × Option (Ident × Ty)) := do
  let ty ← tyOf expr
  let attr ← typed (← node (.structAttr name expr)) ty
  return (attr, (Ident.ofName? name).map fun i => (i, ty))

/-- A struct. A name that is too long is left out of the layout. -/
def struct (fields : List (String × NodeId)) : Build NodeId := do
  let attrs ← fields.mapM fun (name, expr) => structAttr name expr
  typed (← node (.struct (attrs.map (·.1)))) (.struct (attrs.filterMap (·.2)))

def lambda (signature : Signature) (block : NodeId) : Build NodeId := do
  typed (← node (.lambda block)) signature.toTy

/-- A cast, with the value it was narrowed to if that is known. -/
def cast (expr : NodeId) (ty : Ty) (narrowed : Option Value) : Build NodeId := do
  let id ← node (.cast expr)
  infer id fun info => { info with value := narrowed }
  typed id ty

/-! ## Declarations -/

/-- A declaration that takes an element of a shared expression, or a whole expression. -/
def declare (isPub isConst : Bool) (name : String) (ty : Ty) (expr : NodeId) (element : Nat) :
    Build NodeId := do
  let id ← typed (← node (.set isPub isConst name expr element)) ty
  named id name

def set (name : String) (ty : Ty) (expr : NodeId) : Build NodeId :=
  declare false false name ty expr 0

def typeAlias (isPub : Bool) (name : String) (ty : Ty) : Build NodeId := do
  typed (← node (.typeAlias isPub name)) ty

/-- A function: its block, its lambda and its declaration. -/
def func (isPub : Bool) (name : String) (signature : Signature) (body : List NodeId) :
    Build NodeId := do
  let block ← node (.block body)
  let function ← lambda signature block
  let id ← typed (← node (.func isPub name function)) signature.toTy
  named id name

end Build

end BytecodeCompiler
