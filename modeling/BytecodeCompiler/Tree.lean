import BytecodeCompiler.Operator
import BytecodeCompiler.Value

-- Checked programs as trees. The nodes of a file stand in one row and refer to each other by
-- their numbers. A node knows its parent, which is the first node that took it as a child, and
-- what the checker found out about it.

namespace BytecodeCompiler

/-- The number of a node in its tree. -/
abbrev NodeId := Nat

/-- What a node is, and which nodes it is made of. -/
inductive NodeKind where
  /-- A source file: its declarations in order. -/
  | file (name : String) (nodes : List NodeId)
  | block (nodes : List NodeId)
  /-- A literal. Its value is what the checker found. -/
  | literal
  | ident (name : String)
  /-- A function without a name. Its type is what the checker found. -/
  | lambda (block : NodeId)
  | func (isPub : Bool) (name : String) (lambda : NodeId)
  | tuple (exprs : List NodeId)
  | struct (attrs : List NodeId)
  | structAttr (name : String) (expr : NodeId)
  | array (exprs : List NodeId)
  | ret (expr : Option NodeId)
  | index (expr index : NodeId) (nilSafe : Bool)
  | call (callee : NodeId) (args : List NodeId)
  | dot (expr : NodeId) (name : String) (nilSafe : Bool)
  | spread (expr : NodeId)
  /-- A group of declarations. -/
  | sets (sets : List NodeId)
  /-- A declaration. The index picks the element when the expression is shared. -/
  | set (isPub isConst : Bool) (name : String) (expr : NodeId) (index : Nat)
  /-- An expression that is computed once and taken apart by several declarations. -/
  | shared (expr : NodeId) (processed : Bool)
  | update (lhs rhs : NodeId)
  | typeAlias (isPub : Bool) (name : String)
  | cast (expr : NodeId)
  | use (path : List String) (resolved : String) (imports : List String) (mode : UseMode)
  /-- A chain of conditions. The else-ifs are chains without branches of their own. -/
  | ifChain (conds : List NodeId) (block : NodeId) (elseIfs : List NodeId)
      (elseBlock : Option NodeId)
  | ternary (cond ifTrue ifFalse : NodeId)
  | forIf (sets : Option NodeId) (conds : List NodeId) (block : NodeId)
  | forIn (key value : Option NodeId) (expr block : NodeId)
  | breakLoop
  | collection (op : CollectionOp) (target value : NodeId)
  | binary (op : Operator) (left right : NodeId)
  | unary (op : Operator) (expr : NodeId)
  /-- An expression that is computed for its effects. -/
  | exprStmt (expr : NodeId)
deriving DecidableEq, Inhabited

namespace NodeKind

/-- The word for the kind in messages. -/
def name : NodeKind → String
  | .file .. => "file"
  | .block .. => "block"
  | .literal => "literal"
  | .ident .. => "ident"
  | .lambda .. => "lambda"
  | .func .. => "func"
  | .tuple .. => "tuple"
  | .struct .. => "struct"
  | .structAttr .. => "struct attr"
  | .array .. => "array"
  | .ret .. => "return"
  | .index .. => "index"
  | .call .. => "call"
  | .dot .. => "dot"
  | .spread .. => "spread"
  | .sets .. => "sets"
  | .set .. => "set"
  | .shared .. => "shared expr"
  | .update .. => "update set"
  | .typeAlias .. => "type alias"
  | .cast .. => "cast"
  | .use .. => "use"
  | .ifChain .. => "if"
  | .ternary .. => "ternary"
  | .forIf .. => "for"
  | .forIn .. => "for-in"
  | .breakLoop => "break"
  | .collection .. => "collection op"
  | .binary .. => "binary op"
  | .unary .. => "unary op"
  | .exprStmt .. => "expr stmt"

/-- Whether a break can leave the node. -/
def isLoop : NodeKind → Bool
  | .forIf .. | .forIn .. => true
  | _ => false

def isLambda : NodeKind → Bool
  | .lambda .. => true
  | _ => false

/-- The nodes that the node is made of, in the order of the source. -/
def children : NodeKind → List NodeId
  | .file _ nodes | .block nodes => nodes
  | .literal | .ident _ | .typeAlias .. | .use .. | .breakLoop => []
  | .lambda body => [body]
  | .func _ _ function => [function]
  | .tuple exprs | .array exprs => exprs
  | .struct attrs => attrs
  | .structAttr _ expr | .dot expr .. | .spread expr | .set _ _ _ expr _ | .shared expr _
  | .cast expr | .unary _ expr | .exprStmt expr => [expr]
  | .ret expr => expr.toList
  | .index expr position _ => [expr, position]
  | .call callee args => callee :: args
  | .sets group => group
  | .update lhs rhs => [lhs, rhs]
  | .ifChain conds body elseIfs elseBody => conds ++ body :: elseIfs ++ elseBody.toList
  | .ternary cond ifTrue ifFalse => [cond, ifTrue, ifFalse]
  | .forIf start conds body => start.toList ++ conds ++ [body]
  | .forIn key value expr body => key.toList ++ value.toList ++ [expr, body]
  | .collection _ target value => [target, value]
  | .binary _ left right => [left, right]

end NodeKind

/-- What the checker found out about a node. -/
structure Inferred where
  ty : Option Ty
  /-- The value, where it is known before the program runs. -/
  value : Option Value
  /-- The name that a declaration or a reference was resolved to. -/
  ident : Option Ident
  /-- The name the machine sees, where it is another one. -/
  runtimeIdent : Option Ident
  /-- The type the machine sees, where it is another one. -/
  runtimeTy : Option Ty
deriving Inhabited

/-- Nothing found out yet. -/
def Inferred.empty : Inferred := ⟨none, none, none, none, none⟩

structure Node where
  kind : NodeKind
  span : Span
  /-- The first node that took this one as a child. -/
  parent : Option NodeId
  info : Inferred
deriving Inhabited

/-- The nodes of one source file. -/
structure Tree where
  nodes : Array Node
deriving Inhabited

namespace Tree

def empty : Tree := ⟨#[]⟩

def size (t : Tree) : Nat := t.nodes.size

def node? (t : Tree) (id : NodeId) : Option Node := t.nodes[id]?

def kind? (t : Tree) (id : NodeId) : Option NodeKind := (t.node? id).map (·.kind)

def parent? (t : Tree) (id : NodeId) : Option NodeId := (t.node? id).bind (·.parent)

/-! ## Growing -/

/-- Give a node a parent unless it has one. -/
def adopt (parent : NodeId) (nodes : Array Node) (child : NodeId) : Array Node :=
  nodes.modify child fun n => { n with parent := n.parent <|> some parent }

/-- Add a node, which becomes the parent of those of its children that have none yet. -/
def push (t : Tree) (kind : NodeKind) (span : Span) : NodeId × Tree :=
  let id := t.size
  (id, ⟨(kind.children.foldl (adopt id) t.nodes).push ⟨kind, span, none, .empty⟩⟩)

/-- Change what is known about a node. -/
def infer (t : Tree) (id : NodeId) (f : Inferred → Inferred) : Tree :=
  ⟨t.nodes.modify id fun n => { n with info := f n.info }⟩

/-! ## Ancestors -/

/-- The first of a node and the nodes above it, within so many steps, that is wanted. The walk
ends at the first one that stops it. -/
def climb (t : Tree) (want stop : NodeKind → Bool) : (steps : Nat) → Option NodeId → Option NodeId
  | 0, _ => none
  | _, none => none
  | steps + 1, some id =>
    match t.node? id with
    | none => none
    | some n =>
      if want n.kind then some id
      else if stop n.kind then none
      else climb t want stop steps n.parent

/-- The nearest wanted node above a node, with none that stops the walk before it. Parents come
after their children in the row, so there are no more steps than nodes. -/
def ancestor (t : Tree) (want stop : NodeKind → Bool) (id : NodeId) :
    Except Fault (Option NodeId) :=
  match t.node? id with
  | none => .error (.noSuchNode id)
  | some n => .ok (t.climb want stop t.size n.parent)

/-- The loop that a break leaves, inside the function that the break stands in. -/
def enclosingLoop (t : Tree) (id : NodeId) : Except Fault (Option NodeId) :=
  t.ancestor NodeKind.isLoop NodeKind.isLambda id

end Tree

/-- A checked source file: its tree and the file node at the root. -/
structure SourceUnit where
  tree : Tree
  root : NodeId
deriving Inhabited

/-- The file name at the root. -/
def SourceUnit.name? (u : SourceUnit) : Option String :=
  match u.tree.kind? u.root with
  | some (.file name _) => some name
  | _ => none

end BytecodeCompiler
