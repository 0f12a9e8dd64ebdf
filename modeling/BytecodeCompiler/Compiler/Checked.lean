import BytecodeCompiler.Compiler

-- The front end for units that are checked already. All that is left to check is that no
-- name is declared twice at the top of the program.

namespace BytecodeCompiler

/-! ## Top-level declarations -/

/-- The symbol of a node that declares a name. -/
def Node.symbol? (n : Node) : Option Symbol :=
  let ty := n.info.ty.getD .any
  match n.kind with
  | .set isPub isConst name _ _ => some ⟨name, .value, ty, isPub, isConst, n.span⟩
  | .func isPub name _ => some ⟨name, .value, ty, isPub, true, n.span⟩
  | .typeAlias isPub name => some ⟨name, .type, ty, isPub, true, n.span⟩
  | _ => none

/-- The symbols that a node declares, with groups taken apart down to so many steps. -/
def Tree.symbolsWithin (t : Tree) : (steps : Nat) → NodeId → Except Fault (List Symbol)
  | 0, id => .error (.cyclicTree id)
  | steps + 1, id =>
    match t.node? id with
    | none => .error (.noSuchNode id)
    | some n =>
      match n.kind with
      | .sets group => return (← group.mapM (symbolsWithin t steps)).flatten
      | _ => .ok n.symbol?.toList

/-- The symbols that a node declares. -/
def Tree.symbols (t : Tree) (id : NodeId) : Except Fault (List Symbol) :=
  t.symbolsWithin (t.size + 1) id

/-- The symbols that a unit declares at its top, in the order of the source. A root that is no
file declares nothing. -/
def SourceUnit.symbols (u : SourceUnit) : Except Fault (List Symbol) :=
  match u.tree.kind? u.root with
  | none => .error (.noSuchNode u.root)
  | some (.file _ nodes) => return (← nodes.mapM u.tree.symbols).flatten
  | some _ => .ok []

/-! ## Names declared twice -/

/-- The names met so far, and what was found. -/
structure NameCheck where
  scopes : Scopes
  /-- The file of each name, for names that the program declares. -/
  owners : List (String × String)
  findings : List Diagnostic

namespace NameCheck

def ofScopes (scopes : Scopes) : NameCheck := ⟨scopes, [], []⟩

/-- The finding of a name that is there already. -/
def repeated (file : String) (symbol : Symbol) (owner : Option String) : Diagnostic :=
  ⟨"E0201", "'" ++ symbol.name ++ "' is already declared in " ++ owner.getD "builtins", file,
    symbol.span⟩

/-- Declare a symbol of a file. -/
def declare (file : String) (c : NameCheck) (symbol : Symbol) : NameCheck :=
  match c.scopes.declare symbol with
  | (true, scopes) => ⟨scopes, (symbol.name, file) :: c.owners, c.findings⟩
  | (false, scopes) =>
    ⟨scopes, c.owners, c.findings ++ [repeated file symbol (c.owners.lookup symbol.name)]⟩

/-- Declare the symbols of a unit. -/
def unit (c : NameCheck) (u : SourceUnit) : Except Fault NameCheck :=
  return (← u.symbols).foldl (declare (u.name?.getD "")) c

/-- Declare the symbols of all units in order. -/
def units (c : NameCheck) : List SourceUnit → Except Fault NameCheck
  | [] => .ok c
  | u :: us => do units (← c.unit u) us

end NameCheck

/-! ## The front end -/

/-- Units that are checked, each after those that it depends on. The spans of the first unit
name file number one, those of the second file number two, and so on. -/
structure CheckedUnits where
  units : List SourceUnit
deriving Inhabited

namespace CheckedUnits

/-- Register the files and hand out the units, which can be done only once. -/
def analyze (main : String) : EStateM CompileError (CheckedUnits × FileSet) (List SourceUnit)
  | (⟨[]⟩, files) => .error (.packageNotFound main) (⟨[]⟩, files)
  | (⟨units⟩, files) => .ok units (⟨[]⟩, files.addAll (units.map fun u => u.name?.getD ""))

/-- Refuse a program that declares a name twice. -/
def check (units : List SourceUnit) :
    EStateM CompileError (CheckedUnits × Scopes) (List SourceUnit)
  | (self, scopes) =>
    match (NameCheck.ofScopes scopes).units units with
    | .error fault => .error (.internal fault) (self, scopes)
    | .ok ⟨scopes, _, []⟩ => .ok units (self, scopes)
    | .ok ⟨scopes, _, findings⟩ => .error (.refused findings) (self, scopes)

instance : Frontend CheckedUnits where
  analyze := analyze
  check := check

/-- The main package is the file of the last unit. -/
def mainPath (u : CheckedUnits) : String :=
  (u.units.getLast?.bind SourceUnit.name?).getD Lower.mainName

/-- Compile checked units. -/
def compile (u : CheckedUnits) (options : CompileOptions) (clock : UInt64) :
    Except CompileError Compilation :=
  match (Compiler.compile clock u.mainPath).run (Compiler.ofFrontend u options) with
  | .ok c _ => .ok c
  | .error e _ => .error e

end CheckedUnits

end BytecodeCompiler
