import BytecodeCompiler.Span
import BytecodeCompiler.Ty

-- The names that a checker knows while it walks a program: a global scope that is always
-- there, and the scopes opened inside it. An inner name hides an outer one.

namespace BytecodeCompiler

/-- What a name stands for. -/
inductive SymbolKind where
  /-- Something that the machine provides. -/
  | builtin
  /-- A variable, a constant or a function. -/
  | value
  /-- A type alias. -/
  | type
  /-- A package in use. -/
  | package
deriving DecidableEq, Inhabited

/-- A declared name. -/
structure Symbol where
  name : String
  kind : SymbolKind
  ty : Ty
  isPub : Bool
  isConst : Bool
  /-- Where it is declared. A built-in has no place. -/
  span : Span
deriving Inhabited

/-- The symbols of one scope. No two have the same name. -/
structure Scope where
  symbols : List Symbol
  distinct : symbols.Pairwise fun a b => a.name ≠ b.name

namespace Scope

instance : Membership Symbol Scope := ⟨fun scope symbol => symbol ∈ scope.symbols⟩

def empty : Scope := ⟨[], .nil⟩

instance : Inhabited Scope := ⟨empty⟩

def find? (scope : Scope) (name : String) : Option Symbol :=
  scope.symbols.find? (·.name == name)

def contains (scope : Scope) (name : String) : Bool := (scope.find? name).isSome

theorem distinct_insert (scope : Scope) (symbol : Symbol) :
    (symbol :: scope.symbols.filter (·.name != symbol.name)).Pairwise fun a b => a.name ≠ b.name :=
  List.pairwise_cons.mpr
    ⟨fun _ hother => Ne.symm (bne_iff_ne.mp (List.mem_filter.mp hother).2), scope.distinct.filter _⟩

/-- Put a symbol into the scope, in place of one with the same name. -/
def insert (scope : Scope) (symbol : Symbol) : Scope :=
  ⟨symbol :: scope.symbols.filter (·.name != symbol.name), scope.distinct_insert symbol⟩

end Scope

/-- The scopes that are open. -/
structure Scopes where
  /-- The scopes inside the global one, the innermost first. -/
  inner : List Scope
  global : Scope
deriving Inhabited

namespace Scopes

/-- One empty global scope. -/
def empty : Scopes := ⟨[], .empty⟩

/-- All open scopes, the innermost first. -/
def opened (s : Scopes) : List Scope := s.inner ++ [s.global]

/-! ## Opening and closing -/

def push (s : Scopes) : Scopes := ⟨.empty :: s.inner, s.global⟩

/-- Close the innermost scope. The global scope stays open. -/
def pop (s : Scopes) : Scopes := ⟨s.inner.tail, s.global⟩

/-- How many scopes are open inside the global one. -/
def depth (s : Scopes) : Nat := s.inner.length

/-! ## Symbols -/

/-- The scope that declarations go to. -/
def innermost (s : Scopes) : Scope :=
  match s.inner with
  | scope :: _ => scope
  | [] => s.global

/-- The same scopes with another innermost one. -/
def setInnermost (s : Scopes) (scope : Scope) : Scopes :=
  match s.inner with
  | _ :: rest => ⟨scope :: rest, s.global⟩
  | [] => ⟨[], scope⟩

/-- Whether the innermost scope declares a name. -/
def isLocal (s : Scopes) (name : String) : Bool := s.innermost.contains name

/-- Declare a symbol in the innermost scope. A name that the scope has keeps its symbol, and
then the answer is no. -/
def declare (s : Scopes) (symbol : Symbol) : Bool × Scopes :=
  if s.isLocal symbol.name then (false, s)
  else (true, s.setInnermost (s.innermost.insert symbol))

/-- The symbol of a name in the innermost scope that declares it. -/
def lookup? (s : Scopes) (name : String) : Option Symbol :=
  s.opened.findSome? (·.find? name)

/-- How many symbols are declared in all open scopes. -/
def size (s : Scopes) : Nat := (s.opened.flatMap Scope.symbols).length

/-! ## Built-ins -/

/-- The names that every program can use. -/
def builtinNames : List String := ["print", "println", "len", "typeof", "panic"]

/-- The type of a built-in. -/
def builtinType (name : String) : Ty :=
  if name = "print" || name = "println" then .lambda [(.name "args", .any)] .nil true
  else if name = "len" then .lambda [(.name "value", .any)] .int false
  else if name = "typeof" then .lambda [(.name "value", .any)] .string false
  else .lambda [(.name "message", .any)] .nil false

def builtin (name : String) : Symbol := ⟨name, .builtin, builtinType name, true, true, .none⟩

/-- Declare the built-ins in the global scope, in place of what it has under their names. -/
def importBuiltins (s : Scopes) : Scopes :=
  ⟨s.inner, builtinNames.foldl (fun scope name => scope.insert (builtin name)) s.global⟩

/-- The scopes that a check starts with. -/
def withBuiltins : Scopes := empty.importBuiltins

end Scopes

end BytecodeCompiler
