import BytecodeCompiler.Diagnostic
import BytecodeCompiler.Instr.Emit
import BytecodeCompiler.Instr.Text
import BytecodeCompiler.Lower.Program
import BytecodeCompiler.Names.Hashed
import BytecodeCompiler.Scopes

-- From a main package to code: a front end finds and checks the units, the units are lowered
-- to one block, and the block is assembled.

namespace BytecodeCompiler

/-! ## Front ends -/

/-- What stands before lowering. A front end keeps its state, and what it has registered, also
when it fails. -/
class Frontend (φ : Type) where
  /-- Find the units of a main package, each after those that it depends on, and register
  their files. -/
  analyze : (main : String) → EStateM CompileError (φ × FileSet) (List SourceUnit)
  /-- Check the units and fill what lowering reads. -/
  check : List SourceUnit → EStateM CompileError (φ × Scopes) (List SourceUnit)

/-! ## Options -/

/-- Which artifacts a build writes. -/
inductive BuildMode where
  /-- Listing, code and source map. -/
  | debug
  /-- Code and source map. -/
  | release
deriving DecidableEq, Inhabited

structure CompileOptions where
  build : BuildMode
  /-- The seed of the label names. Without one the clock gives it. -/
  seed : Option UInt64
deriving DecidableEq, Inhabited

namespace CompileOptions

/-- A build for debugging, with names seeded by the clock. -/
def standard : CompileOptions := ⟨.debug, none⟩

/-- The supply of label names. -/
def names (options : CompileOptions) (clock : UInt64) : HashedNames :=
  .ofSeed (options.seed.getD clock)

end CompileOptions

/-! ## Compilations -/

/-- A compiled program. -/
structure Compilation where
  build : BuildMode
  /-- The instructions that the code was assembled from. -/
  root : List Instr
  code : Code
  map : SourceMap

/-- The program for a reader. -/
def Compilation.assembly (c : Compilation) : String := Instr.listing c.root

/-- A front end with its options and the files it registered. -/
structure Compiler (φ : Type) where
  frontend : φ
  options : CompileOptions
  files : FileSet

namespace Compiler

variable {φ : Type}

/-- A compiler with no file registered. -/
def ofFrontend (frontend : φ) (options : CompileOptions) : Compiler φ :=
  ⟨frontend, options, .empty⟩

/-- A run of a compiler. -/
abbrev Run (φ : Type) := EStateM CompileError (Compiler φ)

/-- Let the front end find the units. -/
def analyze [Frontend φ] (main : String) : Run φ (List SourceUnit)
  | ⟨frontend, options, files⟩ =>
    match Frontend.analyze main (frontend, files) with
    | .ok units (frontend, files) => .ok units ⟨frontend, options, files⟩
    | .error e (frontend, files) => .error e ⟨frontend, options, files⟩

/-- Let the front end check the units. It starts from the built-ins, and the names that it
declares are dropped afterwards. -/
def check [Frontend φ] (units : List SourceUnit) : Run φ (List SourceUnit)
  | ⟨frontend, options, files⟩ =>
    match Frontend.check units (frontend, Scopes.withBuiltins) with
    | .ok units (frontend, _) => .ok units ⟨frontend, options, files⟩
    | .error e (frontend, _) => .error e ⟨frontend, options, files⟩

/-- A result whose faults are the compiler's own. -/
def internal {α : Type} : Except Fault α → Run φ α
  | .ok a => pure a
  | .error fault => throw (.internal fault)

/-- Compile the program of a main package. -/
def compile [Frontend φ] (clock : UInt64) (main : String) : Run φ Compilation := do
  let units ← analyze main
  let units ← check units
  let c ← get
  let root ← internal (Lower.instructions (c.options.names clock) units)
  let (code, map) ← internal (Instr.assemble c.files root)
  return ⟨c.options.build, root, code, map⟩

end Compiler

end BytecodeCompiler
