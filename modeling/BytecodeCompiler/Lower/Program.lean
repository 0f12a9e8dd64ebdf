import BytecodeCompiler.Lower

-- Lowering of a whole program. The units go into one block in the order in which they depend
-- on each other, and the block ends with the call of the main function.

namespace BytecodeCompiler.Lower

variable {σ : Type} [NameSupply σ]

/-- Lower units in order. The names run on from one unit to the next. -/
def units : List SourceUnit → Lower σ Unit
  | [] => pure ()
  | u :: us => do
    modify LowerState.forgetTree
    root u.tree u.root
    units us

/-- The name of the function that a program starts in. -/
def mainName : String := "main"

/-- The call that starts a program. -/
def mainCall : Instr :=
  .call (.reference (.name mainName) .none) (.args [] .none) .none

/-- Lower a program. -/
def program (us : List SourceUnit) : Lower σ Unit := do
  units us
  push mainCall

/-- The instructions of a program, with labels from a supply of names. -/
def instructions (names : σ) (us : List SourceUnit) : Except Fault (List Instr) :=
  match program us (LowerState.ofNames names) with
  | .ok _ s => .ok s.out.toList
  | .error fault _ => .error fault

end BytecodeCompiler.Lower
