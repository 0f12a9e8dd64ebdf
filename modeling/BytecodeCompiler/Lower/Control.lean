import BytecodeCompiler.Lower.State

-- Lowering of what jumps: chains of conditions, loops and breaks.
--
-- A chain is a row of guards, one for each condition, then the else block, then the labelled
-- blocks. Every block but the last jumps to the end. A loop is one block: what comes first,
-- the label of the top, the tests that leave the loop, the body, the jump back, and the label
-- of the end.

namespace BytecodeCompiler.Lower

variable {σ : Type}

/-! ## Chains of conditions -/

/-- Jump to a label when the conditions have the given truth, one after the other. -/
def guards (t : Tree) (walk : Walk σ) (span : Span) (truth : Bool) (label : Ident) :
    List NodeId → Lower σ Unit
  | [] => pure ()
  | cond :: conds => do
    let v ← operand t walk cond
    let c ← nodeAt t cond
    push (.compareJump v (.value (.bool truth) span) label c.span)
    guards t walk span truth label conds

/-- The guards of each branch, and the labels they jump to with the blocks to put there. -/
def branches [NameSupply σ] (t : Tree) (walk : Walk σ) (span : Span) :
    List NodeId → Lower σ (List (Ident × NodeId))
  | [] => pure []
  | id :: ids => do
    let n ← nodeAt t id
    match n.kind with
    | .ifChain conds block _ _ =>
      let label ← fresh
      guards t walk span true label conds
      let others ← branches t walk span ids
      return (label, block) :: others
    | _ => unknown n

/-- The labelled blocks. Each but the last ends with a jump to the end. -/
def labelled (walk : Walk σ) (span : Span) (finish : Ident) :
    List (Ident × NodeId) → Lower σ Unit
  | [] => pure ()
  | [(label, block)] => do
    push (.label label span)
    let _ ← walk block
  | (label, block) :: others => do
    push (.label label span)
    let _ ← walk block
    push (.jump finish span)
    labelled walk span finish others

/-- A chain of conditions. -/
def ifChain [NameSupply σ] (t : Tree) (walk : Walk σ) (id : NodeId) (n : Node)
    (elseIfs : List NodeId) (elseBlock : Option NodeId) : Lower σ Unit := do
  let finish ← fresh
  let blocks ← branches t walk n.span (id :: elseIfs)
  all walk elseBlock.toList
  push (.jump finish n.span)
  labelled walk n.span finish blocks
  push (.label finish n.span)

/-! ## Loops -/

/-- The labels of a loop. -/
structure LoopLabels where
  top : Ident
  finish : Ident

/-- Note where a break leaves a loop. -/
def noteLoop (id : NodeId) (finish : Ident) : Lower σ Unit
  | ⟨names, loopEnds, processed, out⟩ => .ok () ⟨names, (id, finish) :: loopEnds, processed, out⟩

/-- A loop: `start` and the declarations run once, `each` and the tests in every round. -/
def loop [NameSupply σ] (t : Tree) (walk : Walk σ) (id : NodeId) (n : Node)
    (start : Lower σ Unit) (sets : List NodeId) (each : LoopLabels → Lower σ Unit)
    (conds : List NodeId) (block : NodeId) : Lower σ Unit := do
  let top ← fresh
  let finish ← fresh
  noteLoop id finish
  let inside ← inBlock do
    start
    all walk sets
    push (.label top n.span)
    each ⟨top, finish⟩
    guards t walk n.span false finish conds
    let _ ← walk block
    push (.jump top n.span)
    push (.label finish n.span)
  push (.block inside n.span)

/-- A loop with conditions, all of which must hold for a round. -/
def forIf [NameSupply σ] (t : Tree) (walk : Walk σ) (id : NodeId) (n : Node)
    (sets : Option NodeId) (conds : List NodeId) (block : NodeId) : Lower σ Unit :=
  loop t walk id n (pure ()) sets.toList (fun _ => pure ()) conds block

/-- The variable that a declaration in the head of a loop binds. -/
def loopTarget (t : Tree) (id : NodeId) : Lower σ Instr := do
  let n ← nodeAt t id
  match n.kind with
  | .set _ _ name _ _ => return .reference (← identOf n name) n.span
  | _ => unknown n

/-- The variable of a declaration that may be missing. -/
def loopTarget? (t : Tree) : Option NodeId → Lower σ (Option Instr)
  | none => pure none
  | some id => return some (← loopTarget t id)

/-- What a loop over an iterable does in each round before its body: leave at the end of the
iterable, bind the element and its index, and step the index. -/
def eachElement (span : Span) (key value : Option Instr) (labels : LoopLabels) :
    Lower σ Unit := do
  let ra := Instr.register .ra span
  let ri := Instr.register .ri span
  push (.length ra span)
  push (.binary .less ri Lower.top span)
  push (.compareJump Lower.top (.value (.bool false) span) labels.finish span)
  match value with
  | some target =>
    push (.indexGet ri true ra span)
    push (.mov target Lower.top span)
  | none => pure ()
  match key with
  | some target => push (.mov target ri span)
  | none => pure ()
  push (.binary .add ri (.value (.int 1) span) span)
  push (.mov ri Lower.top span)

/-- A loop over the elements of an iterable. The iterable and the index are held in scratch
registers. -/
def forIn [NameSupply σ] (t : Tree) (walk : Walk σ) (id : NodeId) (n : Node)
    (key value : Option NodeId) (expr block : NodeId) : Lower σ Unit := do
  let keyTarget ← loopTarget? t key
  let valueTarget ← loopTarget? t value
  let start : Lower σ Unit := do
    let v ← operand t walk expr
    push (.mov (.register .ra n.span) v n.span)
    push (.mov (.register .ri n.span) (.value (.int 0) n.span) n.span)
  loop t walk id n start (key.toList ++ value.toList)
    (eachElement n.span keyTarget valueTarget) [] block

/-- A break jumps to the end of the innermost loop around it. -/
def breakLoop (t : Tree) (id : NodeId) (n : Node) : Lower σ Unit := do
  match t.enclosingLoop id with
  | .error fault => throw fault
  | .ok none => throw (.breakOutsideLoop n.span)
  | .ok (some l) =>
    match (← get).loopEnds.lookup l with
    | some finish => push (.jump finish n.span)
    | none => throw (.breakOutsideLoop n.span)

end BytecodeCompiler.Lower
