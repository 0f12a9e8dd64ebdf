import BytecodeCompiler.Instr
import BytecodeCompiler.Value.Text

-- Instructions as text: the one-line form of an instruction or operand, and the indented
-- listing of a whole block.

namespace BytecodeCompiler

/-- The flags of a declaration in front of its name. -/
def Declaration.text (d : Declaration) : String :=
  (if d.isPub then "pub " else "") ++ (if d.isConst then "const " else "") ++ d.name.text

namespace Instr

/-- The mark of an access that nil does not break. -/
def safeMark (nilSafe : Bool) : String := if nilSafe then "?" else ""

mutual

/-- The one-line form. A block or a function only tells how many instructions it holds. -/
def text : Instr → String
  | .value v _ =>
    match Register.ofValue? v with
    | some r => r.name
    | none => v.text
  | .wrapped ty inner _ => ty.text ++ ":" ++ inner.text
  | .iterable ty members _ =>
    ty.text ++ "\x7b" ++ ", ".intercalate (texts members) ++ "\x7d"
  | .set decl ty expr _ => "set " ++ decl.text ++ " " ++ ty.text ++ " " ++ expr.text
  | .typeAlias decl ty _ => "typealias " ++ decl.text ++ " " ++ ty.text
  | .mov target v _ => "mov " ++ target.text ++ " " ++ v.text
  | .unary op operand _ => "op " ++ op.name ++ " " ++ operand.text
  | .binary op left right _ => "op " ++ op.name ++ " " ++ left.text ++ " " ++ right.text
  | .collection op left right _ =>
    (match op with
      | .add => "cadd "
      | .remove => "cremove ") ++ left.text ++ " " ++ right.text
  | .indexGet index nilSafe target _ =>
    "iget" ++ safeMark nilSafe ++ " " ++ index.text ++ " " ++ target.text
  | .indexSet index target v _ =>
    "cset " ++ index.text ++ " " ++ target.text ++ " " ++ v.text
  | .length expr _ => "ilen " ++ expr.text
  | .attrGet name nilSafe target _ =>
    "aget" ++ safeMark nilSafe ++ " " ++ target.text ++ " " ++ name.text
  | .attrSet nilSafe name target v _ =>
    "aset" ++ safeMark nilSafe ++ " " ++ target.text ++ " " ++ name.text ++ " " ++ v.text
  | .cast ty expr _ => "cast " ++ ty.text ++ " " ++ expr.text
  | .call callee arguments _ => "call " ++ callee.text ++ " " ++ arguments.text
  | .ternary cond ifTrue ifFalse _ =>
    "tif " ++ cond.text ++ " " ++ ifTrue.text ++ " " ++ ifFalse.text
  | .compareJump expr expected l _ =>
    "cmpjump " ++ expr.text ++ " " ++ expected.text ++ " " ++ l.text
  | .jump l _ => "jump " ++ l.text
  | .label name _ => "=> label " ++ name.text ++ ":"
  | .lambda signature body _ =>
    "lambda " ++ signature.text ++ " (" ++ toString body.length ++ " nodes)"
  | .block body _ => "begin (" ++ toString body.length ++ " nodes)"
  | .ret expr _ => "ret " ++ expr.text
  | .use mode package imports _ =>
    "use " ++ mode.name ++ " " ++ package.text ++
      String.join (imports.map fun i => " " ++ i.text)

def texts : List Instr → List String
  | [] => []
  | i :: is => i.text :: texts is

end

/-! ## Listings -/

/-- One line of a listing. -/
structure Line where
  indent : Nat
  text : String
deriving DecidableEq

/-- The line as it is printed, with its line feed. -/
def Line.render (l : Line) : String :=
  String.ofList (List.replicate l.indent ' ') ++ l.text ++ "\n"

/-- How much deeper the inside of a block stands. -/
def indentStep : Nat := 2

/-- Lines between begin and end. -/
def framed (indent : Nat) (inside : List Line) : List Line :=
  ⟨indent, "begin"⟩ :: (inside ++ [⟨indent, "end"⟩])

mutual

/-- The lines of an instruction. A label stands one step to the left, and what is inside a
block one step to the right of its frame. -/
def lines (indent : Nat) : Instr → List Line
  | .label name span => [⟨indent - indentStep, (Instr.label name span).text⟩]
  | .block body _ => framed indent (bodyLines (indent + indentStep) body)
  | .lambda signature body _ =>
    ⟨indent, "lambda " ++ signature.text⟩ ::
      framed (indent + indentStep) (bodyLines (indent + indentStep + indentStep) body)
  | i => [⟨indent, i.text⟩]

def bodyLines (indent : Nat) : List Instr → List Line
  | [] => []
  | i :: is => lines indent i ++ bodyLines indent is

end

/-- The listing of a block. -/
def listing (body : List Instr) : String :=
  String.join ((framed 0 (bodyLines indentStep body)).map Line.render)

end Instr

end BytecodeCompiler
