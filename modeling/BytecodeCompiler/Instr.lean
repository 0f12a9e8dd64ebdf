import BytecodeCompiler.Machine
import BytecodeCompiler.Operator

-- Instructions before they become bytes. They form a tree: operands stand inside the
-- instructions that use them, and blocks and functions hold rows of instructions. Values
-- pass from one instruction to the next through registers, mostly the result stack.

namespace BytecodeCompiler

/-- What a declaration says about its name. -/
structure Declaration where
  isPub : Bool
  isConst : Bool
  name : Ident
deriving DecidableEq, Inhabited

/-- An instruction or an operand, with the place it came from. -/
inductive Instr where
  /-- An operand that is a concrete value or a reference. -/
  | value (v : Value) (span : Span)
  /-- An operand of a declared type, made from another one. -/
  | wrapped (ty : Ty) (inner : Instr) (span : Span)
  /-- An operand of a declared type with members. -/
  | iterable (ty : Ty) (members : List Instr) (span : Span)
  | set (decl : Declaration) (ty : Ty) (expr : Instr) (span : Span)
  | typeAlias (decl : Declaration) (ty : Ty) (span : Span)
  | mov (target value : Instr) (span : Span)
  /-- An operation on one operand. -/
  | unary (op : Operator) (operand : Instr) (span : Span)
  /-- An operation on two operands. -/
  | binary (op : Operator) (left right : Instr) (span : Span)
  | collection (op : CollectionOp) (left right : Instr) (span : Span)
  | indexGet (index : Instr) (nilSafe : Bool) (target : Instr) (span : Span)
  | indexSet (index target value : Instr) (span : Span)
  | length (expr : Instr) (span : Span)
  | attrGet (name : Ident) (nilSafe : Bool) (target : Instr) (span : Span)
  | attrSet (nilSafe : Bool) (name : Ident) (target value : Instr) (span : Span)
  | cast (ty : Ty) (expr : Instr) (span : Span)
  | call (callee args : Instr) (span : Span)
  | ternary (cond ifTrue ifFalse : Instr) (span : Span)
  /-- Jump when the value equals the expected one. -/
  | compareJump (expr expected : Instr) (label : Ident) (span : Span)
  | jump (label : Ident) (span : Span)
  /-- A place to jump to. -/
  | label (name : Ident) (span : Span)
  | lambda (signature : Signature) (body : List Instr) (span : Span)
  | block (body : List Instr) (span : Span)
  | ret (expr : Instr) (span : Span)
  | use (mode : UseMode) (package : Ident) (imports : List Ident) (span : Span)
deriving Inhabited

namespace Instr

/-- Where the instruction came from. -/
def span : Instr → Span
  | .value _ s | .wrapped _ _ s | .iterable _ _ s | .set _ _ _ s | .typeAlias _ _ s
  | .mov _ _ s | .unary _ _ s | .binary _ _ _ s | .collection _ _ _ s | .indexGet _ _ _ s
  | .indexSet _ _ _ s | .length _ s | .attrGet _ _ _ s | .attrSet _ _ _ _ s | .cast _ _ s
  | .call _ _ s | .ternary _ _ _ s | .compareJump _ _ _ s | .jump _ s | .label _ s
  | .lambda _ _ s | .block _ s | .ret _ s | .use _ _ _ s => s

/-! ## Operands -/

def nil (span : Span) : Instr := .value .nil span

/-- A reference to a register. -/
def register (r : Register) (span : Span) : Instr := .value r.value span

/-- A reference by name that falls back to nil. -/
def reference (name : Ident) (span : Span) : Instr := .value (.reference name) span

/-- The arguments of a call: an array of anything. -/
def args (members : List Instr) (span : Span) : Instr := .iterable (.array .any) members span

/-! ## Queries -/

/-- The value of an operand that is one. -/
def value? : Instr → Option Value
  | .value v _ => some v
  | _ => none

/-- The register that an operand refers to. -/
def register? (i : Instr) : Option Register := i.value?.bind Register.ofValue?

/-- Whether an operand refers to something by a name that is no register. -/
def isNamed (i : Instr) : Bool :=
  match i.value? with
  | some (.named name fallback) => (Register.ofValue? (.named name fallback)).isNone
  | _ => false

/-- The opcode that the instruction starts with. Operands and labels have none. -/
def opcode? : Instr → Option Opcode
  | .value .. | .wrapped .. | .iterable .. | .label .. => none
  | .set .. => some .set
  | .typeAlias .. => some .typeAlias
  | .mov .. => some .mov
  | .unary .. | .binary .. => some .operation
  | .collection .add .. => some .cadd
  | .collection .remove .. => some .cremove
  | .indexGet .. => some .iget
  | .indexSet .. => some .cset
  | .length .. => some .ilen
  | .attrGet .. => some .aget
  | .attrSet .. => some .aset
  | .cast .. => some .cast
  | .call .. => some .call
  | .ternary .. => some .tif
  | .compareJump .. => some .compareJump
  | .jump .. => some .jump
  | .lambda .. => some .lambda
  | .block .. => some .blockBegin
  | .ret .. => some .ret
  | .use .. => some .use

/-- The word the instruction starts with in a listing. -/
def mnemonic? (i : Instr) : Option String := i.opcode?.map Opcode.mnemonic

end Instr

end BytecodeCompiler
