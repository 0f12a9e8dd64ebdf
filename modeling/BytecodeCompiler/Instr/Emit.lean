import BytecodeCompiler.Code.Encode
import BytecodeCompiler.Emission
import BytecodeCompiler.Instr

-- Instructions as bytes. What the machine pops from its stack (the operands of an operation
-- and of a conditional, the members of an iterable) is written last first, so that popping
-- gives the order of the source.

namespace BytecodeCompiler

namespace Encoder

def opcode (op : Opcode) : Encoder Unit := byte op.byte

/-- The flags and the name of a declaration. -/
def declaration (d : Declaration) : Encoder Unit := do
  bool d.isPub
  bool d.isConst
  ident d.name

/-- Identifiers in a row. -/
def idents : List Ident → Encoder Unit
  | [] => pure ()
  | i :: is => do
    ident i
    idents is

end Encoder

namespace Emitter

/-- Two bytes for the offset of a label. -/
def target (label : Ident) : Emitter Unit := do
  let slot ← write Encoder.reserve
  let _ ← mark slot label

/-- What the inside writes, between the marks of a block. The length of a block counts its
inside and its end. -/
def framed (inside : Emitter Unit) : Emitter Unit := do
  write (Encoder.opcode .blockBegin)
  let slot ← write Encoder.reserve
  let start ← offset
  inside
  let len := (← offset) - start + 1
  if len < 0x10000 then
    write (Encoder.patch slot (UInt16.ofNat len))
    write (Encoder.opcode .blockEnd)
  else
    throw (.blockTooLarge len)

end Emitter

namespace Instr

open Emitter (here write target framed)

mutual

/-- Write an instruction or an operand, and record where it came from. -/
def emit (files : FileSet) : Instr → Emitter Unit
  | .value v span => do
    here files span
    write (Encoder.value v)
  | .wrapped ty inner span => do
    here files span
    write (Encoder.ty ty)
    emit files inner
  | .iterable ty members span => do
    here files span
    write (Encoder.ty ty)
    write (Encoder.entryCount members.length)
    emitReversed files members
  | .set decl ty expr span => do
    here files span
    write (Encoder.opcode .set)
    write (Encoder.declaration decl)
    write (Encoder.ty ty)
    emit files expr
  | .typeAlias decl ty span => do
    here files span
    write (Encoder.opcode .typeAlias)
    write (Encoder.declaration decl)
    write (Encoder.ty ty)
  | .mov dest v span => do
    here files span
    write (Encoder.opcode .mov)
    emit files dest
    emit files v
  | .unary op operand span => do
    here files span
    write (Encoder.opcode .operation)
    write (Encoder.byte op.code)
    -- The right operand is missing, and nil stands in for it.
    write (Encoder.value .nil)
    emit files operand
  | .binary op left right span => do
    here files span
    write (Encoder.opcode .operation)
    write (Encoder.byte op.code)
    emit files right
    emit files left
  | .collection op left right span => do
    here files span
    write (Encoder.opcode (match op with
      | .add => .cadd
      | .remove => .cremove))
    emit files left
    emit files right
  | .indexGet index nilSafe object span => do
    here files span
    write (Encoder.opcode .iget)
    write (Encoder.bool nilSafe)
    emit files index
    emit files object
  | .indexSet index object v span => do
    here files span
    write (Encoder.opcode .cset)
    emit files index
    emit files object
    emit files v
  | .length expr span => do
    here files span
    write (Encoder.opcode .ilen)
    emit files expr
  | .attrGet name nilSafe object span => do
    here files span
    write (Encoder.opcode .aget)
    write (Encoder.bool nilSafe)
    emit files object
    write (Encoder.ident name)
  | .attrSet nilSafe name object v span => do
    here files span
    write (Encoder.opcode .aset)
    write (Encoder.bool nilSafe)
    write (Encoder.ident name)
    emit files object
    emit files v
  | .cast ty expr span => do
    here files span
    write (Encoder.opcode .cast)
    write (Encoder.ty ty)
    emit files expr
  | .call callee arguments span => do
    here files span
    write (Encoder.opcode .call)
    emit files callee
    emit files arguments
  | .ternary cond ifTrue ifFalse span => do
    here files span
    write (Encoder.opcode .tif)
    emit files ifFalse
    emit files ifTrue
    emit files cond
  | .compareJump expr expected l span => do
    here files span
    write (Encoder.opcode .compareJump)
    emit files expr
    emit files expected
    target l
  | .jump l span => do
    here files span
    write (Encoder.opcode .jump)
    target l
  | .label name span => do
    here files span
    Emitter.label (← Emitter.offset) name
  | .lambda signature body span => do
    here files span
    write (Encoder.opcode .lambda)
    write (Encoder.ty signature.toTy)
    framed (emitAll files body)
  | .block body span => do
    here files span
    framed (emitAll files body)
  | .ret expr span => do
    here files span
    write (Encoder.opcode .ret)
    emit files expr
  | .use mode package imports span => do
    here files span
    write (Encoder.opcode .use)
    write (Encoder.byte mode.code)
    write (Encoder.ident package)
    write (Encoder.entryCount imports.length)
    write (Encoder.idents imports)

/-- Write a row of instructions. -/
def emitAll (files : FileSet) : List Instr → Emitter Unit
  | [] => pure ()
  | i :: is => do
    emit files i
    emitAll files is

/-- Write a row of operands, the last one first. -/
def emitReversed (files : FileSet) : List Instr → Emitter Unit
  | [] => pure ()
  | i :: is => do
    emitReversed files is
    emit files i

end

/-- Write a block of instructions. -/
def emitBlock (files : FileSet) (body : List Instr) : Emitter Unit := framed (emitAll files body)

/-- A whole program as bytes, with its source map. -/
def assemble (files : FileSet) (body : List Instr) : Except Fault (Code × SourceMap) :=
  match emitBlock files body .empty with
  | .ok _ e => e.finish.map fun map => (e.code, map)
  | .error fault _ => .error fault

end Instr

end BytecodeCompiler
