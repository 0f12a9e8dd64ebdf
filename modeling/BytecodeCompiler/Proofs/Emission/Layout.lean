import BytecodeCompiler.Instr.Emit
import BytecodeCompiler.Proofs.Code.Written

-- The layout of a program: the tree of instructions as a row of pieces in the order of the
-- code. A piece is something that is written whole, a label, a jump operand, or a block around
-- other pieces. Emission of instructions is emission of their pieces, one after the other.

namespace BytecodeCompiler

/-- A piece of a program. -/
inductive Piece where
  /-- Where the next bytes came from. It takes no bytes. -/
  | place (span : Span)
  | byte (b : UInt8)
  | ident (i : Ident)
  | ty (t : Ty)
  | value (v : Value)
  /-- How many entries follow. -/
  | count (n : Nat)
  /-- The offset of a label, in two bytes. -/
  | target (label : Ident)
  /-- A label stands here. It takes no bytes. -/
  | label (name : Ident)
  /-- A block: its begin byte, two bytes of length, its inside, its end byte. -/
  | frame (inside : List Piece)

/-! ## The pieces of instructions -/

namespace Piece

def opcode (op : Opcode) : Piece := .byte op.byte

def bool (b : Bool) : Piece := .byte (boolByte b)

/-- The flags and the name of a declaration. -/
def declaration (d : Declaration) : List Piece := [bool d.isPub, bool d.isConst, .ident d.name]

end Piece

namespace Instr

open Piece (opcode)

mutual

/-- The pieces of an instruction or an operand, in the order of the code. -/
def layout : Instr → List Piece
  | .value v span => [.place span, .value v]
  | .wrapped ty inner span => [.place span, .ty ty] ++ layout inner
  | .iterable ty members span =>
    [.place span, .ty ty, .count members.length] ++ layoutReversed members
  | .set decl ty expr span =>
    [.place span, opcode .set] ++ Piece.declaration decl ++ [.ty ty] ++ layout expr
  | .typeAlias decl ty span =>
    [.place span, opcode .typeAlias] ++ Piece.declaration decl ++ [.ty ty]
  | .mov dest v span => [.place span, opcode .mov] ++ layout dest ++ layout v
  | .unary op operand span =>
    [.place span, opcode .operation, .byte op.code, .value .nil] ++ layout operand
  | .binary op left right span =>
    [.place span, opcode .operation, .byte op.code] ++ layout right ++ layout left
  | .collection .add left right span =>
    [.place span, opcode .cadd] ++ layout left ++ layout right
  | .collection .remove left right span =>
    [.place span, opcode .cremove] ++ layout left ++ layout right
  | .indexGet index nilSafe object span =>
    [.place span, opcode .iget, .bool nilSafe] ++ layout index ++ layout object
  | .indexSet index object v span =>
    [.place span, opcode .cset] ++ layout index ++ layout object ++ layout v
  | .length expr span => [.place span, opcode .ilen] ++ layout expr
  | .attrGet name nilSafe object span =>
    [.place span, opcode .aget, .bool nilSafe] ++ layout object ++ [.ident name]
  | .attrSet nilSafe name object v span =>
    [.place span, opcode .aset, .bool nilSafe, .ident name] ++ layout object ++ layout v
  | .cast ty expr span => [.place span, opcode .cast, .ty ty] ++ layout expr
  | .call callee arguments span =>
    [.place span, opcode .call] ++ layout callee ++ layout arguments
  | .ternary cond ifTrue ifFalse span =>
    [.place span, opcode .tif] ++ layout ifFalse ++ layout ifTrue ++ layout cond
  | .compareJump expr expected l span =>
    [.place span, opcode .compareJump] ++ layout expr ++ layout expected ++ [.target l]
  | .jump l span => [.place span, opcode .jump, .target l]
  | .label name span => [.place span, .label name]
  | .lambda signature body span =>
    [.place span, opcode .lambda, .ty signature.toTy, .frame (layoutAll body)]
  | .block body span => [.place span, .frame (layoutAll body)]
  | .ret expr span => [.place span, opcode .ret] ++ layout expr
  | .use mode package imports span =>
    [.place span, opcode .use, .byte mode.code, .ident package, .count imports.length] ++
      imports.map .ident

/-- The pieces of a row of instructions. -/
def layoutAll : List Instr → List Piece
  | [] => []
  | i :: is => layout i ++ layoutAll is

/-- The pieces of a row of operands, the last one first. -/
def layoutReversed : List Instr → List Piece
  | [] => []
  | i :: is => layoutReversed is ++ layout i

end

theorem layoutAll_append (is js : List Instr) :
    layoutAll (is ++ js) = layoutAll is ++ layoutAll js := by
  induction is with
  | nil => rfl
  | cons i is ih => simp only [List.cons_append, layoutAll, ih, List.append_assoc]

/-- The pieces of a program: one block. -/
def program (body : List Instr) : Piece := .frame (layoutAll body)

end Instr

/-! ## Emission of pieces -/

namespace Piece

mutual

/-- Write a piece. -/
def emit (files : FileSet) : Piece → Emitter Unit
  | .place span => Emitter.here files span
  | .byte b => Emitter.write (Encoder.byte b)
  | .ident i => Emitter.write (Encoder.ident i)
  | .ty t => Emitter.write (Encoder.ty t)
  | .value v => Emitter.write (Encoder.value v)
  | .count n => Emitter.write (Encoder.entryCount n)
  | .target l => Emitter.target l
  | .label name => do Emitter.label (← Emitter.offset) name
  | .frame inside => Emitter.framed (emitAll files inside)

def emitAll (files : FileSet) : List Piece → Emitter Unit
  | [] => pure ()
  | p :: ps => do
    emit files p
    emitAll files ps

end

theorem emitAll_append (files : FileSet) (ps qs : List Piece) :
    emitAll files (ps ++ qs) = (do emitAll files ps; emitAll files qs) := by
  induction ps with
  | nil => simp only [List.nil_append, emitAll, pure_bind]
  | cons p ps ih => simp only [List.cons_append, emitAll, ih, bind_assoc]

end Piece

namespace Emitter

/-- Writing in two steps is writing the first and then the second. -/
theorem write_bind {α β : Type} (a : Encoder α) (f : α → Encoder β) :
    write (a >>= f) = (do let x ← write a; write (f x)) := by
  funext ⟨code, map, labels, marks⟩
  simp only [write, bind, EStateM.bind]
  cases a code <;> rfl

theorem write_idents (files : FileSet) (is : List Ident) :
    write (Encoder.idents is) = Piece.emitAll files (is.map .ident) := by
  induction is with
  | nil =>
    funext ⟨code, map, labels, marks⟩
    rfl
  | cons i is ih =>
    simp only [Encoder.idents, write_bind, ih, List.map_cons, Piece.emitAll, Piece.emit]

end Emitter

namespace Instr

open Emitter (write)

theorem write_declaration (files : FileSet) (d : Declaration) :
    write (Encoder.declaration d) = Piece.emitAll files (Piece.declaration d) := by
  simp only [Encoder.declaration, Emitter.write_bind, Piece.declaration, Piece.emitAll, Piece.emit,
    bind_pure_unit]
  rfl

mutual

/-- Emission of an instruction is emission of its pieces. -/
theorem emit_eq_layout (files : FileSet) (i : Instr) :
    i.emit files = Piece.emitAll files i.layout := by
  cases i with
  | collection op left right span =>
    cases op <;>
    simp only [emit, layout, List.cons_append, List.nil_append, Piece.emitAll, Piece.emit,
      Piece.opcode, Encoder.opcode, Piece.emitAll_append, emit_eq_layout files]
  | value | wrapped | iterable | set | typeAlias | mov | unary | binary | indexGet | indexSet
  | length | attrGet | attrSet | cast | call | ternary | compareJump | jump | label | lambda | block
  | ret | use =>
    simp only [emit, layout, List.cons_append, List.nil_append, List.append_assoc, Piece.emitAll,
      Piece.emit, Piece.emitAll_append, Piece.opcode, Encoder.opcode, Piece.bool, boolByte,
      Encoder.bool, write_declaration files, Emitter.write_idents files, bind_pure_unit, bind_assoc,
      emit_eq_layout files, emitAll_eq_layout files, emitReversed_eq_layout files]

theorem emitAll_eq_layout (files : FileSet) (is : List Instr) :
    emitAll files is = Piece.emitAll files (layoutAll is) := by
  cases is with
  | nil => rfl
  | cons i is =>
    simp only [emitAll, layoutAll, Piece.emitAll_append, emit_eq_layout files i,
      emitAll_eq_layout files is]

theorem emitReversed_eq_layout (files : FileSet) (is : List Instr) :
    emitReversed files is = Piece.emitAll files (layoutReversed is) := by
  cases is with
  | nil => rfl
  | cons i is =>
    simp only [emitReversed, layoutReversed, Piece.emitAll_append, emit_eq_layout files i,
      emitReversed_eq_layout files is]

end

end Instr

end BytecodeCompiler
