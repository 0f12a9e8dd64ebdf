import BytecodeCompiler.Proofs.Emission.OnePass
import BytecodeCompiler.Proofs.Emission.Operands

-- A walk through the code of a program, instruction by instruction. It follows the operand table of
-- the opcodes, keeps everything it reads, and notes where instructions, blocks and ends of blocks
-- begin.

namespace BytecodeCompiler

/-- One block of the code: where its length counts from, the length that is written there, and
where the block is over. -/
structure Frame where
  start : Nat
  length : Nat
  stop : Nat
deriving DecidableEq, Inhabited

/-- What a walk finds: the instructions, the offsets at which instructions and ends of blocks begin,
and the blocks. -/
structure Walk where
  body : List Instr
  boundaries : List Nat
  frames : List Frame
deriving Inhabited

instance : Append Walk :=
  ⟨fun v w => ⟨v.body ++ w.body, v.boundaries ++ w.boundaries, v.frames ++ w.frames⟩⟩

namespace Decoder

/-! ## The walk -/

/-- The next opcode must be this one. -/
def expect (op : Opcode) : Decoder Unit := do
  if (← opcode) = op then return () else invalid ("expected " ++ op.mnemonic)

def declaration : Decoder Declaration := do
  let isPub ← bool
  let isConst ← bool
  return ⟨isPub, isConst, ← ident⟩

def operator : Decoder Operator := do
  match Operator.ofByte? (← byte) with
  | some op => return op
  | none => invalid "unknown operator"

def useMode : Decoder UseMode := do
  match UseMode.ofByte? (← byte) with
  | some mode => return mode
  | none => invalid "unknown use mode"

def signature : Decoder Signature := do
  match (← ty).signature? with
  | some s => return s
  | none => invalid "no signature"

/-- The target of a jump: an offset in place of a label. -/
def target : Decoder Ident := return .short (← short)

/-- What follows an opcode. Blocks are not read here. -/
def instruction : Opcode → Decoder Instr
  | .typeAlias => do
    let decl ← declaration
    let t ← ty
    return .typeAlias decl t .none
  | .cast => do
    let t ← ty
    let expr ← operand
    return .cast t expr .none
  | .use => do
    let mode ← useMode
    let package ← ident
    let imports ← many ident (← byte).toNat
    return .use mode package imports .none
  | .set => do
    let decl ← declaration
    let t ← ty
    let expr ← operand
    return .set decl t expr .none
  | .mov => do
    let dest ← operand
    let v ← operand
    return .mov dest v .none
  | .cset => do
    let index ← operand
    let object ← operand
    let v ← operand
    return .indexSet index object v .none
  | .cadd => do
    let left ← operand
    let right ← operand
    return .collection .add left right .none
  | .cremove => do
    let left ← operand
    let right ← operand
    return .collection .remove left right .none
  | .iget => do
    let nilSafe ← bool
    let index ← operand
    let object ← operand
    return .indexGet index nilSafe object .none
  | .ilen => do
    let expr ← operand
    return .length expr .none
  | .aget => do
    let nilSafe ← bool
    let object ← operand
    let name ← ident
    return .attrGet name nilSafe object .none
  | .aset => do
    let nilSafe ← bool
    let name ← ident
    let object ← operand
    let v ← operand
    return .attrSet nilSafe name object v .none
  | .ret => do
    let expr ← operand
    return .ret expr .none
  | .call => do
    let callee ← operand
    let arguments ← operand
    return .call callee arguments .none
  | .operation => do
    let op ← operator
    let right ← operand
    let left ← operand
    return .binary op left right .none
  | .tif => do
    let ifFalse ← operand
    let ifTrue ← operand
    let cond ← operand
    return .ternary cond ifTrue ifFalse .none
  | .compareJump => do
    let expr ← operand
    let expected ← operand
    let l ← target
    return .compareJump expr expected l .none
  | .jump => do
    let l ← target
    return .jump l .none
  | .lambda | .blockBegin | .blockEnd | .label => invalid "no instruction"

/-- A block behind its first byte: the length, and the row up to the end of the block. -/
def framed (row : Decoder Walk) : Decoder Walk := do
  let length ← short
  let start ← position
  let w ← row
  let stop ← position
  return ⟨w.body, w.boundaries, ⟨start, length.toNat, stop⟩ :: w.frames⟩

/-- One instruction, function or block. -/
def statement (row : Decoder Walk) : Decoder Walk := do
  let here ← position
  match (← opcode) with
  | .blockBegin =>
    let w ← framed row
    return ⟨[.block w.body .none], here :: w.boundaries, w.frames⟩
  | .lambda =>
    let s ← signature
    expect .blockBegin
    let w ← framed row
    return ⟨[.lambda s w.body .none], here :: w.boundaries, w.frames⟩
  | op => return ⟨[← instruction op], [here], []⟩

/-- The row of a block up to its end, with no more than `depth` steps and blocks. -/
def rowWithin : (depth : Nat) → Decoder Walk
  | 0 => do throw (.unexpectedEnd (← position))
  | depth + 1 => do
    match (← peekOpcode?) with
    | some .blockEnd =>
      let here ← position
      expect .blockEnd
      return ⟨[], [here], []⟩
    | _ =>
      let first ← statement (rowWithin depth)
      let others ← rowWithin depth
      return first ++ others

/-- A whole program: one block. -/
def walk : Decoder Walk := do
  expect .blockBegin
  framed (rowWithin (← remaining))

end Decoder

end BytecodeCompiler
