import BytecodeCompiler.Value

-- The machine that the code runs on: its opcodes and its registers. The numbers of both
-- are part of the code format.

namespace BytecodeCompiler

/-- The first byte of every instruction. The operands follow it in the order given here. -/
inductive Opcode where
  /-- Declaration, type. -/
  | typeAlias
  /-- Type, value. -/
  | cast
  /-- Mode, package, count, imports. -/
  | use
  /-- Declaration, type, value. -/
  | set
  /-- Target, value. -/
  | mov
  /-- Store at an index: index, collection, value. -/
  | cset
  /-- Collection, value. -/
  | cadd
  /-- Collection, value. -/
  | cremove
  /-- Whether nil is safe, index, collection. -/
  | iget
  /-- Collection. -/
  | ilen
  /-- Whether nil is safe, object, attribute. -/
  | aget
  /-- Whether nil is safe, attribute, object, value. -/
  | aset
  /-- Type of the function, block. -/
  | lambda
  /-- Two bytes of length, body, end of block. -/
  | blockBegin
  | blockEnd
  /-- Value. -/
  | ret
  /-- Callee, arguments. -/
  | call
  /-- Operator, right operand or nil, left operand. -/
  | operation
  /-- Value if false, value if true, condition. -/
  | tif
  /-- Value, value to compare with, two bytes of target. -/
  | compareJump
  /-- Two bytes of target. -/
  | jump
  /-- Never written: a label is a place in the code. -/
  | label
deriving DecidableEq, Inhabited

namespace Opcode

def all : List Opcode :=
  [.typeAlias, .cast, .use, .set, .mov, .cset, .cadd, .cremove, .iget, .ilen, .aget, .aset,
    .lambda, .blockBegin, .blockEnd, .ret, .call, .operation, .tif, .compareJump, .jump, .label]

def byte : Opcode → UInt8
  | .typeAlias => 0
  | .cast => 1
  | .use => 2
  | .set => 3
  | .mov => 4
  | .cset => 5
  | .cadd => 6
  | .cremove => 7
  | .iget => 8
  | .ilen => 9
  | .aget => 10
  | .aset => 11
  | .lambda => 12
  | .blockBegin => 13
  | .blockEnd => 14
  | .ret => 15
  | .call => 16
  | .operation => 17
  | .tif => 18
  | .compareJump => 19
  | .jump => 20
  | .label => 21

def ofByte? (b : UInt8) : Option Opcode := all.find? (·.byte == b)

/-- The opcode's word in a listing. -/
def mnemonic : Opcode → String
  | .typeAlias => "typealias"
  | .cast => "cast"
  | .use => "use"
  | .set => "set"
  | .mov => "mov"
  | .cset => "cset"
  | .cadd => "cadd"
  | .cremove => "cremove"
  | .iget => "iget"
  | .ilen => "ilen"
  | .aget => "aget"
  | .aset => "aset"
  | .lambda => "lambda"
  | .blockBegin => "begin"
  | .blockEnd => "end"
  | .ret => "ret"
  | .call => "call"
  | .operation => "op"
  | .tif => "tif"
  | .compareJump => "cmpjump"
  | .jump => "jump"
  | .label => "label"

end Opcode

/-- The registers of the machine. -/
inductive Register where
  /-- Reading it pops the result stack. -/
  | rpop
  /-- The result of the running function. -/
  | rx
  /-- Scratch for iterables and shared expressions. -/
  | ra
  | rb
  | rc
  | rd
  | re
  | rf
  | rg
  | rh
  /-- Scratch for loop indices. -/
  | ri
deriving DecidableEq, Inhabited

namespace Register

def all : List Register := [.rpop, .rx, .ra, .rb, .rc, .rd, .re, .rf, .rg, .rh, .ri]

def byte : Register → UInt8
  | .rpop => 0
  | .rx => 1
  | .ra => 2
  | .rb => 3
  | .rc => 4
  | .rd => 5
  | .re => 6
  | .rf => 7
  | .rg => 8
  | .rh => 9
  | .ri => 10

def ofByte? (b : UInt8) : Option Register := all.find? (·.byte == b)

def name : Register → String
  | .rpop => "RPop"
  | .rx => "Rx"
  | .ra => "Ra"
  | .rb => "Rb"
  | .rc => "Rc"
  | .rd => "Rd"
  | .re => "Re"
  | .rf => "Rf"
  | .rg => "Rg"
  | .rh => "Rh"
  | .ri => "Ri"

/-- The register as an identifier. -/
def ident (r : Register) : Ident := .byte r.byte

/-- A reference to the register. -/
def value (r : Register) : Value := .reference r.ident

/-- The register that a value refers to. The fallback does not matter. -/
def ofValue? : Value → Option Register
  | .named (.byte b) _ => ofByte? b
  | _ => none

end Register

end BytecodeCompiler
