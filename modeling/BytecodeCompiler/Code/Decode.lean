import BytecodeCompiler.Code
import BytecodeCompiler.Machine
import BytecodeCompiler.Ty.Text

-- Reading back what was written. A reader holds a position in the code. A read that fails
-- leaves the position where it stopped. How the next bytes are taken comes with the code, since a
-- machine may not be able to add every number of bytes to a position.

namespace BytecodeCompiler

/-- Where the bytes come from: the code, and how the next `n` bytes of it are taken. -/
structure Source where
  code : Code
  take (n : Nat) : EStateM Fault Nat (List UInt8)

namespace Source

/-- The next `n` bytes, all of them or none. -/
def takeFrom (code : Code) (n : Nat) : EStateM Fault Nat (List UInt8) := do
  let pos ← get
  if pos + n ≤ code.size then
    set (pos + n)
    return (code.extract pos (pos + n)).toList
  else
    throw (.unexpectedEnd pos)

/-- The code, with positions that any number can be added to. -/
def ofCode (code : Code) : Source where
  code := code
  take := takeFrom code

end Source

/-- A read from a source, which moves a position. -/
abbrev Decoder := ReaderT Source (EStateM Fault Nat)

namespace Decoder

/-- Read from a position of a source. -/
def readFrom {α : Type} (d : Decoder α) (source : Source) (pos : Nat) :
    EStateM.Result Fault Nat α :=
  (d.run source).run pos

/-- Read from a position of the code. -/
def readAt {α : Type} (d : Decoder α) (code : Code) (pos : Nat) : EStateM.Result Fault Nat α :=
  d.readFrom (.ofCode code) pos

def position : Decoder Nat := get

/-- How many bytes are left. -/
def remaining : Decoder Nat := do
  return (← read).code.size - (← position)

/-- The bytes that are left. -/
def rest : Decoder Code := do
  let code := (← read).code
  return code.extract (← position) code.size

/-- Complain about the bytes just read. -/
def invalid {α : Type} (detail : String) : Decoder α := do
  throw (.invalidEncoding (← position) detail)

/-- Complain that there are no more bytes. -/
def ended {α : Type} : Decoder α := do throw (.unexpectedEnd (← position))

/-! ## Fixed widths -/

/-- The next `n` bytes, as the source takes them. -/
def take (n : Nat) : Decoder (List UInt8) := do (← read).take n

/-- A little-endian number of the given width. -/
def nat (width : Nat) : Decoder Nat := return leNat (← take width)

def byte : Decoder UInt8 := return UInt8.ofNat (← nat 1)

def bool : Decoder Bool := return (← byte) != 0

def int8 : Decoder Int8 := return (← byte).toInt8

def int16 : Decoder Int16 := return (UInt16.ofNat (← nat 2)).toInt16

def short : Decoder UInt16 := return UInt16.ofNat (← nat 2)

def int : Decoder Int64 := return (UInt64.ofNat (← nat 8)).toInt64

def float32 : Decoder UInt32 := return UInt32.ofNat (← nat 4)

def float64 : Decoder UInt64 := return UInt64.ofNat (← nat 8)

/-- How many bytes a character takes, as its first byte tells. -/
def runeWidth (first : UInt8) : Nat :=
  if first < 0x80 then 1
  else if first < 0xc0 then 4
  else if first < 0xe0 then 2
  else if first < 0xf0 then 3
  else 4

/-- A character as UTF-8. -/
def char : Decoder Char := do
  let pos ← position
  match (← read).code[pos]? with
  | none => throw (.unexpectedEnd pos)
  | some first =>
    let bytes ← take (runeWidth first)
    match (ofTextBytes? bytes).bind (·.toList.head?) with
    | some c => return c
    | none => invalid "malformed rune"

/-! ## Codes -/

def opcode : Decoder Opcode := do
  let pos ← position
  let b ← byte
  match Opcode.ofByte? b with
  | some op => return op
  | none => throw (.unknownOpcode b pos)

/-- The opcode at the position, without moving. -/
def peekOpcode? : Decoder (Option Opcode) := do
  return ((← read).code[(← position)]?).bind Opcode.ofByte?

def typeCode : Decoder TypeCode := do
  let pos ← position
  let b ← byte
  match TypeCode.ofByte? b with
  | some code => return code
  | none => throw (.unknownTypeCode b pos)

/-! ## Texts and identifiers -/

/-- The length in front of a text. Its type says how wide it is. -/
def textLength : Decoder Int := do
  match (← typeCode) with
  | .int8 => return (← int8).toInt
  | .int16 => return (← int16).toInt
  | .int => return (← int).toInt
  | other => invalid ("string length typed " ++ other.name)

def text : Decoder String := do
  let len ← textLength
  if len < 0 then
    invalid "negative string length"
  else
    match ofTextBytes? (← take len.toNat) with
    | some s => return s
    | none => invalid "string is not UTF-8"

def ident : Decoder Ident := do
  match IdentMode.ofTag? (← byte) with
  | none => invalid "unknown ident mode"
  | some .byte => return .byte (← byte)
  | some .short => return .short (← short)
  | some .name =>
    let len ← byte
    match ofTextBytes? (← take len.toNat) with
    | some s => return .name s
    | none => invalid "ident is not UTF-8"

/-! ## Types and values

The reading of a type or a value calls itself. What a call does that is one too deep is a
parameter. Every type and every value starts with a byte of its own, so the bytes that are left
bound how deep the reading can go. -/

/-- Read `count` things in a row. -/
def many {α : Type} (d : Decoder α) : (count : Nat) → Decoder (List α)
  | 0 => return []
  | count + 1 => do
    let first ← d
    let others ← many d count
    return first :: others

/-- How many members a type has. -/
def typeCount : Decoder Nat := do
  let count ← int8
  if count.toInt < 0 then invalid "negative type count" else return count.toInt.toNat

/-- A name and the type that belongs to it. -/
def field (d : Decoder Ty) : Decoder (Ident × Ty) := do
  let name ← ident
  let t ← d
  return (name, t)

/-- A type, with no more than so many calls inside each other. -/
def tyCalls (deeper : Decoder Ty) : (calls : Nat) → Decoder Ty
  | 0 => deeper
  | calls + 1 => do
    match (← typeCode) with
    | .any => return .any
    | .nil => return .nil
    | .bool => return .bool
    | .int => return .int
    | .int8 => return .int8
    | .int16 => return .int16
    | .float32 => return .float32
    | .float64 => return .float64
    | .complex64 => return .complex64
    | .complex128 => return .complex128
    | .string => return .string
    | .char => return .char
    | .array => return .array (← tyCalls deeper calls)
    | .tuple => return .tuple (← many (tyCalls deeper calls) (← typeCount))
    | .union => return .union (← many (tyCalls deeper calls) (← typeCount))
    | .struct => return .struct (← many (field (tyCalls deeper calls)) (← typeCount))
    | .lambda =>
      let result ← tyCalls deeper calls
      let params ← many (field (tyCalls deeper calls)) (← typeCount)
      return .lambda params result (← bool)
    | .ref => return .ref (← ident)
    | .objRef => return .objRef (← ident)
    | .ident => return .ident (← ident)

/-- A type that nests less deep than `depth`. -/
abbrev tyWithin (depth : Nat) : Decoder Ty := tyCalls ended depth

/-- A type. -/
def ty : Decoder Ty := do tyWithin (← remaining)

/-- Counted values in a row. -/
def members (d : Decoder Value) : Decoder (List Value) := do many d (← byte).toNat

/-- The contents of a value of the given type. The declared types of members are not looked
at: every member brings its own. -/
def contents (d : Decoder Value) : Ty → Decoder Value
  | .nil => return .nil
  | .bool => return .bool (← bool)
  | .int => return .int (← int)
  | .int8 => return .int8 (← int8)
  | .int16 => return .int16 (← int16)
  | .float32 => return .float32 (← float32)
  | .float64 => return .float64 (← float64)
  | .complex64 => do
    let re ← float32
    return .complex64 re (← float32)
  | .complex128 => do
    let re ← float64
    return .complex128 re (← float64)
  | .string => return .string (← text)
  | .char => return .char (← char)
  | .tuple _ => return .tuple (← members d)
  | .array elem => return .array elem (← members d)
  | .struct fields => return .struct fields (← members d)
  | .objRef name => return .named name (← d)
  | other => invalid ("no object encoding for type " ++ other.text)

/-- A value behind its type, with no more than so many calls inside each other. The type is read
with the calls that are left. -/
def valueCalls (readTy : (calls : Nat) → Decoder Ty) (deeper : Decoder Value) : (calls : Nat) →
    Decoder Value
  | 0 => deeper
  | calls + 1 => do contents (valueCalls readTy deeper calls) (← readTy calls)

/-- A value that nests less deep than `depth`, behind a type as deep as may be. -/
abbrev valueWithin (depth : Nat) : Decoder Value := valueCalls (fun _ => ty) ended depth

/-- A value behind its type. -/
def value : Decoder Value := do valueWithin (← remaining)

end Decoder

end BytecodeCompiler
