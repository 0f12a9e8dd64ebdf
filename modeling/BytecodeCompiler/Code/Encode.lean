import BytecodeCompiler.Code
import BytecodeCompiler.Value

-- How identifiers, texts, types and values are written. A value is written as its type and
-- then its contents. Members of types are counted in a signed byte, members of values in an
-- unsigned one.

namespace BytecodeCompiler.Encoder

/-- A text: the type and the value of its length in bytes, then the bytes. The length takes
the narrowest signed width that holds it. -/
def text (s : String) : Encoder Unit := do
  let len := s.utf8ByteSize
  if len < 0x80 then
    put (TypeCode.int8.byte :: leBytes 1 len)
  else if len < 0x8000 then
    put (TypeCode.int16.byte :: leBytes 2 len)
  else if len < 0x8000000000000000 then
    put (TypeCode.int.byte :: leBytes 8 len)
  else
    refuse ("string of " ++ toString len ++ " bytes")
  put (textBytes s)

/-- An identifier: its tag, then the number or the counted bytes of the name. -/
def ident (i : Ident) : Encoder Unit := do
  byte i.mode.tag
  match i with
  | .byte n => byte n
  | .short n => short n
  | .name s =>
    if s.utf8ByteSize ≤ Ident.maxName then
      put (UInt8.ofNat s.utf8ByteSize :: textBytes s)
    else
      throw (.identTooLong s.utf8ByteSize)

/-- How many members a type has. -/
def typeCount (n : Nat) : Encoder Unit :=
  if n < 0x80 then byte (UInt8.ofNat n)
  else refuse (toString n ++ " members exceed the i8 type count")

/-- How many members a value has. -/
def valueCount (n : Nat) : Encoder Unit :=
  if n < 0x100 then byte (UInt8.ofNat n)
  else refuse (toString n ++ " values exceed the u8 object count")

/-- How many entries an instruction lists. -/
def entryCount (n : Nat) : Encoder Unit :=
  if n < 0x100 then byte (UInt8.ofNat n)
  else refuse (toString n ++ " entries exceed the u8 count")

mutual

/-- A type: its code, then what belongs to it. -/
def ty : Ty → Encoder Unit
  | .array elem => do
    byte TypeCode.array.byte
    ty elem
  | .tuple members => do
    byte TypeCode.tuple.byte
    typeCount members.length
    tys members
  | .union members => do
    byte TypeCode.union.byte
    typeCount members.length
    tys members
  | .struct fs => do
    byte TypeCode.struct.byte
    typeCount fs.length
    fields fs
  | .lambda params result variadic => do
    byte TypeCode.lambda.byte
    ty result
    typeCount params.length
    fields params
    bool variadic
  | .ref name => do
    byte TypeCode.ref.byte
    ident name
  | .objRef name => do
    byte TypeCode.objRef.byte
    ident name
  | .ident name => do
    byte TypeCode.ident.byte
    ident name
  | t => byte t.code.byte

def tys : List Ty → Encoder Unit
  | [] => pure ()
  | t :: ts => do
    ty t
    tys ts

def fields : List (Ident × Ty) → Encoder Unit
  | [] => pure ()
  | (name, t) :: fs => do
    ident name
    ty t
    fields fs

end

mutual

/-- A value behind its type. A spread value is written as what it spreads. The name of a
reference goes out with its type, so only the fallback follows. -/
def value : Value → Encoder Unit
  | .nil => ty .nil
  | .bool b => do
    ty .bool
    bool b
  | .int n => do
    ty .int
    int n
  | .int8 n => do
    ty .int8
    int8 n
  | .int16 n => do
    ty .int16
    int16 n
  | .float32 bits => do
    ty .float32
    float32 bits
  | .float64 bits => do
    ty .float64
    float64 bits
  | .complex64 re im => do
    ty .complex64
    complex64 re im
  | .complex128 re im => do
    ty .complex128
    complex128 re im
  | .string s => do
    ty .string
    text s
  | .char c => do
    ty .char
    char c
  | .tuple vs => do
    ty (.tuple (Value.tys vs))
    valueCount vs.length
    values vs
  | .struct fs vs => do
    ty (.struct fs)
    valueCount vs.length
    values vs
  | .array elem vs => do
    ty (.array elem)
    valueCount vs.length
    values vs
  | .spread inner => value inner
  | .named name fallback => do
    ty (.objRef name)
    value fallback

def values : List Value → Encoder Unit
  | [] => pure ()
  | v :: vs => do
    value v
    values vs

end

end BytecodeCompiler.Encoder
