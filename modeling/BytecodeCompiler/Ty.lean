import BytecodeCompiler.Ident

-- Static types: what they are, and how their first byte tells them apart.

namespace BytecodeCompiler

/-- The sort of a type, as its first byte tells it. -/
inductive TypeCode where
  | any
  | nil
  | bool
  | int
  | int8
  | int16
  | float32
  | float64
  | complex64
  | complex128
  | string
  | char
  | array
  | tuple
  | union
  | struct
  | lambda
  | ref
  | objRef
  | ident
deriving DecidableEq, Inhabited

namespace TypeCode

def all : List TypeCode :=
  [.any, .nil, .bool, .int, .int8, .int16, .float32, .float64, .complex64, .complex128, .string,
    .char, .array, .tuple, .union, .struct, .lambda, .ref, .objRef, .ident]

/-- The first byte of an encoded type. -/
def byte : TypeCode → UInt8
  | .any => 0
  | .nil => 1
  | .bool => 2
  | .int => 3
  | .int8 => 4
  | .int16 => 5
  | .float32 => 6
  | .float64 => 7
  | .complex64 => 8
  | .complex128 => 9
  | .string => 10
  | .char => 11
  | .array => 12
  | .tuple => 13
  | .union => 14
  | .struct => 15
  | .lambda => 16
  | .ref => 17
  | .objRef => 18
  | .ident => 19

def ofByte? (b : UInt8) : Option TypeCode := all.find? (·.byte == b)

/-- The code's name in messages. -/
def name : TypeCode → String
  | .any => "Any"
  | .nil => "Nil"
  | .bool => "Bool"
  | .int => "Int"
  | .int8 => "Int8"
  | .int16 => "Int16"
  | .float32 => "Float32"
  | .float64 => "Float64"
  | .complex64 => "Complex64"
  | .complex128 => "Complex128"
  | .string => "String"
  | .char => "Char"
  | .array => "Array"
  | .tuple => "Tuple"
  | .union => "Union"
  | .struct => "Struct"
  | .lambda => "Lambda"
  | .ref => "Ref"
  | .objRef => "ObjRef"
  | .ident => "Ident"

end TypeCode

/-- A static type. -/
inductive Ty where
  | any
  | nil
  | bool
  | int
  | int8
  | int16
  | float32
  | float64
  | complex64
  | complex128
  | string
  | char
  | array (elem : Ty)
  | tuple (members : List Ty)
  | union (members : List Ty)
  /-- Named fields in declaration order. -/
  | struct (fields : List (Ident × Ty))
  /-- Named parameters and a result. The last parameter of a variadic one takes what is left. -/
  | lambda (params : List (Ident × Ty)) (result : Ty) (variadic : Bool)
  /-- A reference to a named value. -/
  | ref (name : Ident)
  /-- A reference to an object that the machine looks up. -/
  | objRef (name : Ident)
  /-- The name of a type alias. -/
  | ident (name : Ident)
deriving Inhabited

/-- The type of a function: what a lambda instruction carries. -/
structure Signature where
  params : List (Ident × Ty)
  result : Ty
  variadic : Bool
deriving Inhabited

/-- The signature as a type. -/
def Signature.toTy (s : Signature) : Ty := .lambda s.params s.result s.variadic

namespace Ty

def code : Ty → TypeCode
  | .any => .any
  | .nil => .nil
  | .bool => .bool
  | .int => .int
  | .int8 => .int8
  | .int16 => .int16
  | .float32 => .float32
  | .float64 => .float64
  | .complex64 => .complex64
  | .complex128 => .complex128
  | .string => .string
  | .char => .char
  | .array _ => .array
  | .tuple _ => .tuple
  | .union _ => .union
  | .struct _ => .struct
  | .lambda .. => .lambda
  | .ref _ => .ref
  | .objRef _ => .objRef
  | .ident _ => .ident

/-- Whether values of the type can be indexed and iterated. -/
def isIterable : Ty → Bool
  | .array _ | .tuple _ | .string => true
  | _ => false

/-- The type of the elements of an array, and any type for the rest. -/
def element : Ty → Ty
  | .array elem => elem
  | _ => .any

/-- The type that calling a function gives, and any type for the rest. -/
def callResult : Ty → Ty
  | .lambda _ result _ => result
  | _ => .any

/-- The type as a signature, when it is one. -/
def signature? : Ty → Option Signature
  | .lambda params result variadic => some ⟨params, result, variadic⟩
  | _ => none

end Ty

end BytecodeCompiler
