import BytecodeCompiler.Ty

-- Concrete values: the constants of a program, and the references that the machine
-- resolves when it runs.

namespace BytecodeCompiler

/-- A concrete value. Floating-point numbers are held by their bits. -/
inductive Value where
  | nil
  | bool (b : Bool)
  | int (n : Int64)
  | int8 (n : Int8)
  | int16 (n : Int16)
  | float32 (bits : UInt32)
  | float64 (bits : UInt64)
  | complex64 (re im : UInt32)
  | complex128 (re im : UInt64)
  | string (s : String)
  | char (c : Char)
  | tuple (values : List Value)
  /-- A layout and the values of its fields in declaration order. -/
  | struct (fields : List (Ident × Ty)) (values : List Value)
  /-- The declared element type and the elements. -/
  | array (elem : Ty) (values : List Value)
  /-- An iterable that is spread out where it stands. -/
  | spread (inner : Value)
  /-- A reference by name, with the value for a name that is not bound. -/
  | named (name : Ident) (fallback : Value)
deriving Inhabited

namespace Value

/-- A reference by name that falls back to nil. -/
def reference (name : Ident) : Value := .named name .nil

mutual

/-- The principal type of a value. A spread value has the type of what it spreads. -/
def ty : Value → Ty
  | .nil => .nil
  | .bool _ => .bool
  | .int _ => .int
  | .int8 _ => .int8
  | .int16 _ => .int16
  | .float32 _ => .float32
  | .float64 _ => .float64
  | .complex64 .. => .complex64
  | .complex128 .. => .complex128
  | .string _ => .string
  | .char _ => .char
  | .tuple values => .tuple (tys values)
  | .struct fields _ => .struct fields
  | .array elem _ => .array elem
  | .spread inner => inner.ty
  | .named name _ => .objRef name

def tys : List Value → List Ty
  | [] => []
  | v :: vs => v.ty :: tys vs

end

/-- The value without the spreads around it. -/
def unspread : Value → Value
  | .spread inner => inner.unspread
  | v => v

/-- The name of a reference. -/
def name? : Value → Option Ident
  | .named name _ => some name
  | _ => none

def isNil : Value → Bool
  | .nil => true
  | _ => false

end Value

end BytecodeCompiler
