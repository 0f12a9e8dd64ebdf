import BytecodeCompiler.Decimal
import BytecodeCompiler.Ty.Equality
import BytecodeCompiler.Value

-- When two values are equal as a program sees them: numbers are compared as numbers, so a
-- NaN agrees with nothing and the two zeros agree.

namespace BytecodeCompiler.Value

def floatsAgree (a b : UInt32) : Bool := Decimal.single.numEq a.toNat b.toNat

def doublesAgree (a b : UInt64) : Bool := Decimal.double.numEq a.toNat b.toNat

mutual

/-- Whether two values are equal, with floating-point numbers compared as numbers. -/
def agrees : Value → Value → Bool
  | .nil, .nil => true
  | .bool a, .bool b => a == b
  | .int a, .int b => a == b
  | .int8 a, .int8 b => a == b
  | .int16 a, .int16 b => a == b
  | .float32 a, .float32 b => floatsAgree a b
  | .float64 a, .float64 b => doublesAgree a b
  | .complex64 a b, .complex64 c d => floatsAgree a c && floatsAgree b d
  | .complex128 a b, .complex128 c d => doublesAgree a c && doublesAgree b d
  | .string a, .string b => a == b
  | .char a, .char b => a == b
  | .tuple as, .tuple bs => allAgree as bs
  | .struct fs as, .struct gs bs => fs == gs && allAgree as bs
  | .array s as, .array t bs => s == t && allAgree as bs
  | .spread a, .spread b => agrees a b
  | .named n a, .named m b => n == m && agrees a b
  | _, _ => false

def allAgree : List Value → List Value → Bool
  | [], [] => true
  | a :: as, b :: bs => agrees a b && allAgree as bs
  | _, _ => false

end

end BytecodeCompiler.Value
