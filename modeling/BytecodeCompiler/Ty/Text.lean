import BytecodeCompiler.Ty

-- How types read in a listing.

namespace BytecodeCompiler.Ty

mutual

/-- How a type reads in a listing. -/
def text : Ty → String
  | .any => "any"
  | .nil => "nil"
  | .bool => "bool"
  | .int => "int"
  | .int8 => "int8"
  | .int16 => "int16"
  | .float32 => "float32"
  | .float64 => "float64"
  | .complex64 => "complex64"
  | .complex128 => "complex128"
  | .string => "string"
  | .char => "char"
  | .array elem => "[" ++ elem.text ++ "]"
  | .tuple members => "(" ++ ", ".intercalate (texts members) ++ ")"
  | .union members => " | ".intercalate (texts members)
  | .struct fields => "struct\x7b" ++ ", ".intercalate (fieldTexts fields) ++ "\x7d"
  | .lambda params result variadic =>
    "(" ++ ", ".intercalate (fieldTexts params) ++ (if variadic then "..." else "") ++ ") => " ++
      result.text
  | .ref name => "ref " ++ name.text
  | .objRef name => "objref " ++ name.text
  | .ident name => name.text

def texts : List Ty → List String
  | [] => []
  | t :: ts => t.text :: texts ts

def fieldTexts : List (Ident × Ty) → List String
  | [] => []
  | (name, t) :: fs => (name.text ++ ": " ++ t.text) :: fieldTexts fs

end

end BytecodeCompiler.Ty

namespace BytecodeCompiler

/-- How the type of a function reads in a listing. -/
def Signature.text (s : Signature) : String := s.toTy.text

end BytecodeCompiler
