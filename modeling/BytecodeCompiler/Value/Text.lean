import BytecodeCompiler.Decimal
import BytecodeCompiler.Text.Quoted
import BytecodeCompiler.Ty.Text
import BytecodeCompiler.Value

-- How values read in a listing. Strings and characters are quoted, so the text of a value
-- breaks a line only where an identifier in it does.

namespace BytecodeCompiler.Value

def floatText (bits : UInt32) : String := Decimal.single.text bits.toNat

def doubleText (bits : UInt64) : String := Decimal.double.text bits.toNat

mutual

/-- How a value reads in a listing. -/
def text : Value → String
  | .nil => "nil"
  | .bool b => "Bool(" ++ (if b then "true" else "false") ++ ")"
  | .int n => "Int(" ++ toString n.toInt ++ ")"
  | .int8 n => "Int8(" ++ toString n.toInt ++ ")"
  | .int16 n => "Int16(" ++ toString n.toInt ++ ")"
  | .float32 bits => "Float32(" ++ floatText bits ++ ")"
  | .float64 bits => "Float64(" ++ doubleText bits ++ ")"
  | .complex64 re im => "Complex64(" ++ floatText re ++ ", " ++ floatText im ++ ")"
  | .complex128 re im => "Complex128(" ++ doubleText re ++ ", " ++ doubleText im ++ ")"
  | .string s => "String(" ++ Text.quoted s ++ ")"
  | .char c => "Char(" ++ Text.quotedChar c ++ ")"
  | .tuple values => "(" ++ ", ".intercalate (texts values) ++ ")"
  | .struct fields values =>
    "\x7b" ++ ", ".intercalate (fieldTexts (fields.map (·.1)) values) ++ "\x7d"
  | .array elem values =>
    "[" ++ elem.text ++ "]\x7b" ++ ", ".intercalate (texts values) ++ "\x7d"
  | .spread inner => inner.text ++ "..."
  | .named name fallback =>
    -- A nil fallback is not worth a mention.
    if fallback.isNil then "$" ++ name.text else "$" ++ name.text ++ "?" ++ fallback.text

def texts : List Value → List String
  | [] => []
  | v :: vs => v.text :: texts vs

/-- Names and values side by side, as far as both lists go. -/
def fieldTexts : List Ident → List Value → List String
  | name :: names, v :: vs => (name.text ++ ": " ++ v.text) :: fieldTexts names vs
  | _, _ => []

end

end BytecodeCompiler.Value
