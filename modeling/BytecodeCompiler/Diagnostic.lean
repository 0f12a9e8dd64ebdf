import BytecodeCompiler.Fault

-- Findings about a program, and the ways in which a compilation can fail.

namespace BytecodeCompiler

/-- One finding about a source file. -/
structure Diagnostic where
  /-- A short code that tools can match. -/
  code : String
  message : String
  file : String
  span : Span
deriving DecidableEq, Inhabited

/-- The finding on one line, with the place at the end. -/
def Diagnostic.text (d : Diagnostic) : String :=
  d.code ++ ": " ++ d.message ++ " at " ++ d.file ++ ":" ++ d.span.text

/-- The findings one per line. -/
def Diagnostic.joined (ds : List Diagnostic) : String :=
  "\n".intercalate (ds.map Diagnostic.text)

/-- Why a compilation failed. -/
inductive CompileError where
  /-- The sources could not be parsed. -/
  | malformed (findings : List Diagnostic)
  /-- The checker refused the program. -/
  | refused (findings : List Diagnostic)
  | packageNotFound (path : String)
  /-- A file could not be read or written. -/
  | file (path cause : String)
  /-- The fault is the compiler's own. -/
  | internal (fault : Fault)
deriving DecidableEq, Inhabited

namespace CompileError

/-- The wording of an error. -/
def text : CompileError → String
  | .malformed findings | .refused findings => Diagnostic.joined findings
  | .packageNotFound path => "package not found: " ++ path
  | .file path cause => path ++ ": " ++ cause
  | .internal fault => "internal compiler error: " ++ fault.message

/-- A text without the line feeds at its end. -/
def chomp (s : String) : String :=
  String.ofList ((s.toList.reverse.dropWhile (· == '\n')).reverse)

/-- The wording as a command prints it. -/
def report (e : CompileError) : String := chomp e.text

/-- Whether the compiler is at fault, and not the program. -/
def isInternal : CompileError → Bool
  | .internal _ => true
  | _ => false

/-- The findings behind an error. -/
def findings : CompileError → List Diagnostic
  | .malformed ds | .refused ds => ds
  | _ => []

end CompileError

end BytecodeCompiler
