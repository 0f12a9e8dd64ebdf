-- Places in source files. File number zero means no file, so the all-zero span
-- points nowhere and is never written to a source map.

namespace BytecodeCompiler

/-- The number of a registered file, counted from one. Zero means no file. -/
abbrev FileId := UInt32

/-- A stretch of one source line. Lines and columns count from one. -/
structure Span where
  file : FileId
  line : UInt32
  col : UInt32
  len : UInt32
deriving DecidableEq, Inhabited

namespace Span

/-- The span of what has no place in a source. -/
def none : Span := ⟨0, 0, 0, 0⟩

/-- A span points somewhere when it has a file and a line. -/
def isValid (s : Span) : Bool := s.file != 0 && s.line != 0

/-- The column after the last byte covered. The sum is that of a build without overflow checks: it
starts over at zero where a build with them stops. -/
def colEnd (s : Span) : UInt32 := s.col + s.len

/-- Line and column, as messages give them. -/
def text (s : Span) : String := toString s.line.toNat ++ ":" ++ toString s.col.toNat

/-- File number, line and column. -/
def locus (s : Span) : String := toString s.file.toNat ++ ":" ++ s.text

end Span

/-! ## Registered files -/

/-- The file names of a compilation in the order of their registration. -/
structure FileSet where
  names : Array String
deriving DecidableEq, Inhabited

namespace FileSet

def empty : FileSet := ⟨#[]⟩

def size (fs : FileSet) : Nat := fs.names.size

/-- Register a name and give its number. A name registered before keeps its first number. -/
def add (fs : FileSet) (name : String) : FileId × FileSet :=
  match fs.names.toList.findIdx? (· == name) with
  | some i => (UInt32.ofNat (i + 1), fs)
  | none => (UInt32.ofNat (fs.names.size + 1), ⟨fs.names.push name⟩)

/-- Register every name in turn. -/
def addAll (fs : FileSet) (names : List String) : FileSet :=
  names.foldl (fun acc name => (acc.add name).2) fs

/-- The name of a file. -/
def name? (fs : FileSet) (id : FileId) : Option String :=
  if id = 0 then none else fs.names[id.toNat - 1]?

end FileSet

end BytecodeCompiler
