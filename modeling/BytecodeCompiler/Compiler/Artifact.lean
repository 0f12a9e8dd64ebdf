import BytecodeCompiler.Compiler
import BytecodeCompiler.Disk
import BytecodeCompiler.SourceMap.Json

-- The files that a build leaves behind: the code, the source map and, for debugging, the
-- listing. They are written from an output folder, which is made first.

namespace BytecodeCompiler

/-- A file to be written: its path from the output folder and its bytes. -/
structure Artifact where
  path : String
  contents : Code
deriving DecidableEq, Inhabited

/-- The artifacts of a compilation, in the order in which they are written. -/
def Compilation.artifacts (c : Compilation) (package : String) : List Artifact :=
  let text (ending s : String) : Artifact := ⟨package ++ ending, (textBytes s).toArray⟩
  let listing := match c.build with
    | .debug => [text ".gdasm" c.assembly]
    | .release => []
  listing ++ [⟨package ++ ".gdbin", c.code⟩, text ".gdmap" c.map.toJson]

namespace Artifact

/-- Write artifacts one after the other. What is written before a failure stays. -/
def writeAll (folder : Place) : List Artifact → Disk → Option CompileError × Disk
  | [], disk => (none, disk)
  | a :: more, disk =>
    let path := folder.join a.path
    match disk.write? path a.contents with
    | some disk => writeAll folder more disk
    | none => (some (.file path "no such file or directory"), disk)

/-- Make the output folder and write artifacts from it. -/
def save (folder : Place) (as : List Artifact) (disk : Disk) : Option CompileError × Disk :=
  match disk.makeFolder? folder with
  | some disk => writeAll folder as disk
  | none => (some (.file folder.text "not a directory"), disk)

end Artifact

/-- Compile a main package and write its artifacts, named for the package. -/
def Compiler.build {φ : Type} [Frontend φ] (clock : UInt64) (main package : String)
    (folder : Place) (disk : Disk) (c : Compiler φ) :
    Except CompileError Compilation × Disk × Compiler φ :=
  match Compiler.compile clock main c with
  | .error e c => (.error e, disk, c)
  | .ok compilation c =>
    match Artifact.save folder (compilation.artifacts package) disk with
    | (none, disk) => (.ok compilation, disk, c)
    | (some e, disk) => (.error e, disk, c)

end BytecodeCompiler
