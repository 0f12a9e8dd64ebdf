import BytecodeCompiler.Code

-- Disks: which folders and files there are, and where a path leads. A path is followed part
-- by part through folders that are there, so a way up again from a missing folder leads
-- nowhere.

namespace BytecodeCompiler

/-- A place on a disk: the names on the way to it from the root. -/
abbrev Place := List String

namespace Place

/-- The path of a place. -/
def text (p : Place) : String := "/" ++ "/".intercalate p

/-- The places on the way to a place, itself the last. The root is left out. -/
def way (p : Place) : List Place := (List.range p.length).map fun n => p.take (n + 1)

/-- A path seen from a folder. A path that starts at the root does not depend on the folder. -/
def join (folder : Place) (path : String) : String :=
  if path.startsWith "/" then path else folder.text ++ "/" ++ path

end Place

/-- The folders and the files of a disk. The root is always there. -/
structure Disk where
  /-- The folders besides the root. -/
  folders : List Place
  files : List (Place × Code)
deriving DecidableEq, Inhabited

namespace Disk

/-- The longest name in bytes. -/
def maxName : Nat := 255

/-- The longest path in bytes. -/
def maxPath : Nat := 4095

/-- A disk with files and the folders that they stand in. -/
def ofFiles (files : List (Place × Code)) : Disk :=
  ⟨files.flatMap fun (p, _) => Place.way p.dropLast, files⟩

def isFolder (d : Disk) (p : Place) : Bool := p.isEmpty || d.folders.contains p

def isFile (d : Disk) (p : Place) : Bool := (d.files.lookup p).isSome

/-- The files that stand in a folder itself, in the order of their names. -/
def filesIn (d : Disk) (folder : Place) : List (String × Code) :=
  let found := d.files.filterMap fun (p, contents) =>
    if p.dropLast = folder then p.getLast?.map fun name => (name, contents) else none
  found.mergeSort fun a b => a.1 ≤ b.1

/-! ## Paths -/

/-- Whether a file can have the name. One dot and two dots are names of folders. -/
def isFileName (name : String) : Bool :=
  name != "" && name != "." && name != ".." && name.utf8ByteSize ≤ maxName &&
    !name.toList.contains '\x00'

/-- Follow one part of a path. Nothing and one dot stay in the folder, and two dots go up to the
folder above. The root is above itself. -/
def step (d : Disk) (folder : Place) (part : String) : Option Place :=
  if part = "" ∨ part = "." then some folder
  else if part = ".." then some folder.dropLast
  else if d.isFolder (folder ++ [part]) then some (folder ++ [part])
  else none

/-- The place of the file that a path from the root leads to. The file need not be there. -/
def place? (d : Disk) (path : String) : Option Place :=
  let parts := path.splitOn "/"
  match parts.getLast? with
  | some name =>
    if isFileName name && path.utf8ByteSize ≤ maxPath then
      (parts.dropLast.foldlM d.step []).map (· ++ [name])
    else none
  | none => none

/-! ## Changes -/

/-- Make a folder and those on the way to it, unless a file stands in the way. -/
def makeFolder? (d : Disk) (p : Place) : Option Disk :=
  if p.way.any d.isFile then none
  else some ⟨d.folders ++ p.way.filter fun q => !d.isFolder q, d.files⟩

/-- Write a file where a path leads, in place of the file that is there. -/
def write? (d : Disk) (path : String) (contents : Code) : Option Disk := do
  let p ← d.place? path
  if d.isFolder p then none
  else some ⟨d.folders, d.files.filter (·.1 ≠ p) ++ [(p, contents)]⟩

end Disk

end BytecodeCompiler
