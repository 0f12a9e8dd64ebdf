import BytecodeCompiler.Json
import BytecodeCompiler.SourceMap

-- Source maps as JSON: the version, the sources, and for each offset the file, the line and
-- the two columns. Offsets are the keys of the mappings, in ascending order.

namespace BytecodeCompiler

/-! ## Entries by offset -/

/-- Entries by offset, in ascending order. -/
structure MappingTable where
  entries : List Mapping
  ascending : entries.Pairwise fun e e' => e.offset < e'.offset

namespace MappingTable

def empty : MappingTable := ⟨[], .nil⟩

/-- Put an entry in its place by offset. It replaces an entry for the same offset. -/
def insertMapping (entry : Mapping) : List Mapping → List Mapping
  | [] => [entry]
  | m :: ms =>
    if entry.offset < m.offset then entry :: m :: ms
    else if entry.offset = m.offset then entry :: ms
    else m :: insertMapping entry ms

theorem mem_insertMapping {entry e : Mapping} {ms : List Mapping} (h : e ∈ insertMapping entry ms) :
    e = entry ∨ e ∈ ms := by
  induction ms with
  | nil => exact .inl (List.mem_singleton.mp h)
  | cons m ms ih =>
    unfold insertMapping at h
    split at h
    · exact List.mem_cons.mp h
    · split at h
      · exact (List.mem_cons.mp h).imp_right (List.mem_cons_of_mem m)
      · rcases List.mem_cons.mp h with rfl | h
        · exact .inr List.mem_cons_self
        · exact (ih h).imp_right (List.mem_cons_of_mem m)

theorem ascending_insertMapping (entry : Mapping) {ms : List Mapping}
    (h : ms.Pairwise fun e e' => e.offset < e'.offset) :
    (insertMapping entry ms).Pairwise fun e e' => e.offset < e'.offset := by
  induction ms with
  | nil => exact List.pairwise_singleton _ _
  | cons m ms ih =>
    obtain ⟨hfirst, hothers⟩ := List.pairwise_cons.mp h
    unfold insertMapping
    split
    · rename_i hbefore
      refine List.pairwise_cons.mpr ⟨fun e he => ?_, h⟩
      rcases List.mem_cons.mp he with rfl | he
      · exact hbefore
      · exact UInt32.lt_trans hbefore (hfirst e he)
    · rename_i hnotBefore
      split
      · rename_i hsame
        exact List.pairwise_cons.mpr ⟨fun e he => hsame ▸ hfirst e he, hothers⟩
      · rename_i hother
        refine List.pairwise_cons.mpr ⟨fun e he => ?_, ih hothers⟩
        rcases mem_insertMapping he with rfl | he
        · exact UInt32.lt_of_le_of_ne (UInt32.not_lt.mp hnotBefore) (Ne.symm hother)
        · exact hfirst e he

def insert (table : MappingTable) (entry : Mapping) : MappingTable :=
  ⟨insertMapping entry table.entries, ascending_insertMapping entry table.ascending⟩

/-- The table of entries. Of entries for the same offset, the last one counts. -/
def ofEntries (entries : List Mapping) : MappingTable := entries.foldl insert empty

end MappingTable

/-! ## Files -/

/-- What the file of a source map holds. -/
structure MapFile where
  version : UInt8
  sources : List String
  mappings : MappingTable

/-- What is written of a source map. -/
def SourceMap.toFile (m : SourceMap) : MapFile :=
  ⟨m.version, m.sources.toList, .ofEntries m.mappings.toList⟩

namespace MapFile

/-- The source map that is read from a file. -/
def toMap (f : MapFile) : SourceMap := ⟨f.version, f.sources.toArray, f.mappings.entries.toArray⟩

/-! ## Writing -/

def natText (n : Nat) : List Char := Nat.toDigits 10 n

/-- Rows of characters with a comma between each two. -/
def commas : List (List Char) → List Char
  | [] => []
  | [x] => x
  | x :: xs => x ++ ',' :: commas xs

/-- One mapping as a member of an object. -/
def mappingText (m : Mapping) : List Char :=
  '"' :: (natText m.offset.toNat ++ '"' :: ':' :: '[' ::
    (commas ([m.file, m.line, m.colStart, m.colEnd].map fun n => natText n.toNat) ++ [']']))

/-- The file as JSON without blanks. -/
def toJson (f : MapFile) : String :=
  String.ofList <|
    "\x7b\"version\":".toList ++ natText f.version.toNat ++ ",\"sources\":[".toList ++
      commas (f.sources.map fun s => Json.quote s.toList) ++ "],\"mappings\":\x7b".toList ++
      commas (f.mappings.entries.map mappingText) ++ "\x7d\x7d".toList

/-! ## Reading -/

/-- A number below a bound, spelled plainly. -/
def boundedNat? (bound : Nat) : Json → Option Nat
  | .number spelling => (Json.plainNat? spelling).filter (· < bound)
  | _ => none

def word? (j : Json) : Option UInt32 := (boundedNat? 0x100000000 j).map UInt32.ofNat

def version? (j : Json) : Option UInt8 := (boundedNat? 0x100 j).map UInt8.ofNat

def sources? : Json → Option (List String)
  | .array items => items.mapM fun
    | .string spelling => (Json.unescape? spelling).map String.ofList
    | _ => none
  | _ => none

/-- One mapping. The key must spell a plain number, without escapes. -/
def mapping? (key : List Char) : Json → Option Mapping
  | .array [file, line, colStart, colEnd] => do
    let offset ← (Json.plainNat? key).filter (· < 0x100000000)
    return ⟨UInt32.ofNat offset, ← word? file, ← word? line, ← word? colStart, ← word? colEnd⟩
  | _ => none

def mappings? : Json → Option MappingTable
  | .object members => do
    let entries ← members.mapM fun (key, j) => mapping? key j
    return .ofEntries entries
  | _ => none

/-- A file from its three parts. -/
def ofParts? (version sources mappings : Json) : Option MapFile := do
  return ⟨← version? version, ← sources? sources, ← mappings? mappings⟩

/-- The value of a member that is there exactly once. -/
def member? (key : String) (members : List (String × Json)) : Option Json :=
  match members.filter (·.1 == key) with
  | [(_, j)] => some j
  | _ => none

/-- The file that a JSON value stands for. Members that a file does not have are ignored. The
three parts in a row are a file too. -/
def ofJsonValue? : Json → Option MapFile
  | .object members => do
    let members ← members.mapM fun (key, j) => do
      return (String.ofList (← Json.unescape? key), j)
    ofParts? (← member? "version" members) (← member? "sources" members)
      (← member? "mappings" members)
  | .array [version, sources, mappings] => ofParts? version sources mappings
  | _ => none

/-- The file that a JSON text holds. -/
def ofJson? (text : String) : Option MapFile := (Json.parse? text.toList).bind ofJsonValue?

end MapFile

namespace SourceMap

/-- The map as JSON without blanks. -/
def toJson (m : SourceMap) : String := m.toFile.toJson

/-- The map that a JSON text holds. -/
def ofJson? (text : String) : Option SourceMap := (MapFile.ofJson? text).map MapFile.toMap

end SourceMap

end BytecodeCompiler
