import BytecodeCompiler.Span

-- Source maps: which place in which file the bytes at an offset came from. Offsets are
-- recorded in ascending order, and the first entry for an offset is the one that counts.

namespace BytecodeCompiler

/-- One entry of a source map. The file is an index into the map's sources. -/
structure Mapping where
  offset : UInt32
  file : UInt32
  line : UInt32
  colStart : UInt32
  colEnd : UInt32
deriving DecidableEq, Inhabited

/-- The source map of one program. -/
structure SourceMap where
  version : UInt8
  sources : Array String
  mappings : Array Mapping
deriving DecidableEq, Inhabited

/-- The last place of a name in a list. -/
def lastIndex? (name : String) : List String → Option Nat
  | [] => none
  | n :: ns =>
    match lastIndex? name ns with
    | some i => some (i + 1)
    | none => if n = name then some 0 else none

/-- The first number from `lo` up to `hi` where the test fails, if the numbers that pass come
before those that fail. -/
def partitionPoint (test : Nat → Bool) (lo hi : Nat) : Nat :=
  if lo < hi then
    let mid := lo + (hi - lo) / 2
    if test mid then partitionPoint test (mid + 1) hi else partitionPoint test lo mid
  else lo
termination_by hi - lo

namespace SourceMap

def currentVersion : UInt8 := 1

def empty : SourceMap := ⟨currentVersion, #[], #[]⟩

def size (m : SourceMap) : Nat := m.mappings.size

/-! ## Recording -/

/-- The index of a source, which is added when it is new. -/
def source : SourceMap → String → UInt32 × SourceMap
  | ⟨version, sources, mappings⟩, name =>
    match lastIndex? name sources.toList with
    | some i => (UInt32.ofNat i, ⟨version, sources, mappings⟩)
    | none => (UInt32.ofNat sources.size, ⟨version, sources.push name, mappings⟩)

/-- Whether the last recorded offset is before this one. -/
def accepts (m : SourceMap) (offset : UInt32) : Bool :=
  match m.mappings.back? with
  | some last => last.offset < offset
  | none => true

/-- Record an entry at the end. -/
def push : SourceMap → Mapping → SourceMap
  | ⟨version, sources, mappings⟩, entry => ⟨version, sources, mappings.push entry⟩

/-- Record that the bytes at an offset come from a span of a file. A span that points nowhere
and an offset that is not after all recorded ones change nothing. The result tells whether an
entry was added. -/
def add (m : SourceMap) (offset : Nat) (span : Span) (file : String) : Bool × SourceMap :=
  let at32 := UInt32.ofNat offset
  if span.isValid && m.accepts at32 then
    let (index, m) := m.source file
    (true, m.push ⟨at32, index, span.line, span.col, span.colEnd⟩)
  else (false, m)

/-! ## Queries -/

/-- The offset of an entry. -/
def offsetAt (m : SourceMap) (i : Nat) : UInt32 :=
  match m.mappings[i]? with
  | some entry => entry.offset
  | none => 0

/-- The entry that covers an offset: the last one at or before it. -/
def lookup? (m : SourceMap) (offset : Nat) : Option Mapping :=
  let q := UInt32.ofNat offset
  let i := partitionPoint (fun i => m.offsetAt i ≤ q) 0 m.size
  if i = 0 then none else m.mappings[i - 1]?

/-- The entry at exactly an offset. -/
def get? (m : SourceMap) (offset : Nat) : Option Mapping :=
  let q := UInt32.ofNat offset
  let i := partitionPoint (fun i => m.offsetAt i < q) 0 m.size
  (m.mappings[i]?).filter (·.offset == q)

end SourceMap

end BytecodeCompiler
