import BytecodeCompiler.Code
import BytecodeCompiler.SourceMap

-- The state of writing one program: its code so far, its source map, the labels that are
-- known and the jumps that still wait for theirs. A jump to a known label is patched at
-- once. Any other jump is kept as a mark and patched when its label is defined.

namespace BytecodeCompiler

/-- A jump operand that waits for its label. -/
structure Mark where
  /-- The offset of the two bytes to patch. -/
  slot : Nat
  label : Ident
deriving DecidableEq, Inhabited

/-- A program that is being written. -/
structure Emission where
  code : Code
  map : SourceMap
  /-- The labels defined so far, the latest first. -/
  labels : List (Ident × UInt16)
  /-- The waiting jumps in the order they were written. -/
  marks : Array Mark
deriving Inhabited

namespace Emission

/-- Nothing written yet. -/
def empty : Emission := ⟨#[], .empty, [], #[]⟩

/-- The same code with nothing known about it. -/
def restart (e : Emission) : Emission := ⟨e.code, .empty, [], #[]⟩

/-- The offset of a label. -/
def labelOffset? (e : Emission) (name : Ident) : Option UInt16 := e.labels.lookup name

/-- Close a program: every jump must have found its label. -/
def finish (e : Emission) : Except Fault SourceMap :=
  if e.marks.isEmpty then .ok e.map
  else .error (.danglingMarks (e.marks.toList.map Mark.label))

end Emission

/-- What is left after the marks were gone through: the patched code, the marks that still
wait, and the slot that was not there, if one was not. -/
structure Settled where
  code : Code
  marks : List Mark
  missing : Option Nat

/-- Patch every mark whose label is known, in order, and keep the rest. A mark whose slot is
not there ends the round, and then it and all marks behind it stay. -/
def settle (labels : List (Ident × UInt16)) (code : Code) : List Mark → Settled
  | [] => ⟨code, [], none⟩
  | m :: ms =>
    match labels.lookup m.label with
    | none =>
      match settle labels code ms with
      | ⟨code, marks, missing⟩ => ⟨code, m :: marks, missing⟩
    | some target =>
      if code.hasSlot m.slot then settle labels (code.patch m.slot target) ms
      else ⟨code, m :: ms, some m.slot⟩

/-- A step that writes a program. -/
abbrev Emitter := EStateM Fault Emission

namespace Emitter

/-- Write to the code. -/
def write {α : Type} (step : Encoder α) : Emitter α
  | ⟨code, map, labels, marks⟩ =>
    match step code with
    | .ok a code => .ok a ⟨code, map, labels, marks⟩
    | .error fault code => .error fault ⟨code, map, labels, marks⟩

/-- The offset of the next byte. -/
def offset : Emitter Nat := write Encoder.offset

/-- Record where the bytes at an offset came from. Spans that point nowhere or into a file
that is not registered leave no trace. -/
def record (files : FileSet) (offset : Nat) (span : Span) : Emitter Unit
  | ⟨code, map, labels, marks⟩ =>
    if span.isValid then
      match files.name? span.file with
      | some name => .ok () ⟨code, (map.add offset span name).2, labels, marks⟩
      | none => .ok () ⟨code, map, labels, marks⟩
    else .ok () ⟨code, map, labels, marks⟩

/-- Record where the next bytes come from. -/
def here (files : FileSet) (span : Span) : Emitter Unit := do
  record files (← offset) span

/-- Ask for the two bytes at a slot to hold the offset of a label. The result tells whether
the label was known and the bytes were patched at once. -/
def mark (slot : Nat) (label : Ident) : Emitter Bool
  | ⟨code, map, labels, marks⟩ =>
    match labels.lookup label with
    | some target =>
      if code.hasSlot slot then .ok true ⟨code.patch slot target, map, labels, marks⟩
      else .error (.patchOutside slot) ⟨code, map, labels, marks⟩
    | none => .ok false ⟨code, map, labels, marks.push ⟨slot, label⟩⟩

/-- Define a label at an offset and patch the jumps that wait for it. -/
def label (offset : Nat) (name : Ident) : Emitter Unit
  | ⟨code, map, labels, marks⟩ =>
    if (labels.lookup name).isSome then
      .error (.duplicateLabel name) ⟨code, map, labels, marks⟩
    else if offset < 0x10000 then
      let labels := (name, UInt16.ofNat offset) :: labels
      match settle labels code marks.toList with
      | ⟨code, marks, none⟩ => .ok () ⟨code, map, labels, marks.toArray⟩
      | ⟨code, marks, some slot⟩ => .error (.patchOutside slot) ⟨code, map, labels, marks.toArray⟩
    else .error (.labelOutOfRange name offset) ⟨code, map, labels, marks⟩

end Emitter

end BytecodeCompiler
