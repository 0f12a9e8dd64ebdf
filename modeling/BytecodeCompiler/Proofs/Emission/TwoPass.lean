import BytecodeCompiler.Proofs.Emission.Layout

-- A two-pass assembler. The first pass adds up the sizes of the pieces, which gives every label
-- its offset before a byte is written. The second pass writes the pieces, with the offsets in
-- the jumps and the lengths in the blocks.

namespace BytecodeCompiler

namespace Piece

/-! ## The first pass -/

mutual

/-- How many bytes a piece takes. It does not matter where the labels are. -/
def size : Piece → Nat
  | .place _ => 0
  | .byte _ => 1
  | .ident i => i.bytes.length
  | .ty t => t.bytes.length
  | .value v => v.bytes.length
  | .count _ => 1
  | .target _ => 2
  | .label _ => 0
  | .frame inside => 1 + 2 + sizeAll inside + 1

def sizeAll : List Piece → Nat
  | [] => 0
  | p :: ps => p.size + sizeAll ps

end

mutual

/-- The labels of a piece, with their offsets when the piece starts at the given one. -/
def labels (start : Nat) : Piece → List (Ident × Nat)
  | .label name => [(name, start)]
  | .frame inside => labelsAll (start + 3) inside
  | _ => []

def labelsAll (start : Nat) : List Piece → List (Ident × Nat)
  | [] => []
  | p :: ps => p.labels start ++ labelsAll (start + p.size) ps

end

/-! ## The second pass -/

mutual

/-- The bytes of a piece, with the offsets of the labels filled in. -/
def bytes (offset : Ident → Nat) : Piece → List UInt8
  | .place _ => []
  | .byte b => [b]
  | .ident i => i.bytes
  | .ty t => t.bytes
  | .value v => v.bytes
  | .count n => [UInt8.ofNat n]
  | .target l => leBytes 2 (offset l)
  | .label _ => []
  | .frame inside =>
    Opcode.blockBegin.byte ::
      (leBytes 2 (sizeAll inside + 1) ++ (bytesAll offset inside ++ [Opcode.blockEnd.byte]))

def bytesAll (offset : Ident → Nat) : List Piece → List UInt8
  | [] => []
  | p :: ps => p.bytes offset ++ bytesAll offset ps

end

/-! ## What can be assembled -/

mutual

/-- Whether all that is written can be written. -/
def encodable : Piece → Bool
  | .ident i => i.encodable
  | .ty t => t.encodable
  | .value v => v.encodable
  | .count n => n < 0x100
  | .frame inside => encodableAll inside
  | _ => true

def encodableAll : List Piece → Bool
  | [] => true
  | p :: ps => p.encodable && encodableAll ps

end

mutual

/-- Whether every block fits its two bytes of length. -/
def framed : Piece → Bool
  | .frame inside => sizeAll inside + 1 < 0x10000 && framedAll inside
  | _ => true

def framedAll : List Piece → Bool
  | [] => true
  | p :: ps => p.framed && framedAll ps

end

mutual

/-- The labels that jumps name. -/
def targets : Piece → List Ident
  | .target l => [l]
  | .frame inside => targetsAll inside
  | _ => []

def targetsAll : List Piece → List Ident
  | [] => []
  | p :: ps => p.targets ++ targetsAll ps

end

mutual

/-- The labels that stand in a piece. -/
def names : Piece → List Ident
  | .label name => [name]
  | .frame inside => namesAll inside
  | _ => []

def namesAll : List Piece → List Ident
  | [] => []
  | p :: ps => p.names ++ namesAll ps

end

/-! ## Rows of pieces -/

theorem sizeAll_append (ps qs : List Piece) : sizeAll (ps ++ qs) = sizeAll ps + sizeAll qs := by
  induction ps with
  | nil => simp only [List.nil_append, sizeAll, Nat.zero_add]
  | cons p ps ih => simp only [List.cons_append, sizeAll, ih, Nat.add_assoc]

theorem labelsAll_append (start : Nat) (ps qs : List Piece) :
    labelsAll start (ps ++ qs) = labelsAll start ps ++ labelsAll (start + sizeAll ps) qs := by
  induction ps generalizing start with
  | nil => simp only [List.nil_append, labelsAll, sizeAll, Nat.add_zero]
  | cons p ps ih =>
    simp only [List.cons_append, labelsAll, sizeAll, ih, List.append_assoc, Nat.add_assoc]

theorem bytesAll_append (offset : Ident → Nat) (ps qs : List Piece) :
    bytesAll offset (ps ++ qs) = bytesAll offset ps ++ bytesAll offset qs := by
  induction ps with
  | nil => simp only [List.nil_append, bytesAll]
  | cons p ps ih => simp only [List.cons_append, bytesAll, ih, List.append_assoc]

theorem namesAll_append (ps qs : List Piece) :
    namesAll (ps ++ qs) = namesAll ps ++ namesAll qs := by
  induction ps with
  | nil => simp only [List.nil_append, namesAll]
  | cons p ps ih => simp only [List.cons_append, namesAll, ih, List.append_assoc]

theorem targetsAll_append (ps qs : List Piece) :
    targetsAll (ps ++ qs) = targetsAll ps ++ targetsAll qs := by
  induction ps with
  | nil => simp only [List.nil_append, targetsAll]
  | cons p ps ih => simp only [List.cons_append, targetsAll, ih, List.append_assoc]

theorem encodableAll_append (ps qs : List Piece) :
    encodableAll (ps ++ qs) = (encodableAll ps && encodableAll qs) := by
  induction ps with
  | nil => simp only [List.nil_append, encodableAll, Bool.true_and]
  | cons p ps ih => simp only [List.cons_append, encodableAll, ih, Bool.and_assoc]

theorem framedAll_append (ps qs : List Piece) :
    framedAll (ps ++ qs) = (framedAll ps && framedAll qs) := by
  induction ps with
  | nil => simp only [List.nil_append, framedAll, Bool.true_and]
  | cons p ps ih => simp only [List.cons_append, framedAll, ih, Bool.and_assoc]

/-! ## Pieces that are only data -/

/-- Whether a piece is no label, no block and no target of a jump. -/
def isData : Piece → Bool
  | .label _ | .frame _ | .target _ => false
  | _ => true

theorem targetsAll_of_data {ps : List Piece} (h : ps.all isData = true) : targetsAll ps = [] := by
  induction ps with
  | nil => rfl
  | cons p ps ih =>
    simp only [List.all_cons, Bool.and_eq_true] at h
    have hnone : p.targets = [] := by
      cases p with
      | label | frame | target => cases h.1
      | _ => rfl
    rw [targetsAll, hnone, ih h.2, List.nil_append]

theorem namesAll_of_data {ps : List Piece} (h : ps.all isData = true) : namesAll ps = [] := by
  induction ps with
  | nil => rfl
  | cons p ps ih =>
    simp only [List.all_cons, Bool.and_eq_true] at h
    have hnone : p.names = [] := by
      cases p with
      | label | frame | target => cases h.1
      | _ => rfl
    rw [namesAll, hnone, ih h.2, List.nil_append]

/-! ## The passes agree -/

mutual

/-- The second pass writes as many bytes as the first one counted, whatever the offsets are. -/
theorem length_bytes (offset : Ident → Nat) (p : Piece) : (p.bytes offset).length = p.size := by
  cases p with
  | frame inside =>
    simp only [bytes, size, List.length_cons, List.length_append, length_leBytes, List.length_nil,
      length_bytesAll offset inside]
    omega
  | place | byte | ident | ty | value | count | target | label =>
    simp only [bytes, size, List.length_cons, List.length_nil, length_leBytes]

theorem length_bytesAll (offset : Ident → Nat) (ps : List Piece) :
    (bytesAll offset ps).length = sizeAll ps := by
  cases ps with
  | nil => rfl
  | cons p ps =>
    simp only [bytesAll, sizeAll, List.length_append, length_bytes offset p,
      length_bytesAll offset ps]

end

mutual

theorem map_fst_labels (start : Nat) (p : Piece) : (p.labels start).map Prod.fst = p.names := by
  cases p with
  | frame inside => simpa only [labels, names] using map_fst_labelsAll (start + 3) inside
  | place | byte | ident | ty | value | count | target | label => rfl

/-- The first pass finds every label, in the order of the code. -/
theorem map_fst_labelsAll (start : Nat) (ps : List Piece) :
    (labelsAll start ps).map Prod.fst = namesAll ps := by
  cases ps with
  | nil => rfl
  | cons p ps =>
    simp only [labelsAll, namesAll, List.map_append, map_fst_labels start p,
      map_fst_labelsAll (start + p.size) ps]

end

mutual

/-- Only the offsets of the labels that jumps name matter to the bytes. -/
theorem bytes_congr {f g : Ident → Nat} (p : Piece)
    (h : ∀ l ∈ p.targets, leBytes 2 (f l) = leBytes 2 (g l)) : p.bytes f = p.bytes g := by
  cases p with
  | target l => exact h l (by simp only [targets, List.mem_singleton])
  | frame inside => simp only [bytes, bytesAll_congr inside h]
  | place | byte | ident | ty | value | count | label => rfl

theorem bytesAll_congr {f g : Ident → Nat} (ps : List Piece)
    (h : ∀ l ∈ targetsAll ps, leBytes 2 (f l) = leBytes 2 (g l)) :
    bytesAll f ps = bytesAll g ps := by
  cases ps with
  | nil => rfl
  | cons p ps =>
    simp only [targetsAll, List.mem_append] at h
    simp only [bytesAll, bytes_congr p fun l hl => h l (Or.inl hl),
      bytesAll_congr ps fun l hl => h l (Or.inr hl)]

end

end Piece

/-- The offset of a label in a table, and zero for a label that the table does not have. -/
def offsetIn (table : List (Ident × Nat)) (label : Ident) : Nat := (table.lookup label).getD 0

namespace TwoPass

/-- The first pass: every label of a program with its offset. -/
def table (body : List Instr) : List (Ident × Nat) := (Instr.program body).labels 0

/-- The second pass: the bytes of a program. -/
def code (body : List Instr) : Code :=
  ((Instr.program body).bytes (offsetIn (table body))).toArray

/-- A program that can be assembled. -/
structure Fits (body : List Instr) : Prop where
  /-- Every identifier, type, value and count that is written can be written. -/
  encodable : (Instr.program body).encodable = true
  /-- No label stands twice. -/
  distinct : (Instr.program body).names.Nodup
  /-- Every label stands where two bytes can point. -/
  inRange : ∀ entry ∈ table body, entry.2 ≤ 65535
  /-- Every block fits its two bytes of length. -/
  framed : (Instr.program body).framed = true
  /-- Every label that a jump names stands somewhere. -/
  closed : ∀ label ∈ (Instr.program body).targets, label ∈ (Instr.program body).names

end TwoPass

end BytecodeCompiler
