import BytecodeCompiler.Proofs.Emission.Walk

-- A flat program comes back from its code. The walk ends where the code ends and finds the tree
-- that was written, every length is right, and every jump leads to a place the walk came by.

namespace BytecodeCompiler

open Piece (bytesAll encodableAll labelsAll sizeAll targetsAll)

namespace Instr

/-! ## Flat programs -/

/-- An instruction without blocks, all of whose operands can be read back. -/
def isPlain : Instr → Bool
  | .set _ _ a _ | .unary _ a _ | .length a _ | .attrGet _ _ a _ | .cast _ a _ | .ret a _ =>
    a.isOperand
  | .mov a b _ | .binary _ a b _ | .collection _ a b _ | .indexGet a _ b _ | .attrSet _ _ a b _
  | .call a b _ | .compareJump a b _ _ => a.isOperand && b.isOperand
  | .indexSet a b c _ | .ternary a b c _ => a.isOperand && b.isOperand && c.isOperand
  | .typeAlias .. | .jump .. | .use .. => true
  | .value .. | .wrapped .. | .iterable .. | .label .. | .lambda .. | .block .. => false

mutual

/-- A statement whose operands hold no statements. -/
def isFlat : Instr → Bool
  | .label _ _ => true
  | .lambda _ body _ => areFlat body
  | .block body _ => areFlat body
  | i => i.isPlain

def areFlat : List Instr → Bool
  | [] => true
  | i :: is => i.isFlat && areFlat is

end

/-! ## What comes back -/

/-- What a label becomes in a jump that comes back. -/
def jumpTo (offset : Ident → Nat) (label : Ident) : Ident := .short (UInt16.ofNat (offset label))

/-- An instruction without blocks as it comes back: with offsets for labels, and with two operands
in every operation. -/
def recoveredPlain (offset : Ident → Nat) : Instr → Instr
  | .set decl ty expr _ => .set decl ty expr.recoveredOperand .none
  | .typeAlias decl ty _ => .typeAlias decl ty .none
  | .mov dest v _ => .mov dest.recoveredOperand v.recoveredOperand .none
  | .unary op operand _ => .binary op operand.recoveredOperand (.value .nil .none) .none
  | .binary op left right _ => .binary op left.recoveredOperand right.recoveredOperand .none
  | .collection op left right _ =>
    .collection op left.recoveredOperand right.recoveredOperand .none
  | .indexGet index nilSafe object _ =>
    .indexGet index.recoveredOperand nilSafe object.recoveredOperand .none
  | .indexSet index object v _ =>
    .indexSet index.recoveredOperand object.recoveredOperand v.recoveredOperand .none
  | .length expr _ => .length expr.recoveredOperand .none
  | .attrGet name nilSafe object _ => .attrGet name nilSafe object.recoveredOperand .none
  | .attrSet nilSafe name object v _ =>
    .attrSet nilSafe name object.recoveredOperand v.recoveredOperand .none
  | .cast ty expr _ => .cast ty expr.recoveredOperand .none
  | .call callee arguments _ => .call callee.recoveredOperand arguments.recoveredOperand .none
  | .ternary cond ifTrue ifFalse _ =>
    .ternary cond.recoveredOperand ifTrue.recoveredOperand ifFalse.recoveredOperand .none
  | .compareJump expr expected l _ =>
    .compareJump expr.recoveredOperand expected.recoveredOperand (jumpTo offset l) .none
  | .jump l _ => .jump (jumpTo offset l) .none
  | .ret expr _ => .ret expr.recoveredOperand .none
  | .use mode package imports _ => .use mode package imports .none
  | i => i

mutual

/-- A statement as it comes back. Of a label nothing is left. -/
def recovered (offset : Ident → Nat) : Instr → List Instr
  | .label _ _ => []
  | .lambda signature body _ => [.lambda signature (recoveredAll offset body) .none]
  | .block body _ => [.block (recoveredAll offset body) .none]
  | i => [i.recoveredPlain offset]

def recoveredAll (offset : Ident → Nat) : List Instr → List Instr
  | [] => []
  | i :: is => i.recovered offset ++ recoveredAll offset is

end

mutual

/-- Where the walk notes the begin of something, in a statement that starts at the given offset. -/
def boundaries (start : Nat) : Instr → List Nat
  | .label _ _ => []
  | .lambda signature body _ =>
    start :: boundariesAll (start + 1 + signature.toTy.bytes.length + 3) body
  | .block body _ => start :: boundariesAll (start + 3) body
  | _ => [start]

/-- The same for the row of a block. The end of the block is one of the places. -/
def boundariesAll (start : Nat) : List Instr → List Nat
  | [] => [start]
  | i :: is => i.boundaries start ++ boundariesAll (start + sizeAll i.layout) is

end

end Instr

namespace Piece

mutual

/-- The blocks in a piece that starts at the given offset. -/
def frames (start : Nat) : Piece → List Frame
  | .frame inside =>
    ⟨start + 3, sizeAll inside + 1, start + 3 + (sizeAll inside + 1)⟩ ::
      framesAll (start + 3) inside
  | _ => []

def framesAll (start : Nat) : List Piece → List Frame
  | [] => []
  | p :: ps => p.frames start ++ framesAll (start + p.size) ps

end

theorem framesAll_append (start : Nat) (ps qs : List Piece) :
    framesAll start (ps ++ qs) = framesAll start ps ++ framesAll (start + sizeAll ps) qs := by
  induction ps generalizing start with
  | nil => simp only [List.nil_append, framesAll, sizeAll, Nat.add_zero]
  | cons p ps ih =>
    simp only [List.cons_append, framesAll, sizeAll, ih, List.append_assoc, Nat.add_assoc]

/-- Whether a piece is no label and no block. -/
def isSimple : Piece → Bool
  | .label _ | .frame _ => false
  | _ => true

theorem labelsAll_of_simple (start : Nat) {ps : List Piece} (h : ps.all isSimple = true) :
    labelsAll start ps = [] := by
  induction ps generalizing start with
  | nil => rfl
  | cons p ps ih =>
    simp only [List.all_cons, Bool.and_eq_true] at h
    have hnone : p.labels start = [] := by
      cases p with
      | label | frame => cases h.1
      | _ => rfl
    rw [labelsAll, hnone, ih _ h.2, List.nil_append]

theorem framesAll_of_simple (start : Nat) {ps : List Piece} (h : ps.all isSimple = true) :
    framesAll start ps = [] := by
  induction ps generalizing start with
  | nil => rfl
  | cons p ps ih =>
    simp only [List.all_cons, Bool.and_eq_true] at h
    have hnone : p.frames start = [] := by
      cases p with
      | label | frame => cases h.1
      | _ => rfl
    rw [framesAll, hnone, ih _ h.2, List.nil_append]

theorem isSimple_of_isData {p : Piece} (h : p.isData = true) : p.isSimple = true := by
  cases p with
  | label | frame => cases h
  | _ => rfl

end Piece

namespace Instr

/-! ## Operands hold neither labels nor jumps -/

mutual

theorem data_of_isOperand (i : Instr) (h : i.isOperand = true) :
    i.layout.all Piece.isData = true := by
  cases i with
  | value v span => rfl
  | iterable t members span =>
    simp only [isOperand, Bool.and_eq_true] at h
    simp [layout, Piece.isData, data_of_areOperands members h.2]
  | _ => cases h

theorem data_of_areOperands (is : List Instr) (h : areOperands is = true) :
    (layoutReversed is).all Piece.isData = true := by
  cases is with
  | nil => rfl
  | cons i is =>
    simp only [areOperands, Bool.and_eq_true] at h
    simp only [layoutReversed, List.all_append, data_of_areOperands is h.2,
      data_of_isOperand i h.1, Bool.and_self]

end

theorem targetsAll_of_isOperand {i : Instr} (h : i.isOperand = true) : targetsAll i.layout = [] :=
  Piece.targetsAll_of_data (data_of_isOperand i h)

theorem simple_of_isOperand {i : Instr} (h : i.isOperand = true) :
    i.layout.all Piece.isSimple = true := by
  have hdata := data_of_isOperand i h
  rw [List.all_eq_true] at hdata ⊢
  exact fun p hp => Piece.isSimple_of_isData (hdata p hp)

theorem areOperands_iff (is : List Instr) :
    areOperands is = true ↔ ∀ i ∈ is, i.isOperand = true := by
  induction is with
  | nil => simp [areOperands]
  | cons i is ih => simp [areOperands, ih]

mutual

theorem isOperand_asOperand (v : Value) : v.asOperand.isOperand = true := by
  cases v with
  | tuple vs | struct fs vs | array elem vs =>
    simp only [Value.asOperand, isOperand, Ty.isContainer, areOperands_asOperands vs, Bool.and_self]
  | spread inner => simpa only [Value.asOperand] using isOperand_asOperand inner
  | _ => rfl

theorem areOperands_asOperands (vs : List Value) : areOperands (Value.asOperands vs) = true := by
  cases vs with
  | nil => rfl
  | cons v vs =>
    simp only [Value.asOperands, areOperands, isOperand_asOperand v, areOperands_asOperands vs,
      Bool.and_self]

end

mutual

theorem isOperand_recovered (i : Instr) (h : i.isOperand = true) :
    i.recoveredOperand.isOperand = true := by
  cases i with
  | value v span => exact isOperand_asOperand v
  | iterable t members span =>
    simp only [isOperand, Bool.and_eq_true] at h
    have hmembers := (areOperands_iff _).mp (areOperands_recovered members h.2)
    simp only [recoveredOperand, isOperand, Bool.and_eq_true, areOperands_iff, List.mem_reverse]
    exact ⟨h.1, hmembers⟩
  | _ => cases h

theorem areOperands_recovered (is : List Instr) (h : areOperands is = true) :
    areOperands (recoveredOperands is) = true := by
  cases is with
  | nil => rfl
  | cons i is =>
    simp only [areOperands, Bool.and_eq_true] at h
    simp only [recoveredOperands, areOperands, Bool.and_eq_true]
    exact ⟨isOperand_recovered i h.1, areOperands_recovered is h.2⟩

end

/-! ## Plain instructions -/

theorem simple_of_isPlain {i : Instr} (h : i.isPlain = true) :
    i.layout.all Piece.isSimple = true := by
  cases i with
  | set _ _ a _ | unary _ a _ | length a _ | attrGet _ _ a _ | cast _ a _ | ret a _ =>
    simp [layout, Piece.opcode, Piece.bool, Piece.declaration, Piece.isSimple,
      simple_of_isOperand (i := a) h]
  | mov a b _ | binary _ a b _ | indexGet a _ b _ | attrSet _ _ a b _ | call a b _
  | compareJump a b _ _ =>
    simp only [isPlain, Bool.and_eq_true] at h
    simp [layout, Piece.opcode, Piece.bool, Piece.isSimple, simple_of_isOperand h.1,
      simple_of_isOperand h.2]
  | collection op a b _ =>
    simp only [isPlain, Bool.and_eq_true] at h
    cases op <;>
    simp [layout, Piece.opcode, Piece.isSimple, simple_of_isOperand h.1, simple_of_isOperand h.2]
  | indexSet a b c _ | ternary a b c _ =>
    simp only [isPlain, Bool.and_eq_true] at h
    simp [layout, Piece.opcode, Piece.isSimple, simple_of_isOperand h.1.1,
      simple_of_isOperand h.1.2, simple_of_isOperand h.2]
  | typeAlias | jump | use =>
    simp [layout, Piece.opcode, Piece.bool, Piece.declaration, Piece.isSimple]
  | value | wrapped | iterable | label | lambda | block => cases h

theorem targetsAll_recoveredPlain (offset : Ident → Nat) {i : Instr} (h : i.isPlain = true) :
    targetsAll (i.recoveredPlain offset).layout = (targetsAll i.layout).map (jumpTo offset) := by
  have hback : ∀ {j : Instr}, j.isOperand = true → targetsAll j.recoveredOperand.layout = [] :=
    fun {j} hj => targetsAll_of_isOperand (isOperand_recovered j hj)
  cases i with
  | set _ _ a _ | unary _ a _ | length a _ | attrGet _ _ a _ | cast _ a _ | ret a _ =>
    simp [recoveredPlain, layout, Piece.opcode, Piece.bool, Piece.declaration,
      Piece.targetsAll_append, targetsAll, Piece.targets, targetsAll_of_isOperand (i := a) h,
      hback (j := a) h]
  | mov a b _ | binary _ a b _ | indexGet a _ b _ | attrSet _ _ a b _ | call a b _
  | compareJump a b _ _ =>
    simp only [isPlain, Bool.and_eq_true] at h
    simp [recoveredPlain, layout, Piece.opcode, Piece.bool, Piece.targetsAll_append, targetsAll,
      Piece.targets, targetsAll_of_isOperand h.1, targetsAll_of_isOperand h.2, hback h.1, hback h.2]
  | collection op a b _ =>
    simp only [isPlain, Bool.and_eq_true] at h
    cases op <;>
    simp [recoveredPlain, layout, Piece.opcode, Piece.targetsAll_append, targetsAll, Piece.targets,
      targetsAll_of_isOperand h.1, targetsAll_of_isOperand h.2, hback h.1, hback h.2]
  | indexSet a b c _ | ternary a b c _ =>
    simp only [isPlain, Bool.and_eq_true] at h
    simp [recoveredPlain, layout, Piece.opcode, Piece.targetsAll_append, targetsAll, Piece.targets,
      targetsAll_of_isOperand h.1.1, targetsAll_of_isOperand h.1.2, targetsAll_of_isOperand h.2,
      hback h.1.1, hback h.1.2, hback h.2]
  | typeAlias | jump =>
    simp [recoveredPlain, layout, Piece.opcode, Piece.bool, Piece.declaration, targetsAll,
      Piece.targets]
  | use mode package imports span =>
    have himports : targetsAll (imports.map Piece.ident) = [] :=
      Piece.targetsAll_of_data (by simp [Piece.isData])
    simp [recoveredPlain, layout, Piece.opcode, targetsAll, Piece.targets, himports]
  | value | wrapped | iterable | label | lambda | block => cases h

mutual

theorem targetsAll_recovered (offset : Ident → Nat) (i : Instr) (h : i.isFlat = true) :
    targetsAll (layoutAll (i.recovered offset)) = (targetsAll i.layout).map (jumpTo offset) := by
  cases i with
  | label name span => rfl
  | lambda s body span =>
    have hbody := targetsAll_recoveredAll offset body h
    simpa [recovered, layoutAll, layout, Piece.opcode, targetsAll, Piece.targets] using hbody
  | block body span =>
    have hbody := targetsAll_recoveredAll offset body h
    simpa [recovered, layoutAll, layout, targetsAll, Piece.targets] using hbody
  | _ =>
    simp only [recovered, layoutAll, List.append_nil]
    exact targetsAll_recoveredPlain offset h

/-- The jumps that come back are the jumps that were written, with offsets for labels. -/
theorem targetsAll_recoveredAll (offset : Ident → Nat) (is : List Instr) (h : areFlat is = true) :
    targetsAll (layoutAll (recoveredAll offset is)) =
      (targetsAll (layoutAll is)).map (jumpTo offset) := by
  cases is with
  | nil => rfl
  | cons i is =>
    simp only [areFlat, Bool.and_eq_true] at h
    simp only [recoveredAll, layoutAll, layoutAll_append, Piece.targetsAll_append, List.map_append,
      targetsAll_recovered offset i h.1, targetsAll_recoveredAll offset is h.2]

end

/-! ## Labels stand at boundaries -/

theorem start_mem_boundariesAll (start : Nat) (is : List Instr) :
    start ∈ boundariesAll start is := by
  induction is generalizing start with
  | nil => exact List.mem_singleton_self start
  | cons i is ih =>
    cases i with
    | label name span => exact ih start
    | _ => exact List.mem_append_left _ List.mem_cons_self

mutual

theorem mem_boundaries (start : Nat) (i : Instr) (h : i.isFlat = true) :
    ∀ entry ∈ labelsAll start i.layout,
      entry.2 ∈ i.boundaries start ∨ entry.2 = start + sizeAll i.layout := by
  cases i with
  | label name span => simp [layout, labelsAll, Piece.labels, sizeAll, Piece.size]
  | lambda s body span =>
    have hbody := mem_boundariesAll (start + 1 + s.toTy.bytes.length + 3) body h
    intro entry hentry
    simp only [layout, Piece.opcode, labelsAll, Piece.labels, Piece.size, List.nil_append,
      List.append_nil, Nat.add_zero] at hentry
    exact Or.inl (List.mem_cons_of_mem _ (hbody entry hentry))
  | block body span =>
    have hbody := mem_boundariesAll (start + 3) body h
    intro entry hentry
    simp only [layout, labelsAll, Piece.labels, Piece.size, List.nil_append, List.append_nil,
      Nat.add_zero] at hentry
    exact Or.inl (List.mem_cons_of_mem _ (hbody entry hentry))
  | _ =>
    rw [Piece.labelsAll_of_simple]
    · exact fun _ hentry => nomatch hentry
    · exact simple_of_isPlain h

/-- A label stands where the walk notes the begin of an instruction or the end of a block. -/
theorem mem_boundariesAll (start : Nat) (is : List Instr) (h : areFlat is = true) :
    ∀ entry ∈ labelsAll start (layoutAll is), entry.2 ∈ boundariesAll start is := by
  cases is with
  | nil => simp [layoutAll, labelsAll]
  | cons i is =>
    simp only [areFlat, Bool.and_eq_true] at h
    intro entry hentry
    simp only [layoutAll, Piece.labelsAll_append, List.mem_append] at hentry
    simp only [boundariesAll, List.mem_append]
    rcases hentry with hfirst | hrest
    · rcases mem_boundaries start i h.1 entry hfirst with hmem | hend
      · exact Or.inl hmem
      · exact Or.inr (hend ▸ start_mem_boundariesAll _ is)
    · exact Or.inr (mem_boundariesAll _ is h.2 entry hrest)

end

end Instr

end BytecodeCompiler
