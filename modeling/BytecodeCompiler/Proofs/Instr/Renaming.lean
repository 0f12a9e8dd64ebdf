import BytecodeCompiler.Proofs.Lower.Ledger

-- Other names for labels. A renaming gives every label of a program another name and every jump the
-- new name of its label. It touches nothing else, and the pieces of the renamed program are the
-- renamed pieces.

namespace BytecodeCompiler

open Piece (namesAll targetsAll)

namespace Instr

mutual

/-- The instruction with other names for its labels. -/
def rename (f : Ident → Ident) : Instr → Instr
  | .value v s => .value v s
  | .wrapped ty a s => .wrapped ty (a.rename f) s
  | .iterable ty is s => .iterable ty (renameAll f is) s
  | .set d ty a s => .set d ty (a.rename f) s
  | .typeAlias d ty s => .typeAlias d ty s
  | .mov a b s => .mov (a.rename f) (b.rename f) s
  | .unary op a s => .unary op (a.rename f) s
  | .binary op a b s => .binary op (a.rename f) (b.rename f) s
  | .collection op a b s => .collection op (a.rename f) (b.rename f) s
  | .indexGet a nilSafe b s => .indexGet (a.rename f) nilSafe (b.rename f) s
  | .indexSet a b c s => .indexSet (a.rename f) (b.rename f) (c.rename f) s
  | .length a s => .length (a.rename f) s
  | .attrGet name nilSafe a s => .attrGet name nilSafe (a.rename f) s
  | .attrSet nilSafe name a b s => .attrSet nilSafe name (a.rename f) (b.rename f) s
  | .cast ty a s => .cast ty (a.rename f) s
  | .call a b s => .call (a.rename f) (b.rename f) s
  | .ternary a b c s => .ternary (a.rename f) (b.rename f) (c.rename f) s
  | .compareJump a b l s => .compareJump (a.rename f) (b.rename f) (f l) s
  | .jump l s => .jump (f l) s
  | .label l s => .label (f l) s
  | .lambda signature is s => .lambda signature (renameAll f is) s
  | .block is s => .block (renameAll f is) s
  | .ret a s => .ret (a.rename f) s
  | .use mode package imports s => .use mode package imports s

def renameAll (f : Ident → Ident) : List Instr → List Instr
  | [] => []
  | i :: is => i.rename f :: renameAll f is

end

theorem renameAll_append (f : Ident → Ident) (is js : List Instr) :
    renameAll f (is ++ js) = renameAll f is ++ renameAll f js := by
  induction is with
  | nil => rfl
  | cons i is ih => simp only [List.cons_append, renameAll, ih]

@[simp]
theorem length_renameAll (f : Ident → Ident) (is : List Instr) :
    (renameAll f is).length = is.length := by
  induction is with
  | nil => rfl
  | cons i is ih => simp only [renameAll, List.length_cons, ih]

/-! ## The names that matter -/

mutual

theorem rename_id (i : Instr) : i.rename id = i := by
  cases i <;> simp only [rename, rename_id, renameAll_id, id_eq]

theorem renameAll_id (is : List Instr) : renameAll id is = is := by
  cases is with
  | nil => rfl
  | cons i is => rw [renameAll, rename_id i, renameAll_id is]

end

mutual

/-- Only the names of the labels and of the targets of jumps matter. -/
theorem rename_congr {f g : Ident → Ident} (i : Instr) (hnames : ∀ l ∈ namesAll i.layout, f l = g l)
    (htargets : ∀ l ∈ targetsAll i.layout, f l = g l) : i.rename f = i.rename g := by
  cases i with
  | value v s | typeAlias d ty s | use mode package imports s => rfl
  | wrapped ty a s | set d ty a s | unary op a s | length a s | cast ty a s | ret a s =>
    simp only [layout, Piece.opcode, Piece.declaration, Piece.bool, Piece.namesAll_append,
      Piece.targetsAll_append, namesAll, targetsAll, Piece.names, Piece.targets, List.nil_append]
      at hnames htargets
    rw [rename, rename, rename_congr a hnames htargets]
  | attrGet name nilSafe a s =>
    simp only [layout, Piece.opcode, Piece.bool, Piece.namesAll_append, Piece.targetsAll_append,
      namesAll, targetsAll, Piece.names, Piece.targets, List.nil_append, List.append_nil]
      at hnames htargets
    rw [rename, rename, rename_congr a hnames htargets]
  | mov a b s | binary op b a s | indexGet a nilSafe b s | attrSet nilSafe name a b s
  | call a b s =>
    simp only [layout, Piece.opcode, Piece.bool, Piece.namesAll_append, Piece.targetsAll_append,
      namesAll, targetsAll, Piece.names, Piece.targets, List.nil_append, List.forall_mem_append]
      at hnames htargets
    rw [rename, rename, rename_congr a hnames.1 htargets.1, rename_congr b hnames.2 htargets.2]
  | collection op a b s =>
    cases op <;>
    · simp only [layout, Piece.opcode, Piece.namesAll_append, Piece.targetsAll_append, namesAll,
        targetsAll, Piece.names, Piece.targets, List.nil_append, List.forall_mem_append]
        at hnames htargets
      rw [rename, rename, rename_congr a hnames.1 htargets.1, rename_congr b hnames.2 htargets.2]
  | indexSet a b c s | ternary c b a s =>
    simp only [layout, Piece.opcode, Piece.namesAll_append, Piece.targetsAll_append, namesAll,
      targetsAll, Piece.names, Piece.targets, List.nil_append, List.forall_mem_append]
      at hnames htargets
    rw [rename, rename, rename_congr a hnames.1.1 htargets.1.1,
      rename_congr b hnames.1.2 htargets.1.2, rename_congr c hnames.2 htargets.2]
  | compareJump a b l s =>
    simp only [layout, Piece.opcode, Piece.namesAll_append, Piece.targetsAll_append, namesAll,
      targetsAll, Piece.names, Piece.targets, List.nil_append, List.append_nil,
      List.forall_mem_append, List.forall_mem_singleton] at hnames htargets
    rw [rename, rename, rename_congr a hnames.1 htargets.1.1, rename_congr b hnames.2 htargets.1.2,
      htargets.2]
  | jump l s =>
    have hl : f l = g l := htargets l (by simp [layout, targetsAll, Piece.targets, Piece.opcode])
    rw [rename, rename, hl]
  | label l s => rw [rename, rename, hnames l (by simp [layout, namesAll, Piece.names])]
  | iterable ty is s =>
    simp only [layout, Piece.namesAll_append, Piece.targetsAll_append, namesAll, targetsAll,
      Piece.names, Piece.targets, List.nil_append] at hnames htargets
    rw [rename, rename, renameReversed_congr is hnames htargets]
  | lambda signature is s | block is s =>
    simp only [layout, Piece.opcode, namesAll, targetsAll, Piece.names, Piece.targets,
      List.nil_append, List.append_nil] at hnames htargets
    rw [rename, rename, renameAll_congr is hnames htargets]

theorem renameAll_congr {f g : Ident → Ident} (is : List Instr)
    (hnames : ∀ l ∈ namesAll (layoutAll is), f l = g l)
    (htargets : ∀ l ∈ targetsAll (layoutAll is), f l = g l) : renameAll f is = renameAll g is := by
  cases is with
  | nil => rfl
  | cons i is =>
    simp only [layoutAll, Piece.namesAll_append, Piece.targetsAll_append, List.forall_mem_append]
      at hnames htargets
    rw [renameAll, renameAll, rename_congr i hnames.1 htargets.1,
      renameAll_congr is hnames.2 htargets.2]

theorem renameReversed_congr {f g : Ident → Ident} (is : List Instr)
    (hnames : ∀ l ∈ namesAll (layoutReversed is), f l = g l)
    (htargets : ∀ l ∈ targetsAll (layoutReversed is), f l = g l) :
    renameAll f is = renameAll g is := by
  cases is with
  | nil => rfl
  | cons i is =>
    simp only [layoutReversed, Piece.namesAll_append, Piece.targetsAll_append,
      List.forall_mem_append] at hnames htargets
    rw [renameAll, renameAll, rename_congr i hnames.2 htargets.2,
      renameReversed_congr is hnames.1 htargets.1]

end

/-- What has neither a label nor a jump in it stays as it is. -/
theorem rename_of_isInert (f : Ident → Ident) {i : Instr} (h : i.isInert = true) :
    i.rename f = i := by
  have hnames : ∀ l ∈ namesAll i.layout, f l = id l := by simp [Piece.namesAll_of_data h]
  have htargets : ∀ l ∈ targetsAll i.layout, f l = id l := by simp [Piece.targetsAll_of_data h]
  rw [rename_congr i hnames htargets, rename_id]

end Instr

/-! ## Renamed pieces -/

namespace Piece

mutual

/-- The piece with other names for its labels. -/
def rename (f : Ident → Ident) : Piece → Piece
  | .target l => .target (f l)
  | .label name => .label (f name)
  | .frame inside => .frame (renameAll f inside)
  | p => p

def renameAll (f : Ident → Ident) : List Piece → List Piece
  | [] => []
  | p :: ps => p.rename f :: renameAll f ps

end

theorem renameAll_append (f : Ident → Ident) (ps qs : List Piece) :
    renameAll f (ps ++ qs) = renameAll f ps ++ renameAll f qs := by
  induction ps with
  | nil => rfl
  | cons p ps ih => simp only [List.cons_append, renameAll, ih]

theorem renameAll_idents (f : Ident → Ident) (is : List Ident) :
    renameAll f (is.map .ident) = is.map .ident := by
  induction is with
  | nil => rfl
  | cons i is ih => simp only [List.map_cons, renameAll, rename, ih]

end Piece

namespace Instr

mutual

/-- The pieces of a renamed instruction are the renamed pieces of the instruction. -/
theorem layout_rename (f : Ident → Ident) (i : Instr) :
    (i.rename f).layout = Piece.renameAll f i.layout := by
  cases i with
  | collection op a b s =>
    cases op <;>
    simp only [rename, layout, Piece.renameAll_append, Piece.renameAll, Piece.rename, Piece.opcode,
      layout_rename f a, layout_rename f b]
  | value | wrapped | iterable | set | typeAlias | mov | unary | binary | indexGet | indexSet
  | length | attrGet | attrSet | cast | call | ternary | compareJump | jump | label | lambda | block
  | ret | use =>
    simp only [rename, layout, Piece.renameAll_append, Piece.renameAll, Piece.rename, Piece.opcode,
      Piece.bool, Piece.declaration, Piece.renameAll_idents, length_renameAll, layout_rename f,
      layoutAll_renameAll f, layoutReversed_renameAll f]

theorem layoutAll_renameAll (f : Ident → Ident) (is : List Instr) :
    layoutAll (renameAll f is) = Piece.renameAll f (layoutAll is) := by
  cases is with
  | nil => rfl
  | cons i is =>
    rw [renameAll, layoutAll, layoutAll, Piece.renameAll_append, layout_rename f i,
      layoutAll_renameAll f is]

theorem layoutReversed_renameAll (f : Ident → Ident) (is : List Instr) :
    layoutReversed (renameAll f is) = Piece.renameAll f (layoutReversed is) := by
  cases is with
  | nil => rfl
  | cons i is =>
    rw [renameAll, layoutReversed, layoutReversed, Piece.renameAll_append, layout_rename f i,
      layoutReversed_renameAll f is]

end

end Instr

end BytecodeCompiler
