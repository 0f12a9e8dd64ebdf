import BytecodeCompiler.Proofs.Emission.Assembly

-- One pass is as good as two. What emission leaves is what the two-pass assembler writes, and it
-- refuses exactly the programs that do not fit.

namespace BytecodeCompiler

open Piece (bytesAll labelsAll namesAll targetsAll)

/-! ## Both tables say the same -/

/-- With distinct keys, a table finds each of its entries. -/
theorem lookup_of_mem {β : Type} {table : List (Ident × β)} (h : (table.map Prod.fst).Nodup)
    {l : Ident} {b : β} (hl : (l, b) ∈ table) : table.lookup l = some b := by
  induction table with
  | nil => cases hl
  | cons entry table ih =>
    obtain ⟨hnew, hrest⟩ := List.nodup_cons.mp h
    rcases List.mem_cons.mp hl with rfl | hmem
    · exact List.lookup_cons_self
    · have hne : (l == entry.1) = false := by
        rw [beq_eq_false_iff_ne]
        rintro rfl
        exact hnew (List.mem_map.mpr ⟨_, hmem, rfl⟩)
      rw [List.lookup_cons, hne]
      exact ih hrest hmem

theorem map_fst_tableOf (ps : List Piece) : (tableOf ps).map Prod.fst = (namesAll ps).reverse := by
  rw [tableOf, List.map_reverse, List.map_map, ← Piece.map_fst_labelsAll 0 ps]
  rfl

theorem filled_tableOf {ps : List Piece} (h : LabelsFit ps) {l : Ident} (hl : l ∈ namesAll ps) :
    filled (tableOf ps) l = offsetIn (labelsAll 0 ps) l := by
  have hfirst : ((labelsAll 0 ps).map Prod.fst).Nodup := Piece.map_fst_labelsAll 0 ps ▸ h.distinct
  have hsecond : ((tableOf ps).map Prod.fst).Nodup := by
    rw [map_fst_tableOf]
    exact List.nodup_reverse.mpr h.distinct
  rw [← Piece.map_fst_labelsAll 0 ps] at hl
  obtain ⟨⟨name, n⟩, hmem, rfl⟩ := List.mem_map.mp hl
  have hmem' : (name, UInt16.ofNat n) ∈ tableOf ps :=
    List.mem_reverse.mpr (List.mem_map.mpr ⟨_, hmem, rfl⟩)
  have hn : n < 0x10000 := h.inRange _ hmem
  rw [filled, offsetIn, lookup_of_mem hfirst hmem, lookup_of_mem hsecond hmem']
  exact UInt16.toNat_ofNat_of_lt' hn

/-! ## Whole programs -/

/-- Every label that a jump of the pieces names stands among them. -/
def Closed (ps : List Piece) : Prop := ∀ l ∈ targetsAll ps, l ∈ namesAll ps

theorem Holds.marks_eq_nil {ps : List Piece} {e : Emission} (h : Holds ps e) :
    e.marks.toList = [] ↔ Closed ps := by
  rw [h.marks, h.labels, waiting, List.filter_eq_nil_iff, Closed, ← Piece.map_label_slotsAll 0 ps]
  simp only [Option.isNone_iff_eq_none, lookup_tableOf_eq_none, not_not, List.forall_mem_map]

theorem Holds.finish_of_closed {ps : List Piece} {e : Emission} (h : Holds ps e)
    (hclosed : Closed ps) : e.finish = .ok e.map := by
  have hempty : e.marks.isEmpty = true := by simpa using h.marks_eq_nil.mpr hclosed
  rw [Emission.finish, if_pos hempty]

theorem Holds.finish_of_not_closed {ps : List Piece} {e : Emission} (h : Holds ps e)
    (hopen : ¬ Closed ps) :
    e.finish = .error (.danglingMarks (e.marks.toList.map Mark.label)) := by
  have hmarks : ¬ e.marks.isEmpty = true := fun hempty =>
    hopen (h.marks_eq_nil.mp (by simpa using hempty))
  rw [Emission.finish, if_neg hmarks]

theorem Holds.code_eq {ps : List Piece} {e : Emission} (h : Holds ps e) (hclosed : Closed ps) :
    e.code = (bytesAll (offsetIn (labelsAll 0 ps)) ps).toArray := by
  apply Array.ext'
  rw [h.code, h.labels]
  exact Piece.bytesAll_congr ps fun l hl => by rw [filled_tableOf h.fit (hclosed l hl)]

theorem emitBlock_eq_layout (files : FileSet) (body : List Instr) :
    Instr.emitBlock files body = (Instr.program body).emit files := by
  rw [Instr.emitBlock, Instr.emitAll_eq_layout]
  rfl

theorem fits_iff (body : List Instr) :
    TwoPass.Fits body ↔ ((Instr.program body).encodable = true ∧
      (Instr.program body).framed = true) ∧ LabelsFit [Instr.program body] ∧
      Closed [Instr.program body] := by
  have hnames : namesAll [Instr.program body] = (Instr.program body).names := List.append_nil _
  have htargets : targetsAll [Instr.program body] = (Instr.program body).targets :=
    List.append_nil _
  have hlabels : labelsAll 0 [Instr.program body] = TwoPass.table body := List.append_nil _
  constructor
  · rintro ⟨hencodable, hdistinct, hrange, hframed, hclosed⟩
    refine ⟨⟨hencodable, hframed⟩, ⟨by rwa [hnames], fun entry he => ?_⟩, ?_⟩
    · rw [hlabels] at he
      exact Nat.lt_succ_of_le (hrange entry he)
    · rwa [Closed, hnames, htargets]
  · rintro ⟨⟨hencodable, hframed⟩, ⟨hdistinct, hrange⟩, hclosed⟩
    rw [hlabels] at hrange
    rw [hnames] at hdistinct
    rw [Closed, hnames, htargets] at hclosed
    exact ⟨hencodable, hdistinct, fun entry he => Nat.le_of_lt_succ (hrange entry he), hframed,
      hclosed⟩

/-- A program that fits becomes the code of the two-pass assembler. -/
theorem assemble_of_fits (files : FileSet) {body : List Instr} (h : TwoPass.Fits body) :
    ∃ map, Instr.assemble files body = .ok (TwoPass.code body, map) := by
  obtain ⟨hwritten, hlabels, hclosed⟩ := (fits_iff body).mp h
  obtain ⟨e, hrun, hholds⟩ := (emits_piece files (Instr.program body)).ok holds_nil hwritten hlabels
  rw [← emitBlock_eq_layout] at hrun
  have hcode : e.code = TwoPass.code body := by
    rw [hholds.code_eq hclosed]
    simp only [List.nil_append, bytesAll, labelsAll, List.append_nil]
    rfl
  refine ⟨e.map, ?_⟩
  simp only [Instr.assemble, hrun, hholds.finish_of_closed hclosed, hcode, Except.map]

/-- A program that does not fit is refused, and the refusal has its reason. -/
theorem assemble_of_not_fits (files : FileSet) {body : List Instr} (h : ¬ TwoPass.Fits body) :
    ∃ fault, Instr.assemble files body = .error fault ∧
      (Blames [Instr.program body] fault ∨
        (∃ labels, fault = .danglingMarks labels) ∧ ¬ Closed [Instr.program body]) := by
  rw [fits_iff] at h
  have hemits := emits_piece files (Instr.program body)
  rw [← emitBlock_eq_layout] at hemits
  by_cases hwritten : ((Instr.program body).encodable = true ∧
      (Instr.program body).framed = true) ∧ LabelsFit [Instr.program body]
  · obtain ⟨e, hrun, hholds⟩ := hemits.ok holds_nil hwritten.1 hwritten.2
    have hopen : ¬ Closed [Instr.program body] := fun hclosed =>
      h ⟨hwritten.1, hwritten.2, hclosed⟩
    refine ⟨_, ?_, Or.inr ⟨⟨e.marks.toList.map Mark.label, rfl⟩, hopen⟩⟩
    simp only [Instr.assemble, hrun, hholds.finish_of_not_closed hopen, Except.map]
  · obtain ⟨fault, e, hrun, hblame⟩ := hemits.refused holds_nil hwritten
    refine ⟨fault, ?_, Or.inl hblame⟩
    simp only [Instr.assemble, hrun]

/-- Where the labels are distinct and the jumps lead to them, labels are never the reason of a
refusal. -/
theorem assemble_error_of_labels {files : FileSet} {body : List Instr}
    (hdistinct : (Instr.program body).names.Nodup)
    (hclosed : ∀ l ∈ (Instr.program body).targets, l ∈ (Instr.program body).names) {fault : Fault}
    (h : Instr.assemble files body = .error fault) :
    (∀ labels, fault ≠ .danglingMarks labels) ∧ ∀ label, fault ≠ .duplicateLabel label := by
  by_cases hfits : TwoPass.Fits body
  · obtain ⟨map, hok⟩ := assemble_of_fits files hfits
    rw [hok] at h
    cases h
  · obtain ⟨fault', herror, hreason⟩ := assemble_of_not_fits files hfits
    rw [herror, Except.error.injEq] at h
    subst h
    have hnames : namesAll [Instr.program body] = (Instr.program body).names := List.append_nil _
    have htargets : targetsAll [Instr.program body] = (Instr.program body).targets :=
      List.append_nil _
    rcases hreason with hblame | ⟨-, hopen⟩
    · constructor
      · rintro labels rfl
        exact hblame
      · rintro label rfl
        exact hblame (hnames ▸ hdistinct)
    · exact absurd (by rwa [Closed, hnames, htargets]) hopen

/-- A fault that the compiler breaks down with. It reports all others. -/
def Fault.isBreakdown : Fault → Bool
  | .patchOutside _ | .noSuchNode _ | .cyclicTree _ | .namesExhausted => true
  | _ => false

theorem Blames.not_breakdown {ps : List Piece} {fault : Fault} (h : Blames ps fault) :
    fault.isBreakdown = false := by
  cases fault with
  | patchOutside | noSuchNode | cyclicTree | namesExhausted => exact h.elim
  | _ => rfl

/-- Emission writes what the two-pass assembler writes. It refuses exactly the programs that do
not fit, and never breaks down. -/
theorem assemble_eq_twoPass (files : FileSet) (body : List Instr) :
    (TwoPass.Fits body → ∃ map, Instr.assemble files body = .ok (TwoPass.code body, map)) ∧
    (¬ TwoPass.Fits body →
      ∃ fault, Instr.assemble files body = .error fault ∧ fault.isBreakdown = false) := by
  constructor
  · exact assemble_of_fits files
  · intro h
    obtain ⟨fault, hrun, hblame | ⟨⟨labels, rfl⟩, -⟩⟩ := assemble_of_not_fits files h
    · exact ⟨fault, hrun, hblame.not_breakdown⟩
    · exact ⟨_, hrun, rfl⟩

/-- A block that jumps forward out of itself and back to the top of the program. -/
theorem assemble_eq_twoPass_nested :
    let body : List Instr := [.label (.byte 1) .none, .block [.jump (.byte 2) .none,
      .jump (.byte 1) .none] .none, .label (.byte 2) .none]
    TwoPass.Fits body ∧ ∃ map, Instr.assemble .empty body =
      .ok (#[13, 11, 0, 13, 7, 0, 20, 13, 0, 20, 3, 0, 14, 14], map) := by
  intro body
  have hfits : TwoPass.Fits body :=
    ⟨by decide, by decide, by decide, by decide, by decide⟩
  have hcode : TwoPass.code body = #[13, 11, 0, 13, 7, 0, 20, 13, 0, 20, 3, 0, 14, 14] := by decide
  rw [← hcode]
  exact ⟨hfits, (assemble_eq_twoPass .empty body).1 hfits⟩

end BytecodeCompiler
