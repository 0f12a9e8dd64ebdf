import BytecodeCompiler.Proofs.Emission.OnePass
import BytecodeCompiler.Proofs.Instr.Renaming

-- Emission does not look at the names of labels, only at which of them are the same. If every label
-- gets another name, and different labels get different names, then the same bytes are written and
-- the same places are recorded. What differs are the names of the labels, in the state and in
-- faults.

namespace BytecodeCompiler

open Function (Injective)

/-- The fault with other names for labels. -/
def Fault.rename (f : Ident → Ident) : Fault → Fault
  | .duplicateLabel l => .duplicateLabel (f l)
  | .danglingMarks ls => .danglingMarks (ls.map f)
  | .labelOutOfRange l offset => .labelOutOfRange (f l) offset
  | fault => fault

theorem Fault.rename_of_isRefusal (f : Ident → Ident) {fault : Fault}
    (h : fault.isRefusal = true) : fault.rename f = fault := by
  cases fault with
  | identTooLong | invalidEncoding => rfl
  | _ => cases h

def Mark.rename (f : Ident → Ident) (m : Mark) : Mark := ⟨m.slot, f m.label⟩

/-- The names of a table of labels. -/
def renameLabels (f : Ident → Ident) (labels : List (Ident × UInt16)) : List (Ident × UInt16) :=
  labels.map fun entry => (f entry.1, entry.2)

def Emission.rename (f : Ident → Ident) (e : Emission) : Emission :=
  ⟨e.code, e.map, renameLabels f e.labels, e.marks.map (Mark.rename f)⟩

/-- How a step ends, with other names for labels. -/
def renameResult {α : Type} (f : Ident → Ident) :
    EStateM.Result Fault Emission α → EStateM.Result Fault Emission α
  | .ok a e => .ok a (e.rename f)
  | .error fault e => .error (fault.rename f) (e.rename f)

theorem lookup_renameLabels {f : Ident → Ident} (hf : Injective f) (l : Ident)
    (labels : List (Ident × UInt16)) : (renameLabels f labels).lookup (f l) = labels.lookup l := by
  induction labels with
  | nil => rfl
  | cons entry labels ih =>
    obtain ⟨m, offset⟩ := entry
    rw [renameLabels, List.map_cons, List.lookup_cons, List.lookup_cons]
    by_cases hm : l = m
    · subst hm
      simp
    · have hne : f l ≠ f m := fun heq => hm (hf heq)
      rw [beq_false_of_ne hm, beq_false_of_ne hne]
      exact ih

/-! ## Steps that go together -/

/-- On renamed states, the second step does what the first one does on the states as they were. -/
def Follows {α : Type} (f : Ident → Ident) (m m' : Emitter α) : Prop :=
  ∀ e, m' (e.rename f) = renameResult f (m e)

section Follows

variable {α β : Type} {f : Ident → Ident}

theorem Follows.bind {m m' : Emitter α} {g g' : α → Emitter β} (hm : Follows f m m')
    (hg : ∀ a, Follows f (g a) (g' a)) : Follows f (m >>= g) (m' >>= g') := by
  intro e
  have hfirst := hm e
  cases hrun : m e with
  | ok a e' =>
    rw [hrun] at hfirst
    rw [bind_of_ok hfirst, bind_of_ok hrun, hg a e']
  | error fault e' =>
    rw [hrun] at hfirst
    rw [bind_of_error hfirst, bind_of_error hrun]
    rfl

theorem follows_pure (a : α) : Follows f (pure a) (pure a) := fun _ => rfl

theorem follows_throw {fault : Fault} (h : fault.rename f = fault) :
    Follows f (throw fault : Emitter α) (throw fault) := by
  intro e
  have hresult : renameResult f ((throw fault : Emitter α) e) =
      .error (fault.rename f) (e.rename f) := rfl
  rw [hresult, h]
  rfl

/-- What is written does not depend on labels. -/
theorem follows_write {step : Encoder α}
    (h : ∀ code fault code', step code = .error fault code' → fault.rename f = fault) :
    Follows f (Emitter.write step) (Emitter.write step) := by
  rintro ⟨code, map, labels, marks⟩
  simp only [Emitter.write, Emission.rename]
  cases hstep : step code with
  | ok a code' => rfl
  | error fault code' =>
    simp only [renameResult, h code fault code' hstep]
    rfl

theorem follows_writes {step : Encoder Unit} {cond : Prop} {bs : List UInt8}
    (h : Encoder.Writes step cond bs) : Follows f (Emitter.write step) (Emitter.write step) := by
  apply follows_write
  intro code fault code' herror
  by_cases hcond : cond
  · rw [h.ok hcond code] at herror
    cases herror
  · obtain ⟨fault', rest, hrefused, hfault⟩ := h.refused hcond code
    rw [hrefused] at herror
    cases herror
    exact Fault.rename_of_isRefusal f hfault

theorem follows_offset : Follows f Emitter.offset Emitter.offset := fun _ => rfl

theorem follows_here (files : FileSet) (span : Span) :
    Follows f (Emitter.here files span) (Emitter.here files span) := by
  apply follows_offset.bind
  rintro offset ⟨code, map, labels, marks⟩
  simp only [Emitter.record, Emission.rename]
  split
  · split <;> rfl
  · rfl

theorem follows_framed {inside inside' : Emitter Unit} (h : Follows f inside inside') :
    Follows f (Emitter.framed inside) (Emitter.framed inside') := by
  apply (follows_writes (Encoder.writes_put _)).bind
  intro _
  have hreserve : Follows f (Emitter.write Encoder.reserve) (Emitter.write Encoder.reserve) :=
    fun _ => rfl
  apply hreserve.bind
  intro slot
  apply follows_offset.bind
  intro start
  apply h.bind
  intro _
  apply follows_offset.bind
  intro stop
  dsimp only
  split
  · have hpatch : Follows f (Emitter.write (Encoder.patch slot (UInt16.ofNat (stop - start + 1))))
        (Emitter.write (Encoder.patch slot (UInt16.ofNat (stop - start + 1)))) := by
      apply follows_write
      intro code fault code' herror
      unfold Encoder.patch at herror
      split at herror
      · cases herror
      · cases herror
        rfl
    exact hpatch.bind fun _ => follows_writes (Encoder.writes_put _)
  · exact follows_throw rfl

section Labels

variable (hf : Injective f)

include hf

theorem follows_mark (slot : Nat) (l : Ident) :
    Follows f (Emitter.mark slot l) (Emitter.mark slot (f l)) := by
  rintro ⟨code, map, labels, marks⟩
  simp only [Emitter.mark, Emission.rename, lookup_renameLabels hf]
  cases labels.lookup l with
  | none => simp [renameResult, Emission.rename, Mark.rename]
  | some target =>
    by_cases hslot : code.hasSlot slot = true
    · simp only [hslot, if_true]
      rfl
    · simp only [hslot, Bool.false_eq_true, if_false]
      rfl

theorem follows_target (l : Ident) : Follows f (Emitter.target l) (Emitter.target (f l)) := by
  have hreserve : Follows f (Emitter.write Encoder.reserve) (Emitter.write Encoder.reserve) :=
    fun _ => rfl
  apply hreserve.bind
  intro slot
  exact (follows_mark hf slot l).bind fun _ => follows_pure ()

/-- Marks are patched by which labels are known. -/
theorem settle_rename (labels : List (Ident × UInt16)) (code : Code) (ms : List Mark) :
    settle (renameLabels f labels) code (ms.map (Mark.rename f)) =
      ⟨(settle labels code ms).code, (settle labels code ms).marks.map (Mark.rename f),
        (settle labels code ms).missing⟩ := by
  induction ms generalizing code with
  | nil => rfl
  | cons m ms ih =>
    have hlookup : (renameLabels f labels).lookup (m.rename f).label = labels.lookup m.label :=
      lookup_renameLabels hf m.label labels
    have hslot : (m.rename f).slot = m.slot := rfl
    rw [List.map_cons, settle, settle, hlookup, hslot]
    cases labels.lookup m.label with
    | none => simp only [ih code, List.map_cons]
    | some target =>
      by_cases hs : code.hasSlot m.slot = true
      · simp only [hs, if_true, ih]
      · simp only [hs, Bool.false_eq_true, if_false, List.map_cons]

theorem follows_label (offset : Nat) (name : Ident) :
    Follows f (Emitter.label offset name) (Emitter.label offset (f name)) := by
  rintro ⟨code, map, labels, marks⟩
  have hlabels : (f name, UInt16.ofNat offset) :: renameLabels f labels =
      renameLabels f ((name, UInt16.ofNat offset) :: labels) := rfl
  simp only [Emitter.label, Emission.rename, lookup_renameLabels hf, hlabels, Array.toList_map,
    settle_rename hf]
  split
  · rfl
  · split
    · cases hsettle : settle ((name, UInt16.ofNat offset) :: labels) code marks.toList with
      | mk code' marks' missing =>
        cases missing with
        | none => simp [renameResult, Emission.rename]
        | some slot => simp [renameResult, Emission.rename, Fault.rename]
    · rfl

end Labels

mutual

theorem follows_piece (hf : Injective f) (files : FileSet) (p : Piece) :
    Follows f (p.emit files) ((p.rename f).emit files) := by
  cases p with
  | place span => exact follows_here files span
  | byte b => exact follows_writes (Encoder.writes_put [b])
  | ident i => exact follows_writes (Encoder.writes_ident i)
  | ty t => exact follows_writes (Encoder.writes_ty t)
  | value v => exact follows_writes (Encoder.writes_value v)
  | count n => exact follows_writes (Encoder.writes_entryCount n)
  | target l => exact follows_target hf l
  | label name => exact follows_offset.bind fun offset => follows_label hf offset name
  | frame inside => exact follows_framed (follows_pieces hf files inside)

theorem follows_pieces (hf : Injective f) (files : FileSet) (ps : List Piece) :
    Follows f (Piece.emitAll files ps) (Piece.emitAll files (Piece.renameAll f ps)) := by
  cases ps with
  | nil => exact follows_pure ()
  | cons p ps => exact (follows_piece hf files p).bind fun _ => follows_pieces hf files ps

end

theorem finish_rename (f : Ident → Ident) (e : Emission) :
    (e.rename f).finish = e.finish.mapError (Fault.rename f) := by
  have hempty : (e.rename f).marks.isEmpty = e.marks.isEmpty := by
    simp [Emission.rename, Array.isEmpty]
  have hlabels : (e.rename f).marks.toList.map Mark.label =
      (e.marks.toList.map Mark.label).map f := by
    simp [Emission.rename, Mark.rename]
  rw [Emission.finish, Emission.finish, hempty, hlabels]
  split <;> rfl

/-- A program with other names for its labels is assembled to the same code and the same source map,
or refused for the same reason, told with the other names. -/
theorem assemble_renameAll (hf : Injective f) (files : FileSet) (body : List Instr) :
    Instr.assemble files (Instr.renameAll f body) =
      (Instr.assemble files body).mapError (Fault.rename f) := by
  have hprogram : Instr.program (Instr.renameAll f body) = (Instr.program body).rename f := by
    rw [Instr.program, Instr.layoutAll_renameAll]
    rfl
  have hempty : Emission.empty.rename f = .empty := by
    simp [Emission.rename, Emission.empty, renameLabels]
  have hrun := follows_piece hf files (Instr.program body) .empty
  rw [hempty, ← hprogram, ← emitBlock_eq_layout, ← emitBlock_eq_layout] at hrun
  simp only [Instr.assemble, hrun]
  cases Instr.emitBlock files body .empty with
  | error fault e => rfl
  | ok a e =>
    simp only [renameResult, finish_rename]
    cases e.finish <;> rfl

end Follows

end BytecodeCompiler
